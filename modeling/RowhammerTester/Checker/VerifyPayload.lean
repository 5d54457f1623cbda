import Mathlib.Data.List.Basic
import Mathlib.Data.List.Induction
import Mathlib.Order.Basic

/-!
# `verify_payload`

The main loop of the payload checker, over any DRAM library.

* `Instr`, `Payload` : the messages of the `.proto` files; `DramLib` : what the loop uses of `ddr3lib` or `ddr4lib`;
* `mainLoop lib instr fuel s rank` : the memory instructions visited, with their ticks, and how the loop ended; `none`
  if it has not ended. `mainLoop_cases` : one iteration;
* `executeAll` : the rank after a list of instructions; `mainLoop_ok`, `mainLoop_failed` : what the loop made of the
  rank;
* `Increasing` : the ticks of a trace; `executeAll_induction` : the rule for invariants of the rank;
* `NoNestedJmp` : the body of a JMP has no JMP; `exists_mainLoop` : then the loop ends;
* `main` : the whole check; `Accepts`, `Rejects` : its verdict with the visited trace;
* `Unrolls` : the whole trace of a payload, whatever its timings; `Accepts.unrolls`, `Rejects.isPrefix` : what the check
  visits of it.
-/

namespace RowhammerTester.Checker

/-- `Opcode` of the `.proto` files. -/
inductive Opcode where
  | RD | ACT | PRE | REF | NOP | JMP | MAX
deriving DecidableEq, Repr

structure NopInstr where
  opcode : Opcode
  timeslice : Nat
deriving DecidableEq, Repr

structure JmpInstr where
  opcode : Opcode
  offset : Nat
  count : Nat
deriving DecidableEq, Repr

/-- An instruction, with the memory instructions of a DRAM library; none of the fields may be set. -/
inductive Instr (M : Type) where
  | mem (mem : M)
  | nop (nop : NopInstr)
  | jmp (jmp : JmpInstr)
  | unset
deriving DecidableEq, Repr

structure Payload (T M : Type) where
  timing : T
  instr : List (Instr M)

/-- The parts of `VerifyInstr` that the two libraries share: `TIMESLICE` is 29 bits, `OFFSET` 9 and `COUNT` 20. -/
def verifyInstr {M : Type} (verifyMem : M → Bool) (ip : Nat) : Instr M → Bool
  | .mem mem => verifyMem mem
  | .nop nop => nop.opcode = .NOP ∧ 0 < nop.timeslice ∧ nop.timeslice < 1 <<< 29
  | .jmp jmp => jmp.opcode = .JMP ∧ (0 < jmp.offset ∧ jmp.offset < 1 <<< 9) ∧ jmp.offset ≤ ip ∧
      0 < jmp.count ∧ jmp.count < 1 <<< 20
  | .unset => false

/-- A DRAM library: timings `T`, memory instructions `M` and ranks `R`. -/
structure DramLib (T M R : Type) where
  /-- The fields of `Timing`, in the order of its descriptor. -/
  fields : T → List (String × Nat)
  verifyMem : M → Bool
  timeslice : M → Nat
  /-- `Rank(timing)`. -/
  rank : T → R
  /-- `Rank.Execute`: the rank afterwards, or `none` for a violation. -/
  execute : R → Nat → M → Option R

/-- The counters of the main loop. -/
structure State where
  ip : Nat
  tick : Nat
  loop : Nat
deriving DecidableEq, Repr

def State.start : State := ⟨0, 0, 0⟩

/-- A JMP: `count` times back by `offset`, then on. -/
def State.jump (s : State) (jmp : JmpInstr) : State :=
  if s.loop < jmp.count then ⟨s.ip - jmp.offset, s.tick + 1, s.loop + 1⟩ else ⟨s.ip + 1, s.tick + 1, 0⟩

/-- The next instruction, `timeslice` ticks later. -/
def State.wait (s : State) (timeslice : Nat) : State := { s with tick := s.tick + timeslice, ip := s.ip + 1 }

/-- How the main loop ends. -/
inductive Result (R : Type) where
  | ok (s : State) (rank : R)
  | failed (s : State)
  | illegal (s : State)

section Loop
variable {T M R : Type} (lib : DramLib T M R) (instr : List (Instr M))

/-- The main loop, with the memory instructions handed to the rank and their ticks. -/
def mainLoop : Nat → State → R → Option (List (Nat × M) × Result R)
  | 0, _, _ => none
  | fuel + 1, s, rank =>
    match instr[s.ip]? with
    | none => some ([], .ok s rank)
    | some (.mem mem) =>
      match lib.execute rank s.tick mem with
      | none => some ([(s.tick, mem)], .failed s)
      | some rank' => (mainLoop fuel (s.wait (lib.timeslice mem)) rank').map fun run => ((s.tick, mem) :: run.1, run.2)
    | some (.nop nop) => mainLoop fuel (s.wait nop.timeslice) rank
    | some (.jmp jmp) => mainLoop fuel (s.jump jmp) rank
    | some .unset => some ([], .illegal s)

/-- The rank after a list of memory instructions. -/
def executeAll (rank : R) : List (Nat × M) → Option R
  | [] => some rank
  | x :: xs => (lib.execute rank x.1 x.2).bind fun rank' => executeAll rank' xs

variable {lib instr}

theorem executeAll_append (rank : R) (xs ys : List (Nat × M)) :
    executeAll lib rank (xs ++ ys) = (executeAll lib rank xs).bind fun rank' => executeAll lib rank' ys := by
  induction xs generalizing rank with
  | nil => rfl
  | cons x xs ih =>
    rw [List.cons_append, executeAll, executeAll, Option.bind_assoc]
    congr 1
    funext rank'
    exact ih rank'

/-- One more instruction. -/
theorem isSome_executeAll_concat {rank rank' : R} {xs : List (Nat × M)} (h : executeAll lib rank xs = some rank')
    (x : Nat × M) : (executeAll lib rank (xs ++ [x])).isSome = (lib.execute rank' x.1 x.2).isSome := by
  rw [executeAll_append, h, Option.bind_some, executeAll]
  cases lib.execute rank' x.1 x.2 <;> rfl

/-- The ways an iteration of the main loop goes. -/
theorem mainLoop_cases {fuel : Nat} {s : State} {rank : R} {v : List (Nat × M)} {res : Result R}
    (h : mainLoop lib instr (fuel + 1) s rank = some (v, res)) :
    (instr[s.ip]? = none ∧ v = [] ∧ res = .ok s rank) ∨
    (∃ mem, instr[s.ip]? = some (.mem mem) ∧ lib.execute rank s.tick mem = none ∧ v = [(s.tick, mem)] ∧
      res = .failed s) ∨
    (∃ mem rank' v', instr[s.ip]? = some (.mem mem) ∧ lib.execute rank s.tick mem = some rank' ∧
      mainLoop lib instr fuel (s.wait (lib.timeslice mem)) rank' = some (v', res) ∧ v = (s.tick, mem) :: v') ∨
    (∃ nop, instr[s.ip]? = some (.nop nop) ∧ mainLoop lib instr fuel (s.wait nop.timeslice) rank = some (v, res)) ∨
    (∃ jmp, instr[s.ip]? = some (.jmp jmp) ∧ mainLoop lib instr fuel (s.jump jmp) rank = some (v, res)) ∨
    (instr[s.ip]? = some .unset ∧ v = [] ∧ res = .illegal s) := by
  rw [mainLoop] at h
  split at h
  · next hi =>
    cases h
    exact Or.inl ⟨hi, rfl, rfl⟩
  · next mem hi =>
    split at h
    · next he =>
      cases h
      exact Or.inr (Or.inl ⟨mem, hi, he, rfl, rfl⟩)
    · next rank' he =>
      rw [Option.map_eq_some_iff] at h
      obtain ⟨⟨v', res'⟩, hrec, heq⟩ := h
      cases heq
      exact Or.inr (Or.inr (Or.inl ⟨mem, rank', v', hi, he, hrec, rfl⟩))
  · next nop hi => exact Or.inr (Or.inr (Or.inr (Or.inl ⟨nop, hi, h⟩)))
  · next jmp hi => exact Or.inr (Or.inr (Or.inr (Or.inr (Or.inl ⟨jmp, hi, h⟩))))
  · next hi =>
    cases h
    exact Or.inr (Or.inr (Or.inr (Or.inr (Or.inr ⟨hi, rfl, rfl⟩))))

/-- A loop that ends in `ok` has executed all it visited. -/
theorem mainLoop_ok {fuel : Nat} {s s' : State} {rank rank' : R} {v : List (Nat × M)}
    (h : mainLoop lib instr fuel s rank = some (v, .ok s' rank')) : executeAll lib rank v = some rank' := by
  induction fuel generalizing s rank v with
  | zero => cases h
  | succ fuel ih =>
    rcases mainLoop_cases h with ⟨-, rfl, hr⟩ | ⟨_, -, -, -, hr⟩ | ⟨mem, rank₁, v', -, he, hrec, rfl⟩ | ⟨_, -, hrec⟩ |
      ⟨_, -, hrec⟩ | ⟨-, -, hr⟩
    · cases hr
      rfl
    · cases hr
    · rw [executeAll, he]
      exact ih hrec
    · exact ih hrec
    · exact ih hrec
    · cases hr

/-- A loop that fails has executed all it visited but the last instruction. -/
theorem mainLoop_failed {fuel : Nat} {s s' : State} {rank : R} {v : List (Nat × M)}
    (h : mainLoop lib instr fuel s rank = some (v, .failed s')) :
    ∃ v' mem rank', v = v' ++ [(s'.tick, mem)] ∧ executeAll lib rank v' = some rank' ∧
      lib.execute rank' s'.tick mem = none := by
  induction fuel generalizing s rank v with
  | zero => cases h
  | succ fuel ih =>
    rcases mainLoop_cases h with ⟨-, -, hr⟩ | ⟨mem, -, he, rfl, hr⟩ | ⟨mem, rank₁, v', -, he, hrec, rfl⟩ |
      ⟨_, -, hrec⟩ | ⟨_, -, hrec⟩ | ⟨-, -, hr⟩
    · cases hr
    · cases hr
      exact ⟨[], mem, rank, rfl, rfl, he⟩
    · obtain ⟨v'', mem', rank', rfl, hall, hfail⟩ := ih hrec
      refine ⟨(s.tick, mem) :: v'', mem', rank', rfl, ?_, hfail⟩
      rw [executeAll, he]
      exact hall
    · exact ih hrec
    · exact ih hrec
    · cases hr

/-- The loop visits instructions of the payload. -/
theorem mainLoop_mem {fuel : Nat} {s : State} {rank : R} {v : List (Nat × M)} {res : Result R}
    (h : mainLoop lib instr fuel s rank = some (v, res)) : ∀ x ∈ v, .mem x.2 ∈ instr := by
  induction fuel generalizing s rank v with
  | zero => cases h
  | succ fuel ih =>
    rcases mainLoop_cases h with ⟨-, rfl, -⟩ | ⟨mem, hi, -, rfl, -⟩ | ⟨mem, rank', v', hi, -, hrec, rfl⟩ |
      ⟨nop, -, hrec⟩ |
      ⟨jmp, -, hrec⟩ | ⟨-, rfl, -⟩
    · exact fun x hx => absurd hx (by simp)
    · intro x hx
      rw [List.mem_singleton.mp hx]
      exact List.mem_of_getElem? hi
    · intro x hx
      rcases List.mem_cons.mp hx with rfl | hx
      · exact List.mem_of_getElem? hi
      · exact ih hrec x hx
    · exact ih hrec
    · exact ih hrec
    · exact fun x hx => absurd hx (by simp)

/-- The loop stops at an illegal instruction only if the payload has one. -/
theorem mainLoop_illegal {fuel : Nat} {s s' : State} {rank : R} {v : List (Nat × M)}
    (h : mainLoop lib instr fuel s rank = some (v, .illegal s')) : .unset ∈ instr := by
  induction fuel generalizing s rank v with
  | zero => cases h
  | succ fuel ih =>
    rcases mainLoop_cases h with ⟨-, -, hr⟩ | ⟨_, -, -, -, hr⟩ | ⟨mem, rank', v', -, -, hrec, -⟩ | ⟨nop, -, hrec⟩ |
      ⟨jmp, -, hrec⟩ | ⟨hi, -, -⟩
    · cases hr
    · cases hr
    · exact ih hrec
    · exact ih hrec
    · exact ih hrec
    · exact List.mem_of_getElem? hi

/-! ## Ticks -/

/-- The ticks of a trace increase strictly from `t` on. -/
def Increasing (t : Nat) : List (Nat × M) → Prop
  | [] => True
  | x :: xs => t ≤ x.1 ∧ Increasing (x.1 + 1) xs

theorem Increasing.mono {t t' : Nat} (h : t' ≤ t) : ∀ {xs : List (Nat × M)}, Increasing t xs → Increasing t' xs
  | [], _ => trivial
  | _ :: _, ⟨h1, h2⟩ => ⟨Nat.le_trans h h1, h2⟩

theorem Increasing.le {t : Nat} {xs : List (Nat × M)} (h : Increasing t xs) : ∀ x ∈ xs, t ≤ x.1 := by
  induction xs generalizing t with
  | nil => exact fun x hx => absurd hx (by simp)
  | cons y ys ih =>
    intro x hx
    rcases List.mem_cons.mp hx with rfl | hx
    · exact h.1
    · have h1 := h.1
      have h2 := ih h.2 x hx
      omega

theorem Increasing.lt_of_append {t : Nat} {xs ys : List (Nat × M)} (h : Increasing t (xs ++ ys)) :
    ∀ x ∈ xs, ∀ y ∈ ys, x.1 < y.1 := by
  induction xs generalizing t with
  | nil => exact fun x hx => absurd hx (by simp)
  | cons z zs ih =>
    intro x hx y hy
    rcases List.mem_cons.mp hx with rfl | hx
    · exact h.2.le y (List.mem_append_right _ hy)
    · exact ih h.2 x hx y hy

theorem Increasing.left {t : Nat} {xs ys : List (Nat × M)} (h : Increasing t (xs ++ ys)) : Increasing t xs := by
  induction xs generalizing t with
  | nil => trivial
  | cons z zs ih => exact ⟨h.1, ih h.2⟩

/-- Along an executed trace: what every command keeps (`Inv`) and what it finds (`P`). -/
theorem executeAll_induction {Inv : List (Nat × M) → R → Prop} {P : List (Nat × M) → Nat × M → Prop} (good : M → Prop)
    {rank₀ : R} (h0 : Inv [] rank₀)
    (hstep : ∀ h c rank rank', Inv h rank → (∀ x ∈ h, x.1 ≤ c.1) → good c.2 →
      lib.execute rank c.1 c.2 = some rank' → Inv (h ++ [c]) rank' ∧ P h c)
    (tr : List (Nat × M)) (hinc : Increasing 0 tr) (hgood : ∀ x ∈ tr, good x.2) (rank : R)
    (hall : executeAll lib rank₀ tr = some rank) : Inv tr rank ∧ ∀ h c post, tr = h ++ c :: post → P h c := by
  induction tr using List.reverseRecOn generalizing rank with
  | nil =>
    cases hall
    exact ⟨h0, fun h c post heq => absurd heq.symm (by simp)⟩
  | append_singleton tr c ih =>
    rw [executeAll_append, Option.bind_eq_some_iff] at hall
    obtain ⟨rank₁, hall, hlast⟩ := hall
    rw [executeAll, Option.bind_eq_some_iff] at hlast
    obtain ⟨rank₂, hexec, hlast⟩ := hlast
    cases hlast
    obtain ⟨hinv, hP⟩ := ih hinc.left (fun x hx => hgood x (by simp [hx])) rank₁ hall
    have hticks : ∀ x ∈ tr, x.1 ≤ c.1 := fun x hx => Nat.le_of_lt (hinc.lt_of_append x hx c (by simp))
    obtain ⟨hinv', hPc⟩ := hstep tr c rank₁ rank hinv hticks (hgood c (by simp)) hexec
    refine ⟨hinv', fun h x post heq => ?_⟩
    rcases List.eq_nil_or_concat post with rfl | ⟨post', y, rfl⟩
    · obtain ⟨rfl, hx⟩ := List.append_inj' heq rfl
      cases hx
      exact hPc
    · rw [List.concat_eq_append, ← List.cons_append, ← List.append_assoc] at heq
      obtain ⟨rfl, -⟩ := List.append_inj' heq rfl
      exact hP h x post' rfl

/-- Every instruction takes at least one tick. -/
def Timed (lib : DramLib T M R) (instr : List (Instr M)) : Prop :=
  ∀ i ∈ instr, match i with
    | .mem mem => 0 < lib.timeslice mem
    | .nop nop => 0 < nop.timeslice
    | _ => True

theorem mainLoop_increasing (htimed : Timed lib instr) {fuel : Nat} {s : State} {rank : R} {v : List (Nat × M)}
    {res : Result R} (h : mainLoop lib instr fuel s rank = some (v, res)) : Increasing s.tick v := by
  induction fuel generalizing s rank v with
  | zero => cases h
  | succ fuel ih =>
    rcases mainLoop_cases h with ⟨-, rfl, -⟩ | ⟨_, -, -, rfl, -⟩ | ⟨mem, rank', v', hi, -, hrec, rfl⟩ | ⟨nop, -, hrec⟩ |
      ⟨jmp, -, hrec⟩ | ⟨-, rfl, -⟩
    · trivial
    · exact ⟨Nat.le_refl _, trivial⟩
    · have hpos : 0 < lib.timeslice mem := htimed _ (List.mem_of_getElem? hi)
      exact ⟨Nat.le_refl _, (ih hrec).mono (Nat.add_le_add_left hpos s.tick)⟩
    · exact (ih hrec).mono (Nat.le_add_right _ _)
    · refine (ih hrec).mono ?_
      unfold State.jump
      split <;> exact Nat.le_succ s.tick
    · trivial

/-! ## The loop ends -/

/-- The instruction at `k` is a JMP. -/
def IsJmp (instr : List (Instr M)) (k : Nat) : Prop := ∃ jmp, instr[k]? = some (.jmp jmp)

/-- The body of a JMP, the `offset` instructions before it, has no JMP. -/
def NoNestedJmp (instr : List (Instr M)) : Prop :=
  ∀ (k : Nat) (jmp : JmpInstr), instr[k]? = some (.jmp jmp) → ∀ i, k - jmp.offset ≤ i → i < k → ¬ IsJmp instr i

/-- A single JMP at the end. -/
theorem noNestedJmp_concat {pre : List (Instr M)} (hpre : ∀ i ∈ pre, ∀ jmp, i ≠ .jmp jmp) (jmp : JmpInstr) :
    NoNestedJmp (pre ++ [.jmp jmp]) := by
  rintro k jmp' hk i - hik ⟨j, hj⟩
  have hlen : k < pre.length + 1 := by
    have := (List.getElem?_eq_some_iff.mp hk).1
    simpa using this
  rw [List.getElem?_append_left (by omega)] at hj
  exact hpre _ (List.mem_of_getElem? hj) j rfl

/-- From `ip` with the loop counter `loop` the main loop ends. -/
def Ends (lib : DramLib T M R) (instr : List (Instr M)) (ip loop : Nat) : Prop :=
  ∀ tick rank, ∃ fuel, (mainLoop lib instr fuel ⟨ip, tick, loop⟩ rank).isSome = true

theorem ends_of_length_le {ip : Nat} (loop : Nat) (h : instr.length ≤ ip) : Ends lib instr ip loop := by
  intro tick rank
  refine ⟨1, ?_⟩
  rw [mainLoop, List.getElem?_eq_none h]
  rfl

/-- Without a JMP the loop goes on to the next instruction, or ends. -/
theorem Ends.step {ip loop : Nat} (hj : ¬ IsJmp instr ip) (h : Ends lib instr (ip + 1) loop) :
    Ends lib instr ip loop := by
  intro tick rank
  cases hi : instr[ip]? with
  | none => exact ends_of_length_le loop (List.getElem?_eq_none_iff.mp hi) tick rank
  | some i =>
    cases i with
    | mem mem =>
      cases he : lib.execute rank tick mem with
      | none =>
        refine ⟨1, ?_⟩
        simp only [mainLoop, hi, he]
        rfl
      | some rank' =>
        obtain ⟨fuel, hf⟩ := h (tick + lib.timeslice mem) rank'
        refine ⟨fuel + 1, ?_⟩
        simp only [mainLoop, hi, he, State.wait, Option.isSome_map]
        exact hf
    | nop nop =>
      obtain ⟨fuel, hf⟩ := h (tick + nop.timeslice) rank
      refine ⟨fuel + 1, ?_⟩
      simp only [mainLoop, hi, State.wait]
      exact hf
    | jmp jmp => exact absurd ⟨jmp, hi⟩ hj
    | unset =>
      refine ⟨1, ?_⟩
      simp only [mainLoop, hi]
      rfl

/-- Straight-line code leads to its end. -/
theorem Ends.straight {k loop : Nat} (h : Ends lib instr k loop) (n : Nat) (hn : n ≤ k)
    (hj : ∀ i, k - n ≤ i → i < k → ¬ IsJmp instr i) : Ends lib instr (k - n) loop := by
  induction n with
  | zero => exact h
  | succ n ih =>
    refine Ends.step (hj _ (Nat.le_refl _) (by omega)) ?_
    rw [show k - (n + 1) + 1 = k - n by omega]
    exact ih (by omega) fun i hi => hj i (by omega)

/-- A JMP is taken until the loop counter reaches its count. -/
theorem Ends.jmp (hnest : NoNestedJmp instr) {k : Nat} {jmp : JmpInstr} (hi : instr[k]? = some (.jmp jmp))
    (hoff : jmp.offset ≤ k) (h : Ends lib instr (k + 1) 0) (n loop : Nat) (hn : jmp.count - loop = n) :
    Ends lib instr k loop := by
  induction n generalizing loop with
  | zero =>
    intro tick rank
    obtain ⟨fuel, hf⟩ := h (tick + 1) rank
    refine ⟨fuel + 1, ?_⟩
    simp only [mainLoop, hi, State.jump]
    rw [if_neg (by omega)]
    exact hf
  | succ n ih =>
    intro tick rank
    have hbody := Ends.straight (ih (loop + 1) (by omega)) jmp.offset hoff (hnest k jmp hi)
    obtain ⟨fuel, hf⟩ := hbody (tick + 1) rank
    refine ⟨fuel + 1, ?_⟩
    simp only [mainLoop, hi, State.jump]
    rw [if_pos (by omega)]
    exact hf

/-- Every JMP stays within the payload. -/
def Backward (instr : List (Instr M)) : Prop :=
  ∀ (k : Nat) (jmp : JmpInstr), instr[k]? = some (.jmp jmp) → jmp.offset ≤ k

theorem ends_of_noNestedJmp (hnest : NoNestedJmp instr) (hback : Backward instr) (n ip loop : Nat)
    (hn : instr.length - ip = n) : Ends lib instr ip loop := by
  induction n generalizing ip loop with
  | zero => exact ends_of_length_le loop (by omega)
  | succ n ih =>
    have hnext : ∀ l, Ends lib instr (ip + 1) l := fun l => ih (ip + 1) l (by omega)
    by_cases hj : IsJmp instr ip
    · obtain ⟨jmp, hi⟩ := hj
      exact Ends.jmp hnest hi (hback ip jmp hi) (hnext 0) _ loop rfl
    · exact Ends.step hj (hnext loop)

/-- Without nested JMPs the main loop ends. -/
theorem exists_mainLoop (lib : DramLib T M R) (hnest : NoNestedJmp instr) (hback : Backward instr) (s : State)
    (rank : R) :
    ∃ fuel v res, mainLoop lib instr fuel s rank = some (v, res) := by
  have hends : Ends lib instr s.ip s.loop := ends_of_noNestedJmp hnest hback _ s.ip s.loop rfl
  obtain ⟨fuel, hf⟩ := hends s.tick rank
  obtain ⟨⟨v, res⟩, h⟩ := Option.isSome_iff_exists.mp hf
  exact ⟨fuel, v, res, h⟩

/-! ## The trace without the rank -/

/-- A library whose rank accepts everything: the main loop then only unrolls. -/
def DramLib.unroll (lib : DramLib T M R) : DramLib T M Unit :=
  { fields := lib.fields, verifyMem := lib.verifyMem, timeslice := lib.timeslice, rank := fun _ => (),
    execute := fun _ _ _ => some () }

/-- The loop visits a prefix of the unrolled payload, and all of it when it ends in `ok`. -/
theorem mainLoop_unroll {fuel fuel' : Nat} {s : State} {rank : R} {v u : List (Nat × M)} {res : Result R}
    {res' : Result Unit} (h : mainLoop lib instr fuel s rank = some (v, res))
    (hu : mainLoop lib.unroll instr fuel' s () = some (u, res')) :
    v <+: u ∧ ∀ s' rank', res = .ok s' rank' → v = u ∧ res' = .ok s' () := by
  induction fuel generalizing fuel' s rank v u with
  | zero => cases h
  | succ fuel ih =>
    cases fuel' with
    | zero => cases hu
    | succ fuel' =>
      rcases mainLoop_cases h with ⟨hi, rfl, rfl⟩ | ⟨mem, hi, -, rfl, rfl⟩ | ⟨mem, rank₁, v', hi, he, hrec, rfl⟩ |
        ⟨nop, hi, hrec⟩ | ⟨jmp, hi, hrec⟩ | ⟨hi, rfl, rfl⟩
      · simp only [mainLoop, hi] at hu
        cases hu
        refine ⟨List.prefix_refl _, fun s' rank' h => ?_⟩
        cases h
        exact ⟨rfl, rfl⟩
      · simp only [mainLoop, hi, DramLib.unroll, Option.map_eq_some_iff] at hu
        obtain ⟨⟨u', res''⟩, -, heq⟩ := hu
        cases heq
        exact ⟨⟨u', rfl⟩, fun s' rank' h => by cases h⟩
      · simp only [mainLoop, hi, DramLib.unroll, Option.map_eq_some_iff] at hu
        obtain ⟨⟨u', res''⟩, hu', heq⟩ := hu
        cases heq
        obtain ⟨hpre, hok⟩ := ih hrec hu'
        refine ⟨(List.prefix_cons_inj _).mpr hpre, fun s' rank' h => ?_⟩
        obtain ⟨rfl, hres⟩ := hok s' rank' h
        exact ⟨rfl, hres⟩
      · simp only [mainLoop, hi] at hu
        exact ih hrec hu
      · simp only [mainLoop, hi] at hu
        exact ih hrec hu
      · simp only [mainLoop, hi] at hu
        cases hu
        exact ⟨List.prefix_refl _, fun s' rank' h => by cases h⟩

/-- What ends in `ok` ends so without the rank. -/
theorem mainLoop_unroll_ok {fuel : Nat} {s s' : State} {rank rank' : R} {v : List (Nat × M)}
    (h : mainLoop lib instr fuel s rank = some (v, .ok s' rank')) :
    mainLoop lib.unroll instr fuel s () = some (v, .ok s' ()) := by
  induction fuel generalizing s rank v with
  | zero => cases h
  | succ fuel ih =>
    rcases mainLoop_cases h with ⟨hi, rfl, hr⟩ | ⟨_, -, -, -, hr⟩ | ⟨mem, rank₁, v', hi, -, hrec, rfl⟩ |
      ⟨nop, hi, hrec⟩ | ⟨jmp, hi, hrec⟩ | ⟨-, -, hr⟩
    · cases hr
      simp only [mainLoop, hi]
    · cases hr
    · have hrest := ih hrec
      simp only [mainLoop, hi, DramLib.unroll] at hrest ⊢
      rw [hrest]
      rfl
    · simp only [mainLoop, hi]
      exact ih hrec
    · simp only [mainLoop, hi]
      exact ih hrec
    · cases hr

end Loop

/-! ## The whole check -/

/-- What `main` reports. -/
inductive Report where
  | notPositive (field : String)
  | illegalInstr (ip : Nat)
  | failed (s : State)
  | illegal (s : State)
  | ok (s : State)
deriving DecidableEq, Repr

/-- The exit code. -/
def Report.returnCode : Report → Int
  | .ok _ => 0
  | _ => -1

def Result.report {R : Type} : Result R → Report
  | .ok s _ => .ok s
  | .failed s => .failed s
  | .illegal s => .illegal s

section Main
variable {T M R : Type} (lib : DramLib T M R) (payload : Payload T M)

/-- The first instruction that `VerifyInstr` refuses. -/
def firstIllegal (instr : List (Instr M)) : Option Nat :=
  (instr.zipIdx.find? fun x => !verifyInstr lib.verifyMem x.2 x.1).map Prod.snd

/-- `main`, after the payload is parsed. -/
def main (fuel : Nat) : Option (List (Nat × M) × Report) :=
  match (lib.fields payload.timing).find? fun f => f.2 = 0 with
  | some field => some ([], .notPositive field.1)
  | none =>
    match firstIllegal lib payload.instr with
    | some ip => some ([], .illegalInstr ip)
    | none => (mainLoop lib payload.instr fuel State.start (lib.rank payload.timing)).map fun run =>
        (run.1, run.2.report)

/-- All timing parameters are positive. -/
def PositiveTiming : Prop := ∀ f ∈ lib.fields payload.timing, 0 < f.2

/-- All instructions pass `VerifyInstr`. -/
def Verified : Prop := ∀ (ip : Nat) (i : Instr M), payload.instr[ip]? = some i → verifyInstr lib.verifyMem ip i = true

/-- The check ends with `OK`, having visited `tr`. -/
def Accepts (tr : List (Nat × M)) (s : State) : Prop := ∃ fuel, main lib payload fuel = some (tr, .ok s)

/-- The payload unrolls into the memory instructions `u`, with their ticks, up to the counters `s`: what the main loop
visits when nothing is refused. -/
def Unrolls (u : List (Nat × M)) (s : State) : Prop :=
  ∃ fuel, mainLoop lib.unroll payload.instr fuel State.start () = some (u, .ok s ())

/-- The check refuses the last instruction of `tr`. -/
def Rejects (tr : List (Nat × M)) (s : State) : Prop := ∃ fuel, main lib payload fuel = some (tr, .failed s)

variable {lib payload}

theorem find_zero_eq_none :
    ((lib.fields payload.timing).find? fun f => f.2 = 0) = none ↔ PositiveTiming lib payload := by
  rw [List.find?_eq_none]
  unfold PositiveTiming
  simp only [decide_eq_true_eq, Nat.pos_iff_ne_zero]

theorem firstIllegal_eq_none : firstIllegal lib payload.instr = none ↔ Verified lib payload := by
  unfold firstIllegal Verified
  rw [Option.map_eq_none_iff, List.find?_eq_none]
  constructor
  · intro h ip i hi
    have := h (i, ip) (List.mem_zipIdx_iff_getElem?.mpr hi)
    simpa using this
  · rintro h ⟨i, ip⟩ hmem
    have := h ip i (List.mem_zipIdx_iff_getElem?.mp hmem)
    simpa using this

/-- What a check whose main loop ran has seen before. -/
theorem main_eq_some {fuel : Nat} {tr : List (Nat × M)} {s : State} {rep : Report}
    (hrep : rep = .ok s ∨ rep = .failed s)
    (h : main lib payload fuel = some (tr, rep)) :
    PositiveTiming lib payload ∧ Verified lib payload ∧
      ∃ res, mainLoop lib payload.instr fuel State.start (lib.rank payload.timing) = some (tr, res) ∧ res.report =
        rep := by
  unfold main at h
  split at h
  · cases h
    rcases hrep with h | h <;> cases h
  · next hpos =>
    split at h
    · cases h
      rcases hrep with h | h <;> cases h
    · next hver =>
      rw [Option.map_eq_some_iff] at h
      obtain ⟨⟨v, res⟩, hloop, heq⟩ := h
      cases heq
      exact ⟨find_zero_eq_none.mp hpos, firstIllegal_eq_none.mp hver, res, hloop, rfl⟩

theorem accepts_iff {tr : List (Nat × M)} {s : State} : Accepts lib payload tr s ↔
    PositiveTiming lib payload ∧ Verified lib payload ∧
      ∃ fuel rank, mainLoop lib payload.instr fuel State.start (lib.rank payload.timing) = some (tr, .ok s rank) := by
  constructor
  · rintro ⟨fuel, h⟩
    obtain ⟨hpos, hver, res, hloop, hres⟩ := main_eq_some (Or.inl rfl) h
    cases res with
    | ok s' rank =>
      cases hres
      exact ⟨hpos, hver, fuel, rank, hloop⟩
    | failed s' => cases hres
    | illegal s' => cases hres
  · rintro ⟨hpos, hver, fuel, rank, hloop⟩
    refine ⟨fuel, ?_⟩
    unfold main
    rw [find_zero_eq_none.mpr hpos, firstIllegal_eq_none.mpr hver, hloop]
    rfl

theorem rejects_iff {tr : List (Nat × M)} {s : State} : Rejects lib payload tr s ↔
    PositiveTiming lib payload ∧ Verified lib payload ∧
      ∃ fuel, mainLoop lib payload.instr fuel State.start (lib.rank payload.timing) = some (tr, .failed s) := by
  constructor
  · rintro ⟨fuel, h⟩
    obtain ⟨hpos, hver, res, hloop, hres⟩ := main_eq_some (Or.inr rfl) h
    cases res with
    | ok s' rank => cases hres
    | failed s' =>
      cases hres
      exact ⟨hpos, hver, fuel, hloop⟩
    | illegal s' => cases hres
  · rintro ⟨hpos, hver, fuel, hloop⟩
    refine ⟨fuel, ?_⟩
    unfold main
    rw [find_zero_eq_none.mpr hpos, firstIllegal_eq_none.mpr hver, hloop]
    rfl

theorem Verified.backward (h : Verified lib payload) : Backward payload.instr := by
  intro k jmp hi
  have hv := h k _ hi
  simp only [verifyInstr, decide_eq_true_eq] at hv
  exact hv.2.2.1

theorem Verified.mem {i : Instr M} (h : Verified lib payload) (hi : i ∈ payload.instr) :
    ∃ ip, verifyInstr lib.verifyMem ip i = true := by
  obtain ⟨ip, hip⟩ := List.mem_iff_getElem?.mp hi
  exact ⟨ip, h ip i hip⟩

theorem Verified.not_illegal (h : Verified lib payload) (fuel : Nat) (s s' : State) (rank : R) (v : List (Nat × M)) :
    mainLoop lib payload.instr fuel s rank ≠ some (v, .illegal s') := by
  intro hloop
  obtain ⟨ip, hip⟩ := h.mem (mainLoop_illegal hloop)
  cases hip

theorem Verified.visited (h : Verified lib payload) {fuel : Nat} {s : State} {rank : R} {v : List (Nat × M)}
    {res : Result R} (hloop : mainLoop lib payload.instr fuel s rank = some (v, res)) :
    ∀ x ∈ v, lib.verifyMem x.2 = true := by
  intro x hx
  obtain ⟨ip, hip⟩ := h.mem (mainLoop_mem hloop x hx)
  exact hip

theorem Verified.timed (h : Verified lib payload) (hlib : ∀ m, lib.verifyMem m = true → 0 < lib.timeslice m) :
    Timed lib payload.instr := by
  intro i hi
  obtain ⟨k, hk⟩ := List.mem_iff_getElem?.mp hi
  have hv := h k i hk
  cases i with
  | mem mem => exact hlib mem hv
  | nop nop =>
    simp only [verifyInstr, decide_eq_true_eq] at hv
    exact hv.2.1
  | jmp jmp => trivial
  | unset => trivial

theorem Verified.exists_unrolls (h : Verified lib payload) (hnest : NoNestedJmp payload.instr) :
    ∃ u s, Unrolls lib payload u s := by
  obtain ⟨fuel, u, res, hloop⟩ := exists_mainLoop lib.unroll hnest h.backward State.start ()
  cases res with
  | ok s rank => exact ⟨u, s, fuel, hloop⟩
  | failed s =>
    obtain ⟨_, _, _, -, -, hfail⟩ := mainLoop_failed hloop
    cases hfail
  | illegal s =>
    obtain ⟨ip, hip⟩ := h.mem (mainLoop_illegal hloop)
    cases hip

theorem Unrolls.unique {u u' : List (Nat × M)} {s s' : State} (h : Unrolls lib payload u s)
    (h' : Unrolls lib payload u' s') : u = u' ∧ s = s' := by
  obtain ⟨_, h⟩ := h
  obtain ⟨_, h'⟩ := h'
  obtain ⟨rfl, hs⟩ := (mainLoop_unroll h h').2 s () rfl
  cases hs
  exact ⟨rfl, rfl⟩

/-- An accepted payload was visited from its start to its end. -/
theorem Accepts.unrolls {tr : List (Nat × M)} {s : State} (h : Accepts lib payload tr s) :
    Unrolls lib payload tr s := by
  obtain ⟨-, -, fuel, rank, hloop⟩ := accepts_iff.mp h
  exact ⟨fuel, mainLoop_unroll_ok hloop⟩

/-- A rejected one was visited from its start. -/
theorem Rejects.isPrefix {tr u : List (Nat × M)} {s s' : State} (h : Rejects lib payload tr s)
    (hu : Unrolls lib payload u s') : tr <+: u := by
  obtain ⟨-, -, fuel, hloop⟩ := rejects_iff.mp h
  obtain ⟨fuel', hu⟩ := hu
  exact (mainLoop_unroll hloop hu).1

end Main

end RowhammerTester.Checker
