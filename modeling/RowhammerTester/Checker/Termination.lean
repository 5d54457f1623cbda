import RowhammerTester.Checker.Rounds

/-!
# Does the check end?

All JMPs share one loop counter, and a JMP that falls through sets it to 0. A JMP around another JMP therefore finds the
counter at 0 every time and is taken again: from then on the main loop goes round and round in the same way.

* `DramLib.next`, `commandAt` : the counters after an iteration and the command of it, without the rank; `unrolled` :
  the commands of the first iterations;
* `Nested` : a JMP with a JMP in its body; `visits` : how often the first iterations come to one; `BreaksEarly` : a
  command breaks a rule of the library before the seventh time;
* `Nests k j` : the JMP at `k` is the last one before the JMP at `j`, and in its body; `Caught` : the states that never
  come past `j` (`Caught.next`, `Caught.not_ok`);
* `Caught.exists_arrival` : the loop comes to `j`; `exists_rounds` : from then on it repeats the same commands;
* `concludes_iff` : the check ends exactly when no JMP has a JMP in its body or a command breaks a rule so early.
-/

namespace RowhammerTester.Checker

section Loop
variable {T M R : Type} (lib : DramLib T M R) (instr : List (Instr M))

/-! ## Iterations without the rank -/

/-- The counters after an iteration. -/
def DramLib.next (s : State) : State :=
  match instr[s.ip]? with
  | some (.mem mem) => s.wait (lib.timeslice mem)
  | some (.nop nop) => s.wait nop.timeslice
  | some (.jmp jmp) => s.jump jmp
  | _ => s

/-- The command of an iteration, with its tick. -/
def commandAt (s : State) : List (Nat × M) :=
  match instr[s.ip]? with
  | some (.mem mem) => [(s.tick, mem)]
  | _ => []

/-- The commands of the first `n` iterations of the main loop, with their ticks, when nothing is refused. -/
def unrolled : Nat → State → List (Nat × M)
  | 0, _ => []
  | n + 1, s => commandAt instr s ++ unrolled n (lib.next instr s)

instance (k : Nat) : Decidable (IsJmp instr k) :=
  match h : instr[k]? with
  | some (.jmp jmp) => isTrue ⟨jmp, h⟩
  | none | some (.mem _) | some (.nop _) | some .unset => isFalse fun ⟨_, hj⟩ => nomatch h.symm.trans hj

/-- The instruction at `k` is a JMP with a JMP in its body. -/
def Nested (k : Nat) : Prop :=
  ∃ jmp, instr[k]? = some (.jmp jmp) ∧ ∃ i < k, k - jmp.offset ≤ i ∧ IsJmp instr i

instance (k : Nat) : Decidable (Nested instr k) :=
  match h : instr[k]? with
  | some (.jmp jmp) => decidable_of_iff (∃ i < k, k - jmp.offset ≤ i ∧ IsJmp instr i)
      ⟨fun hi => ⟨jmp, h, hi⟩, fun ⟨_, hj, hi⟩ => by cases h.symm.trans hj; exact hi⟩
  | none | some (.mem _) | some (.nop _) | some .unset => isFalse fun ⟨_, hj, _⟩ => nomatch h.symm.trans hj

/-- How many of the first `n` iterations are at a JMP with a JMP in its body. -/
def visits : Nat → State → Nat
  | 0, _ => 0
  | n + 1, s => (if Nested instr s.ip then 1 else 0) + visits n (lib.next instr s)

variable {lib instr}

theorem noNestedJmp_iff : NoNestedJmp instr ↔ ∀ k, ¬ Nested instr k := by
  constructor
  · rintro h k ⟨jmp, hk, i, hlt, hle, hi⟩
    exact h k jmp hk i hle hlt hi
  · exact fun h k jmp hk i hle hlt hi => h k ⟨jmp, hk, i, hlt, hle, hi⟩

section Steps
variable {s : State} {n : Nat}

theorem unrolled_of_mem {mem : M} (hi : instr[s.ip]? = some (.mem mem)) :
    unrolled lib instr (n + 1) s = (s.tick, mem) :: unrolled lib instr n (s.wait (lib.timeslice mem)) := by
  simp only [unrolled, commandAt, DramLib.next, hi]
  rfl

theorem unrolled_of_nop {nop : NopInstr} (hi : instr[s.ip]? = some (.nop nop)) :
    unrolled lib instr (n + 1) s = unrolled lib instr n (s.wait nop.timeslice) := by
  simp only [unrolled, commandAt, DramLib.next, hi]
  rfl

theorem unrolled_of_jmp {jmp : JmpInstr} (hi : instr[s.ip]? = some (.jmp jmp)) :
    unrolled lib instr (n + 1) s = unrolled lib instr n (s.jump jmp) := by
  simp only [unrolled, commandAt, DramLib.next, hi]
  rfl

/-- Past the end nothing is left. -/
theorem unrolled_of_end (hi : instr[s.ip]? = none ∨ instr[s.ip]? = some .unset) : unrolled lib instr n s = [] := by
  induction n with
  | zero => rfl
  | succ n ih => rcases hi with hi | hi <;> simpa only [unrolled, commandAt, DramLib.next, hi, List.nil_append] using ih

theorem unrolled_add (m n : Nat) (s : State) :
    unrolled lib instr (m + n) s = unrolled lib instr m s ++ unrolled lib instr n ((lib.next instr)^[m] s) := by
  induction m generalizing s with
  | zero => rw [Nat.zero_add]; rfl
  | succ m ih =>
    rw [Nat.succ_add, unrolled, unrolled, ih, List.append_assoc]
    rfl

theorem visits_add (m n : Nat) (s : State) :
    visits lib instr (m + n) s = visits lib instr m s + visits lib instr n ((lib.next instr)^[m] s) := by
  induction m generalizing s with
  | zero => rw [Nat.zero_add, visits, Nat.zero_add]; rfl
  | succ m ih =>
    rw [Nat.succ_add, visits, visits, ih, Nat.add_assoc]
    rfl

theorem mem_unrolled : ∀ x ∈ unrolled lib instr n s, .mem x.2 ∈ instr := by
  induction n generalizing s with
  | zero => exact fun x hx => absurd hx List.not_mem_nil
  | succ n ih =>
    intro x hx
    rw [unrolled] at hx
    rcases List.mem_append.mp hx with hx | hx
    · unfold commandAt at hx
      split at hx
      · next mem hi =>
        rw [List.mem_singleton.mp hx]
        exact List.mem_of_getElem? hi
      · cases hx
    · exact ih x hx

theorem unrolled_increasing (htimed : Timed lib instr) : Increasing s.tick (unrolled lib instr n s) := by
  induction n generalizing s with
  | zero => trivial
  | succ n ih =>
    cases hi : instr[s.ip]? with
    | none => rw [unrolled_of_end (Or.inl hi)]; trivial
    | some i =>
      cases i with
      | mem mem =>
        have hpos : 0 < lib.timeslice mem := htimed _ (List.mem_of_getElem? hi)
        rw [unrolled_of_mem hi]
        exact ⟨Nat.le_refl _, (ih (s := s.wait _)).mono (Nat.add_le_add_left hpos s.tick)⟩
      | nop nop =>
        rw [unrolled_of_nop hi]
        exact (ih (s := s.wait _)).mono (Nat.le_add_right _ _)
      | jmp jmp =>
        rw [unrolled_of_jmp hi]
        refine (ih (s := s.jump jmp)).mono ?_
        unfold State.jump
        split <;> exact Nat.le_succ s.tick
      | unset => rw [unrolled_of_end (Or.inr hi)]; trivial

/-- A refused command ends the loop. -/
theorem mainLoop_of_refused {rank : R} (h : executeAll lib rank (unrolled lib instr n s) = none) :
    ∃ v s', mainLoop lib instr n s rank = some (v, .failed s') := by
  induction n generalizing s rank with
  | zero => cases h
  | succ n ih =>
    cases hi : instr[s.ip]? with
    | none =>
      rw [unrolled_of_end (Or.inl hi)] at h
      cases h
    | some i =>
      cases i with
      | mem mem =>
        rw [unrolled_of_mem hi, executeAll] at h
        cases he : lib.execute rank s.tick mem with
        | none =>
          simp only [mainLoop, hi, he]
          exact ⟨_, _, rfl⟩
        | some rank' =>
          rw [he, Option.bind_some] at h
          obtain ⟨v, s', hrec⟩ := ih h
          simp only [mainLoop, hi, he, hrec, Option.map_some]
          exact ⟨_, _, rfl⟩
      | nop nop =>
        rw [unrolled_of_nop hi] at h
        simp only [mainLoop, hi]
        exact ih h
      | jmp jmp =>
        rw [unrolled_of_jmp hi] at h
        simp only [mainLoop, hi]
        exact ih h
      | unset =>
        rw [unrolled_of_end (Or.inr hi)] at h
        cases h

/-- The loop ends with a violation only at a refused command. -/
theorem refused_of_mainLoop {s' : State} {rank : R} {v : List (Nat × M)}
    (h : mainLoop lib instr n s rank = some (v, .failed s')) :
    executeAll lib rank (unrolled lib instr n s) = none := by
  induction n generalizing s rank v with
  | zero => cases h
  | succ n ih =>
    rcases mainLoop_cases h with ⟨-, -, hr⟩ | ⟨mem, hi, he, -, -⟩ | ⟨mem, rank', v', hi, he, hrec, -⟩ |
      ⟨nop, hi, hrec⟩ | ⟨jmp, hi, hrec⟩ | ⟨-, -, hr⟩
    · cases hr
    · rw [unrolled_of_mem hi, executeAll, he, Option.bind_none]
    · rw [unrolled_of_mem hi, executeAll, he, Option.bind_some]
      exact ih hrec
    · rw [unrolled_of_nop hi]
      exact ih hrec
    · rw [unrolled_of_jmp hi]
      exact ih hrec
    · cases hr

/-! ### Later -/

/-- The same counters `d` ticks later. -/
def State.delay (d : Nat) (s : State) : State := { s with tick := s.tick + d }

variable {d : Nat}

theorem next_delay : lib.next instr (s.delay d) = (lib.next instr s).delay d := by
  have hip : (s.delay d).ip = s.ip := rfl
  unfold DramLib.next
  rw [hip]
  split
  · exact congrArg (State.mk _ · _) (Nat.add_right_comm ..)
  · exact congrArg (State.mk _ · _) (Nat.add_right_comm ..)
  · next jmp _ =>
    have hloop : (s.delay d).loop = s.loop := rfl
    unfold State.jump
    rw [hloop]
    split <;> exact congrArg (State.mk _ · _) (Nat.add_right_comm ..)
  · rfl

theorem unrolled_delay : unrolled lib instr n (s.delay d) = delayed d (unrolled lib instr n s) := by
  induction n generalizing s with
  | zero => rfl
  | succ n ih =>
    rw [unrolled, unrolled, next_delay, ih, delayed_append]
    congr 1
    have hip : (s.delay d).ip = s.ip := rfl
    unfold commandAt
    rw [hip]
    split <;> rfl

theorem visits_delay : visits lib instr n (s.delay d) = visits lib instr n s := by
  induction n generalizing s with
  | zero => rfl
  | succ n ih =>
    rw [visits, visits, next_delay, ih]
    rfl

theorem tick_le_iterate : s.tick ≤ ((lib.next instr)^[n] s).tick := by
  induction n generalizing s with
  | zero => exact Nat.le_refl _
  | succ n ih =>
    refine Nat.le_trans ?_ ih
    unfold DramLib.next State.wait State.jump
    split
    · exact Nat.le_add_right _ _
    · exact Nat.le_add_right _ _
    · split <;> exact Nat.le_succ s.tick
    · exact Nat.le_refl _

/-- Counters that come back some ticks later go on in rounds. -/
theorem unrolled_of_period {P : Nat} (h : (lib.next instr)^[P] s = s.delay d) (n : Nat) :
    unrolled lib instr (P * n) s = rounds (unrolled lib instr P s) d n := by
  induction n with
  | zero => rfl
  | succ n ih => rw [Nat.mul_succ, Nat.add_comm, unrolled_add, h, unrolled_delay, ih, rounds]

theorem visits_of_period {P : Nat} (h : (lib.next instr)^[P] s = s.delay d) (n : Nat) :
    visits lib instr (P * n) s = n * visits lib instr P s := by
  induction n with
  | zero => rw [Nat.zero_mul]; rfl
  | succ n ih => rw [Nat.mul_succ, Nat.add_comm, visits_add, h, visits_delay, ih, Nat.succ_mul, Nat.add_comm]

end Steps

/-! ## Nested JMPs -/

/-- The JMP at `k` is the last one before the JMP at `j`, in whose body it is. -/
structure Nests (instr : List (Instr M)) (k j : Nat) : Prop where
  inner : IsJmp instr k
  before : k < j
  last : ∀ i, k < i → i < j → ¬ IsJmp instr i
  outer : ∃ jmp, instr[j]? = some (.jmp jmp) ∧ j - jmp.offset ≤ k ∧ 0 < jmp.count

/-- The last JMP below `j`. -/
theorem exists_last_jmp {i j : Nat} (hi : IsJmp instr i) (hij : i < j) :
    ∃ k, i ≤ k ∧ k < j ∧ IsJmp instr k ∧ ∀ l, k < l → l < j → ¬ IsJmp instr l := by
  induction j with
  | zero => exact absurd hij (Nat.not_lt_zero i)
  | succ j ih =>
    by_cases hj : IsJmp instr j
    · exact ⟨j, Nat.le_of_lt_succ hij, Nat.lt_succ_self j, hj, fun l hl hl' => absurd hl' (by omega)⟩
    · have hne : i ≠ j := by
        rintro rfl
        exact hj hi
      obtain ⟨k, hik, hkj, hk, hlast⟩ := ih (by omega)
      refine ⟨k, hik, Nat.lt_succ_of_lt hkj, hk, fun l hl hl' => ?_⟩
      by_cases hlj : l = j
      · rwa [hlj]
      · exact hlast l hl (by omega)

/-- The first JMP with a JMP in its body. -/
theorem exists_nests (hcount : ∀ (k : Nat) (jmp : JmpInstr), instr[k]? = some (.jmp jmp) → 0 < jmp.count)
    (h : ¬ NoNestedJmp instr) : ∃ k j, Nests instr k j ∧ ∀ i < j, ¬ Nested instr i := by
  rw [noNestedJmp_iff, not_forall_not] at h
  obtain ⟨jmp, hj, i, hlt, hle, hi⟩ := Nat.find_spec h
  obtain ⟨k, hik, hkj, hk, hlast⟩ := exists_last_jmp hi hlt
  exact ⟨k, Nat.find h, ⟨hk, hkj, hlast, jmp, hj, Nat.le_trans hle hik, hcount _ jmp hj⟩, fun _ => Nat.find_min h⟩

/-- The loop has not come past the outer JMP, and comes to it with the counter at 0. -/
def Caught (k j : Nat) (s : State) : Prop := s.ip ≤ j ∧ (s.ip ≤ k ∨ s.loop = 0)

theorem caught_start (k j : Nat) : Caught k j State.start := ⟨Nat.zero_le j, Or.inr rfl⟩

section Caught
variable {k j : Nat} {s : State} (hn : Nests instr k j)
include hn

theorem Caught.wait (h : Caught k j s) (hi : ¬ IsJmp instr s.ip) (timeslice : Nat) :
    Caught k j (s.wait timeslice) := by
  obtain ⟨jmp, hj, -, -⟩ := hn.outer
  have hnej : s.ip ≠ j := by
    rintro rfl
    exact hi ⟨jmp, hj⟩
  have hnek : s.ip ≠ k := by
    rintro rfl
    exact hi hn.inner
  refine ⟨Nat.lt_of_le_of_ne h.1 hnej, h.2.imp (fun hle => Nat.lt_of_le_of_ne hle hnek) fun h0 => h0⟩

/-- The outer JMP is always taken, as the inner one has reset the counter. -/
theorem Caught.jump (h : Caught k j s) {jmp : JmpInstr} (hi : instr[s.ip]? = some (.jmp jmp)) :
    Caught k j (s.jump jmp) := by
  have hkj := hn.before
  by_cases hk : s.ip ≤ k
  · unfold State.jump
    split
    · exact ⟨by simp only; omega, Or.inl (by simp only; omega)⟩
    · exact ⟨by simp only; omega, Or.inr rfl⟩
  · have h0 : s.loop = 0 := h.2.resolve_left hk
    have hip : s.ip = j := by
      by_contra hne
      exact hn.last s.ip (by omega) (Nat.lt_of_le_of_ne h.1 hne) ⟨jmp, hi⟩
    obtain ⟨jmp', hj, hbody, hcount⟩ := hn.outer
    rw [hip, hj] at hi
    cases hi
    unfold State.jump
    rw [if_pos (by omega), hip]
    exact ⟨Nat.sub_le j _, Or.inl hbody⟩

theorem Caught.next (h : Caught k j s) : Caught k j (lib.next instr s) := by
  unfold DramLib.next
  split
  · next mem hi => exact h.wait hn (fun ⟨_, hj⟩ => by rw [hi] at hj; cases hj) _
  · next nop hi => exact h.wait hn (fun ⟨_, hj⟩ => by rw [hi] at hj; cases hj) _
  · next jmp hi => exact h.jump hn hi
  · exact h

theorem Caught.iterate (h : Caught k j s) (n : Nat) : Caught k j ((lib.next instr)^[n] s) := by
  induction n generalizing s with
  | zero => exact h
  | succ n ih => exact ih (h.next hn)

/-- The loop never ends in `ok`. -/
theorem Caught.not_ok {fuel : Nat} {rank rank' : R} {s' : State} {v : List (Nat × M)} (h : Caught k j s) :
    mainLoop lib instr fuel s rank ≠ some (v, .ok s' rank') := by
  intro hloop
  induction fuel generalizing s rank v with
  | zero => cases hloop
  | succ fuel ih =>
    rcases mainLoop_cases hloop with ⟨hi, -, -⟩ | ⟨_, -, -, -, hr⟩ | ⟨mem, rank₁, v', hi, -, hrec, -⟩ |
      ⟨nop, hi, hrec⟩ | ⟨jmp, hi, hrec⟩ | ⟨-, -, hr⟩
    · obtain ⟨jmp, hj, -, -⟩ := hn.outer
      have hlt : j < instr.length := (List.getElem?_eq_some_iff.mp hj).1
      have hle : instr.length ≤ s.ip := List.getElem?_eq_none_iff.mp hi
      have := h.1
      omega
    · cases hr
    · exact ih (h.wait hn (fun ⟨_, hj⟩ => by rw [hi] at hj; cases hj) _) hrec
    · exact ih (h.wait hn (fun ⟨_, hj⟩ => by rw [hi] at hj; cases hj) _) hrec
    · exact ih (h.jump hn hi) hrec
    · cases hr

/-- At the outer JMP the counter is 0, and the JMP is taken. -/
theorem Caught.next_outer (h : Caught k j s) (hip : s.ip = j) {jmp : JmpInstr} (hj : instr[j]? = some (.jmp jmp)) :
    lib.next instr s = ⟨j - jmp.offset, s.tick + 1, 1⟩ := by
  have hkj := hn.before
  have h0 : s.loop = 0 := h.2.resolve_left (by omega)
  obtain ⟨jmp', hj', -, hcount⟩ := hn.outer
  rw [hj] at hj'
  cases hj'
  rw [← hip] at hj
  simp only [DramLib.next, hj]
  rw [State.jump, if_pos (by omega), h0, hip]

/-- Below the first JMP with a JMP in its body the loop goes on to it. -/
theorem Caught.exists_arrival (h : Caught k j s) (hfirst : ∀ i < j, ¬ Nested instr i) (hback : Backward instr)
    (hset : Instr.unset ∉ instr) :
    ∃ m, ((lib.next instr)^[m] s).ip = j ∧ ∀ i < m, ((lib.next instr)^[i] s).ip < j := by
  have htake : ∀ {i x}, (instr.take j)[i]? = some x → i < j ∧ instr[i]? = some x := fun hx => by
    rw [List.getElem?_take, Option.ite_none_right_eq_some] at hx
    exact hx
  have hnest : NoNestedJmp (instr.take j) := noNestedJmp_iff.mpr fun i ⟨jmp, hi, l, hl, hle, jmp', hl'⟩ =>
    hfirst i (htake hi).1 ⟨jmp, (htake hi).2, l, hl, hle, jmp', (htake hl').2⟩
  obtain ⟨fuel, v, res, hloop⟩ := exists_mainLoop lib.unroll hnest (fun i jmp hi => hback i jmp (htake hi).2) s ()
  clear hnest
  -- the instructions below `j` alone make a loop that ends
  induction fuel generalizing s v with
  | zero => cases hloop
  | succ fuel ih =>
    have hgo : ∀ s', lib.next instr s = s' → s.ip < j → ∀ v,
        mainLoop lib.unroll (instr.take j) fuel s' () = some (v, res) →
        ∃ m, ((lib.next instr)^[m] s).ip = j ∧ ∀ i < m, ((lib.next instr)^[i] s).ip < j := by
      rintro s' rfl hlt v hrec
      obtain ⟨m, hm, hbefore⟩ := ih (h.next hn) v hrec
      refine ⟨m + 1, hm, fun i hi => ?_⟩
      cases i with
      | zero => exact hlt
      | succ i => exact hbefore i (Nat.lt_of_succ_lt_succ hi)
    rcases mainLoop_cases hloop with ⟨hi, -, -⟩ | ⟨_, -, hfail, -, -⟩ | ⟨mem, _, v', hi, -, hrec, -⟩ |
      ⟨nop, hi, hrec⟩ | ⟨jmp, hi, hrec⟩ | ⟨hi, -, -⟩
    · obtain ⟨jmp, hj, -, -⟩ := hn.outer
      have hlt : j < instr.length := (List.getElem?_eq_some_iff.mp hj).1
      have hle : (instr.take j).length ≤ s.ip := List.getElem?_eq_none_iff.mp hi
      rw [List.length_take] at hle
      have := h.1
      exact ⟨0, by rw [Function.iterate_zero_apply]; omega, fun i hi => absurd hi (Nat.not_lt_zero i)⟩
    · cases hfail
    · exact hgo _ (by simp only [DramLib.next, (htake hi).2, DramLib.unroll]) (htake hi).1 v' hrec
    · exact hgo _ (by simp only [DramLib.next, (htake hi).2]) (htake hi).1 v hrec
    · exact hgo _ (by simp only [DramLib.next, (htake hi).2]) (htake hi).1 v hrec
    · exact absurd (List.mem_of_getElem? (htake hi).2) hset

end Caught

/-- On the way to the outer JMP no JMP with a JMP in its body is visited. -/
theorem visits_arrival {j m : Nat} {s : State} (hfirst : ∀ i < j, ¬ Nested instr i)
    (hm : ((lib.next instr)^[m] s).ip = j) (hbefore : ∀ i < m, ((lib.next instr)^[i] s).ip < j) : visits lib instr (m + 1) s ≤ 1 := by
  induction m generalizing s with
  | zero =>
    rw [visits, visits]
    split <;> omega
  | succ m ih =>
    rw [visits, if_neg (hfirst s.ip (hbefore 0 (Nat.succ_pos m))), Nat.zero_add]
    exact ih hm fun i hi => hbefore (i + 1) (Nat.succ_lt_succ hi)

/-- From the first JMP with a JMP in its body on the loop repeats the same commands, with one more visit to it each
time. -/
theorem exists_rounds (lib : DramLib T M R)
    (hcount : ∀ (k : Nat) (jmp : JmpInstr), instr[k]? = some (.jmp jmp) → 0 < jmp.count)
    (hback : Backward instr) (hset : Instr.unset ∉ instr) (hnest : ¬ NoNestedJmp instr) :
    ∃ a P U V D, (∀ n, unrolled lib instr (a + (P + 1) * n) State.start = U ++ rounds V D n) ∧
      ∀ n, visits lib instr (a + (P + 1) * n) State.start ≤ 1 + n := by
  obtain ⟨k, j, hn, hfirst⟩ := exists_nests hcount hnest
  obtain ⟨jmp, hj, -, -⟩ := hn.outer
  have hround : ∀ s, Caught k j s → ∃ m, Caught k j ((lib.next instr)^[m + 1] s) ∧
      (lib.next instr)^[m + 1] s = ⟨j - jmp.offset, ((lib.next instr)^[m + 1] s).tick, 1⟩ ∧
      visits lib instr (m + 1) s ≤ 1 := by
    intro s h
    obtain ⟨m, hm, hbefore⟩ := h.exists_arrival hn hfirst hback hset
    have hiter : Caught k j ((lib.next instr)^[m] s) := h.iterate hn m
    refine ⟨m, h.iterate hn (m + 1), ?_, visits_arrival hfirst hm hbefore⟩
    rw [Function.iterate_succ_apply', hiter.next_outer hn hm hj]
  -- the way to the outer JMP, and from there back to it
  obtain ⟨a, ha, hstate, hvisits⟩ := hround State.start (caught_start k j)
  obtain ⟨P, -, hreturn, hvisits'⟩ := hround _ ha
  have hle : ((lib.next instr)^[a + 1] State.start).tick ≤
      ((lib.next instr)^[P + 1] ((lib.next instr)^[a + 1] State.start)).tick := tick_le_iterate
  obtain ⟨D, hD⟩ := Nat.exists_eq_add_of_le hle
  have hperiod : (lib.next instr)^[P + 1] ((lib.next instr)^[a + 1] State.start) =
      ((lib.next instr)^[a + 1] State.start).delay D := by
    rw [hreturn, hD, hstate]
    rfl
  refine ⟨a + 1, P, unrolled lib instr (a + 1) State.start,
    unrolled lib instr (P + 1) ((lib.next instr)^[a + 1] State.start), D, fun n => ?_, fun n => ?_⟩
  · rw [unrolled_add, unrolled_of_period hperiod]
  · rw [visits_add, visits_of_period hperiod]
    have := Nat.mul_le_mul_left n hvisits'
    omega

end Loop

/-! ## The verdict -/

section Verdict
variable {T M R : Type} (lib : DramLib T M R) (payload : Payload T M)

/-- The main loop ends, with `OK` or with a violation. -/
def Concludes : Prop :=
  ∃ fuel tr, (∃ s rank, mainLoop lib payload.instr fuel State.start (lib.rank payload.timing) = some (tr, .ok s rank)) ∨
    ∃ s, mainLoop lib payload.instr fuel State.start (lib.rank payload.timing) = some (tr, .failed s)

/-- A command breaks the rules `Ok` before the loop comes to a JMP with a JMP in its body for the seventh time. -/
def BreaksEarly (Ok : List (Nat × M) → Nat × M → Prop) : Prop :=
  ∃ n, visits lib payload.instr n State.start ≤ 6 ∧
    ∃ h c post, unrolled lib payload.instr n State.start = h ++ c :: post ∧ ¬ Ok h c

variable {lib payload}

theorem Verified.count_pos (h : Verified lib payload) (k : Nat) (jmp : JmpInstr)
    (hi : payload.instr[k]? = some (.jmp jmp)) : 0 < jmp.count := by
  have hv := h k _ hi
  simp only [verifyInstr, decide_eq_true_eq] at hv
  exact hv.2.2.2.1

theorem Verified.unset_notMem (h : Verified lib payload) : Instr.unset ∉ payload.instr := by
  intro hi
  obtain ⟨ip, hip⟩ := h.mem hi
  cases hip

theorem concludes_of_noNestedJmp (hver : Verified lib payload) (h : NoNestedJmp payload.instr) :
    Concludes lib payload := by
  obtain ⟨fuel, v, res, hloop⟩ := exists_mainLoop lib h hver.backward State.start (lib.rank payload.timing)
  refine ⟨fuel, v, ?_⟩
  cases res with
  | ok s rank => exact Or.inl ⟨s, rank, hloop⟩
  | failed s => exact Or.inr ⟨s, hloop⟩
  | illegal s => exact absurd hloop (hver.not_illegal _ _ _ _ _)

section Rules
variable {B : Type} [Command M B] {Ok : List (Nat × M) → Nat × M → Prop}

/-- The rank refuses the unrolled payload when a command of it breaks the rules. -/
theorem Judged.refused_unrolled_iff (hj : Judged lib payload.timing Ok) (hver : Verified lib payload)
    (htimed : Timed lib payload.instr) (n : Nat) :
    executeAll lib (lib.rank payload.timing) (unrolled lib payload.instr n State.start) = none ↔
      ∃ h c post, unrolled lib payload.instr n State.start = h ++ c :: post ∧ ¬ Ok h c :=
  hj.refused_iff (unrolled_increasing (s := State.start) htimed) fun x hx => (hver.mem (mem_unrolled x hx)).elim
    fun _ hx => hx

/-- With a nested JMP, what the rank is going to refuse it refuses in one of the first rounds. -/
theorem breaksEarly_of_refused (hver : Verified lib payload) (htimed : Timed lib payload.instr)
    (hj : Judged lib payload.timing Ok) (hnest : ¬ NoNestedJmp payload.instr) {n : Nat}
    (h : executeAll lib (lib.rank payload.timing) (unrolled lib payload.instr n State.start) = none) :
    BreaksEarly lib payload Ok := by
  obtain ⟨a, P, U, V, D, hrounds, hvisits⟩ := exists_rounds lib hver.count_pos hver.backward hver.unset_notMem
    hnest
  refine ⟨a + (P + 1) * 5, hvisits 5, (hj.refused_unrolled_iff hver htimed _).mp ?_⟩
  by_contra hfive
  rw [hrounds, ← ne_eq, ← Option.isSome_iff_ne_none] at hfive
  have hall := hj.rounds (fun n => hrounds n ▸ unrolled_increasing (s := State.start) htimed)
    (fun n x hx => (hver.mem (mem_unrolled x (hrounds n ▸ hx))).elim fun _ hx => hx) hfive n
  obtain ⟨m, hm⟩ : ∃ m, a + (P + 1) * n = n + m := Nat.exists_eq_add_of_le
    (Nat.le_trans (Nat.le_mul_of_pos_left n (Nat.succ_pos P)) (Nat.le_add_left _ a))
  rw [← hrounds, hm, unrolled_add, executeAll_append, h] at hall
  cases hall

/-- The check ends exactly when no JMP has a JMP in its body or a command breaks the rules in the first rounds. -/
theorem concludes_iff (hver : Verified lib payload) (htimed : Timed lib payload.instr)
    (hj : Judged lib payload.timing Ok) :
    Concludes lib payload ↔ NoNestedJmp payload.instr ∨ BreaksEarly lib payload Ok := by
  constructor
  · rintro ⟨fuel, v, ⟨s, rank, hloop⟩ | ⟨s, hloop⟩⟩
    · left
      by_contra hnest
      obtain ⟨k, j, hn, -⟩ := exists_nests hver.count_pos hnest
      exact (caught_start k j).not_ok hn hloop
    · by_cases hnest : NoNestedJmp payload.instr
      · exact Or.inl hnest
      · exact Or.inr (breaksEarly_of_refused hver htimed hj hnest (refused_of_mainLoop hloop))
  · rintro (hnest | ⟨n, -, hbreak⟩)
    · exact concludes_of_noNestedJmp hver hnest
    · obtain ⟨v, s, hloop⟩ := mainLoop_of_refused ((hj.refused_unrolled_iff hver htimed n).mpr hbreak)
      exact ⟨n, v, Or.inr ⟨s, hloop⟩⟩

end Rules

end Verdict

/-- **Termination.** On every DDR3 or DDR4 payload whose instructions pass `VerifyInstr`, whatever the timings, the main
loop ends exactly when no JMP has a JMP in its body or a command breaks the rules of the library before the loop comes
to such a JMP for the seventh time. -/
theorem check_concludes_iff (ddr3 : Payload Ddr3.Timing Ddr3.MemInstr) (ddr4 : Payload Ddr4.Timing Ddr4.MemInstr) :
    (Verified Ddr3.lib ddr3 →
      (Concludes Ddr3.lib ddr3 ↔ NoNestedJmp ddr3.instr ∨ BreaksEarly Ddr3.lib ddr3 (Ddr3.Allowed ddr3.timing))) ∧
    (Verified Ddr4.lib ddr4 →
      (Concludes Ddr4.lib ddr4 ↔ NoNestedJmp ddr4.instr ∨ BreaksEarly Ddr4.lib ddr4 (Ddr4.Allowed ddr4.timing))) :=
  ⟨fun hver => concludes_iff hver (Ddr3.timed_of_verified hver) (Ddr3.judged ddr3.timing),
    fun hver => concludes_iff hver (Ddr4.timed_of_verified hver) (Ddr4.judged ddr4.timing)⟩

/-- A wait in a loop of two rounds. -/
def waitTwice : Payload Ddr3.Timing Ddr3.MemInstr :=
  { timing := Ddr3.sampleTiming, instr := [.nop ⟨.NOP, 1⟩, .jmp ⟨.JMP, 1, 1⟩] }

theorem check_concludes_iff_waitTwice : Verified Ddr3.lib waitTwice ∧ Concludes Ddr3.lib waitTwice := by
  have hver : Verified Ddr3.lib waitTwice := firstIllegal_eq_none.mp (by decide +kernel)
  refine ⟨hver, ((check_concludes_iff waitTwice ⟨Ddr4.sampleTiming, []⟩).1 hver).mpr (Or.inl ?_)⟩
  have hnop : ∀ i ∈ ([.nop ⟨.NOP, 1⟩] : List (Instr Ddr3.MemInstr)), ∀ jmp, i ≠ .jmp jmp := by simp
  exact noNestedJmp_concat hnop _

/-- An activation in the outer loop: its bank is active when it comes for the second time. -/
example : BreaksEarly Ddr3.lib
    { timing := Ddr3.sampleTiming,
      instr := [.nop ⟨.NOP, 1⟩, .jmp ⟨.JMP, 1, 1⟩, .mem ⟨.ACT, 32, 0, 0, 0⟩, .jmp ⟨.JMP, 3, 1⟩] }
    (Ddr3.Allowed Ddr3.sampleTiming) :=
  have hver := firstIllegal_eq_none.mp (by decide +kernel)
  ⟨11, by decide +kernel,
    ((Ddr3.judged _).refused_unrolled_iff hver (Ddr3.timed_of_verified hver) 11).mp (by decide +kernel)⟩

/-- The same loop within a loop of two rounds. -/
def waitNested : Payload Ddr3.Timing Ddr3.MemInstr :=
  { timing := Ddr3.sampleTiming, instr := [.nop ⟨.NOP, 1⟩, .jmp ⟨.JMP, 1, 1⟩, .jmp ⟨.JMP, 2, 1⟩] }

/-- All its instructions are legal, and the check never ends. -/
theorem nested_jmp_never_ends : PositiveTiming Ddr3.lib waitNested ∧ Verified Ddr3.lib waitNested ∧
    ¬ Concludes Ddr3.lib waitNested ∧ ∀ fuel, Checker.main Ddr3.lib waitNested fuel = none := by
  have hpos : PositiveTiming Ddr3.lib waitNested := find_zero_eq_none.mp (by decide +kernel)
  have hver : Verified Ddr3.lib waitNested := firstIllegal_eq_none.mp (by decide +kernel)
  have hn : Nests waitNested.instr 1 2 :=
    ⟨⟨_, rfl⟩, by decide, fun i hi hi' => absurd hi' (by omega), _, rfl, by decide, by decide⟩
  have hnone : ∀ fuel,
      mainLoop Ddr3.lib waitNested.instr fuel State.start (Ddr3.lib.rank waitNested.timing) = none := by
    intro fuel
    rw [Option.eq_none_iff_forall_ne_some]
    rintro ⟨v, res⟩ hloop
    cases res with
    | ok s rank => exact (caught_start 1 2).not_ok hn hloop
    | failed s =>
      obtain ⟨v', mem, rank', rfl, -, -⟩ := mainLoop_failed hloop
      have := mainLoop_mem hloop (s.tick, mem) (by simp)
      simp [waitNested] at this
    | illegal s => exact hver.not_illegal _ _ _ _ _ hloop
  refine ⟨hpos, hver, ?_, fun fuel => ?_⟩
  · rintro ⟨fuel, v, ⟨s, rank, hloop⟩ | ⟨s, hloop⟩⟩ <;> rw [hnone] at hloop <;> cases hloop
  · rw [Checker.main, find_zero_eq_none.mpr hpos, firstIllegal_eq_none.mpr hver, hnone]
    rfl

end RowhammerTester.Checker
