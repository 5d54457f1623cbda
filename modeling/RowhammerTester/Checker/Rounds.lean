import RowhammerTester.Checker.Ddr3
import RowhammerTester.Checker.Ddr4

/-!
# Loops that never end

What a rank makes of a history that ends in the same commands over and over, each round later than the one before by as
many ticks.

* `delayed`, `rounds`, `during` : commands some ticks later, rounds of them, and the history within a round;
* `apart_later`, `active_later`, `window_later` : what a command finds in one round it finds in the next one, as soon
  as a round is over (four commands like it, for the window of activations);
* `Judged` : a library whose verdict on a command does not change from one round to the next; `Judged.refused_iff` : it
  refuses a trace when it does not take a command of it; `Judged.rounds` : it takes all rounds once it has taken the
  first five;
* `Ddr3.judged`, `Ddr4.judged` : both libraries are such.
-/

namespace RowhammerTester.Checker

section Rounds
variable {M : Type}

/-- The same commands `d` ticks later. -/
def delayed (d : Nat) (tr : List (Nat × M)) : List (Nat × M) := tr.map fun x => (x.1 + d, x.2)

/-- Where a member of an appended list is. -/
theorem append_eq_append_cons {α : Type*} {a b h post : List α} {c : α} (heq : a ++ b = h ++ c :: post) :
    (∃ rest, a = h ++ c :: rest ∧ post = rest ++ b) ∨ ∃ h', h = a ++ h' ∧ b = h' ++ c :: post := by
  obtain ⟨h', rfl, hb⟩ | ⟨rest, rfl, hrest⟩ := List.append_eq_append_iff.mp heq
  · exact Or.inr ⟨h', rfl, hb⟩
  · cases rest with
    | nil => exact Or.inr ⟨[], by simp, hrest.symm⟩
    | cons y rest =>
      obtain ⟨rfl, rfl⟩ := List.cons.inj hrest
      exact Or.inl ⟨rest, rfl, rfl⟩

variable (V : List (Nat × M)) (d : Nat)

/-- Rounds of the commands `V`, each `d` ticks later than the one before. -/
def rounds : Nat → List (Nat × M)
  | 0 => []
  | n + 1 => V ++ delayed d (rounds n)

/-- Rounds of `V`, and the commands `w` of the next one. -/
def during (w : List (Nat × M)) : Nat → List (Nat × M)
  | 0 => w
  | n + 1 => V ++ delayed d (during w n)

variable {V d} {w : List (Nat × M)} {n : Nat}

theorem delayed_append (tr tr' : List (Nat × M)) : delayed d (tr ++ tr') = delayed d tr ++ delayed d tr' :=
  List.map_append

/-- Within round `i` of `n` rounds. -/
theorem exists_rounds_eq {x : Nat × M} {w' : List (Nat × M)} (hV : V = w ++ x :: w') {i : Nat} (hi : i < n) :
    ∃ post, rounds V d n = during V d w i ++ (x.1 + i * d, x.2) :: post := by
  induction n generalizing i with
  | zero => exact absurd hi (Nat.not_lt_zero i)
  | succ n ih =>
    cases i with
    | zero =>
      refine ⟨w' ++ delayed d (rounds V d n), ?_⟩
      rw [rounds, Nat.zero_mul, Nat.add_zero, during]
      nth_rewrite 1 [hV]
      rw [List.append_assoc, List.cons_append]
    | succ i =>
      obtain ⟨post, hpost⟩ := ih (Nat.lt_of_succ_lt_succ hi)
      refine ⟨delayed d post, ?_⟩
      rw [rounds, hpost, during, delayed_append, List.append_assoc, Nat.succ_mul, ← Nat.add_assoc]
      rfl

/-- Every command of the rounds is within one of them. -/
theorem exists_during {h post : List (Nat × M)} {c : Nat × M} (heq : rounds V d n = h ++ c :: post) :
    ∃ i < n, ∃ w x w', V = w ++ x :: w' ∧ h = during V d w i ∧ c = (x.1 + i * d, x.2) := by
  induction n generalizing h c post with
  | zero => cases h <;> cases heq
  | succ n ih =>
    obtain ⟨w', hV, -⟩ | ⟨h', rfl, hrest⟩ := append_eq_append_cons heq
    · exact ⟨0, Nat.succ_pos n, h, c, w', hV, rfl, by rw [Nat.zero_mul, Nat.add_zero]⟩
    · obtain ⟨h₁, rest, hrounds, rfl, hmap⟩ := List.map_eq_append_iff.mp hrest
      obtain ⟨c₁, post₁, rfl, rfl, -⟩ := List.map_eq_cons_iff.mp hmap
      obtain ⟨i, hi, w, x, w', hV, rfl, rfl⟩ := ih hrounds
      refine ⟨i + 1, Nat.succ_lt_succ hi, w, x, w', hV, rfl, ?_⟩
      rw [Nat.succ_mul, Nat.add_assoc]

end Rounds

/-! ## One round and the next -/

section Later
variable {M : Type} {V R R' : List (Nat × M)} {U : List (Nat × M)} {D : Nat}

/-- A delay that is over in one round is over in the next. -/
theorem apart_later {P : M → Prop} {delay T : Nat} (hV : V <+: R) (h : Apart P delay (U ++ R) T) (D : Nat) :
    Apart P delay (U ++ (V ++ delayed D R)) (T + D) := by
  intro x hx hP
  obtain hx | hx := List.mem_append.mp hx
  · exact Nat.le_add_right_of_le (h x (List.mem_append_left R hx) hP)
  · obtain hx | hx := List.mem_append.mp hx
    · exact Nat.le_add_right_of_le (h x (List.mem_append_right U (hV.subset hx)) hP)
    · obtain ⟨y, hy, rfl⟩ := List.mem_map.mp hx
      have := h y (List.mem_append_right U hy) hP
      dsimp only
      omega

theorem active_append {opens closes : M → Prop} : Active opens closes (U ++ R) ↔
    Active opens closes R ∨ Active opens closes U ∧ ∀ y ∈ R, ¬ closes y.2 := by
  induction R using List.reverseRecOn with
  | nil => simp [not_active_nil]
  | append_singleton R x ih =>
    rw [← List.append_assoc, active_concat, ih, active_concat]
    simp only [List.mem_append, List.mem_singleton, or_imp, forall_and, forall_eq]
    tauto

theorem active_map_later {opens closes : M → Prop} : Active opens closes (delayed D R) ↔ Active opens closes R := by
  induction R using List.reverseRecOn with
  | nil => rfl
  | append_singleton R x ih =>
    rw [delayed_append, active_concat, ← ih]
    exact active_concat

/-- The state of a bank is the same in the next round. -/
theorem active_later {opens closes : M → Prop} (hV : V <+: R) (D : Nat) :
    Active opens closes (U ++ (V ++ delayed D R)) ↔ Active opens closes (U ++ R) := by
  obtain ⟨R', rfl⟩ := hV
  simp only [active_append, active_map_later]
  have hlater : (∀ y ∈ delayed D (V ++ R'), ¬ closes y.2) ↔ ∀ y ∈ V ++ R', ¬ closes y.2 := by
    unfold delayed
    rw [List.forall_mem_map]
  simp only [hlater, List.forall_mem_append]
  tauto

end Later

section Acts
variable {M B : Type} [Command M B] {V R U : List (Nat × M)} {D : Nat} {op : Opcode}

/-- How many commands have the op code `op`. -/
def countOp (op : Opcode) (h : List (Nat × M)) : Nat := h.countP fun x => Command.opcode x.2 = op

theorem acts_append (h h' : List (Nat × M)) : acts (h ++ h') = acts h ++ acts h' := by
  unfold acts
  rw [List.filter_append, List.map_append]

theorem acts_later (D : Nat) (h : List (Nat × M)) : acts (delayed D h) = (acts h).map (· + D) := by
  unfold acts delayed
  rw [List.filter_map, List.map_map, List.map_map]
  rfl

theorem length_acts (h : List (Nat × M)) : (acts h).length = countOp .ACT h := by
  unfold acts countOp
  rw [List.length_map, List.countP_eq_length_filter]

theorem countOp_later (D : Nat) (h : List (Nat × M)) : countOp op (delayed D h) = countOp op h := List.countP_map

/-- Every round has the command once more. -/
theorem le_countOp_during {w : List (Nat × M)} (hV : 0 < countOp op V) (n : Nat) : n ≤ countOp op (during V D w n) := by
  induction n with
  | zero => exact Nat.zero_le _
  | succ n ih =>
    have happend : countOp op (during V D w (n + 1)) = countOp op V + countOp op (delayed D (during V D w n)) :=
      List.countP_append
    rw [happend, countOp_later]
    omega

/-- After four activations the window has those of the round before, as much later. -/
theorem window_later {faw T : Nat} (hR : 4 ≤ countOp .ACT R)
    (h : ∀ pre a mid, acts (U ++ R) = pre ++ a :: mid → mid.length = 3 → a + faw ≤ T) (D : Nat) :
    ∀ pre a mid, acts (U ++ (V ++ delayed D R)) = pre ++ a :: mid → mid.length = 3 → a + faw ≤ T + D := by
  have hfour : (lastFour (acts R)).length = 4 := by
    rw [lastFour, List.length_drop, length_acts]
    omega
  obtain ⟨pre₁, a₁, mid₁, heq₁, hmid₁, -⟩ := lastFour_eq_cons hfour
  have hfirst : a₁ + faw ≤ T := by
    refine h (acts U ++ pre₁) a₁ mid₁ ?_ hmid₁
    rw [acts_append, heq₁, List.append_assoc]
  intro pre a mid heq hmid
  rw [acts_append, acts_append, acts_later, heq₁, List.map_append, List.map_cons, ← List.append_assoc,
    ← List.append_assoc] at heq
  obtain ⟨-, hlast⟩ := List.append_inj' heq (by simp [hmid, hmid₁])
  obtain ⟨rfl, -⟩ := List.cons.inj hlast
  omega

end Acts

/-! ## All rounds -/

section Judged
variable {T M R B : Type} [Command M B]

/-- `Ok h c` : the rank takes the command `c` after the history `h`. Its verdict is the same in the next round, when the
history has four commands of the kind. -/
structure Judged (lib : DramLib T M R) (t : T) (Ok : List (Nat × M) → Nat × M → Prop) : Prop where
  executed_iff : ∀ tr, Increasing 0 tr → (∀ x ∈ tr, lib.verifyMem x.2 = true) →
    ((executeAll lib (lib.rank t) tr).isSome = true ↔ ∀ h c post, tr = h ++ c :: post → Ok h c)
  steady : ∀ {U V H : List (Nat × M)} {c : Nat × M} (D : Nat), V <+: H → 4 ≤ countOp (Command.opcode c.2) H →
    Ok (U ++ H) c → Ok (U ++ (V ++ delayed D H)) (c.1 + D, c.2)

variable {lib : DramLib T M R} {t : T} {Ok : List (Nat × M) → Nat × M → Prop} {U V : List (Nat × M)} {D : Nat}

/-- A trace is executed exactly when each of its commands is taken after those before it. -/
theorem executeAll_isSome_iff (Inv : List (Nat × M) → R → Prop) {rank₀ : R} (h0 : Inv [] rank₀)
    (hstep : ∀ h c rank, Inv h rank → (∀ x ∈ h, x.1 ≤ c.1) → lib.verifyMem c.2 = true →
      ((lib.execute rank c.1 c.2).isSome = true ↔ Ok h c) ∧
      ∀ rank', lib.execute rank c.1 c.2 = some rank' → Inv (h ++ [c]) rank')
    (tr : List (Nat × M)) (hinc : Increasing 0 tr) (hmem : ∀ x ∈ tr, lib.verifyMem x.2 = true) :
    (executeAll lib rank₀ tr).isSome = true ↔ ∀ h c post, tr = h ++ c :: post → Ok h c := by
  have hrun : ∀ tr rank, Increasing 0 tr → (∀ x ∈ tr, lib.verifyMem x.2 = true) →
      executeAll lib rank₀ tr = some rank → Inv tr rank ∧ ∀ h c post, tr = h ++ c :: post → Ok h c := by
    intro tr rank hinc hmem hall
    refine executeAll_induction (fun m => lib.verifyMem m = true) h0
      (fun h c rank rank' hinv hticks hgood hexec => ?_) tr hinc hmem rank hall
    obtain ⟨hok, hinv'⟩ := hstep h c rank hinv hticks hgood
    exact ⟨hinv' rank' hexec, hok.mp (by rw [hexec]; rfl)⟩
  constructor
  · intro hsome
    obtain ⟨rank, hall⟩ := Option.isSome_iff_exists.mp hsome
    exact (hrun tr rank hinc hmem hall).2
  · induction tr using List.reverseRecOn with
    | nil => exact fun _ => rfl
    | append_singleton tr c ih =>
      intro hok
      have hgood : ∀ x ∈ tr, lib.verifyMem x.2 = true := fun x hx => hmem x (List.mem_append_left [c] hx)
      obtain ⟨rank, hall⟩ := Option.isSome_iff_exists.mp (ih hinc.left hgood fun h x post heq =>
        hok h x (post ++ [c]) (by rw [heq, List.append_assoc, List.cons_append]))
      have hinv : Inv tr rank := (hrun tr rank hinc.left hgood hall).1
      have hticks : ∀ x ∈ tr, x.1 ≤ c.1 := fun x hx => Nat.le_of_lt (hinc.lt_of_append x hx c List.mem_cons_self)
      rw [isSome_executeAll_concat hall]
      exact (hstep tr c rank hinv hticks (hmem c (by simp))).1.mpr (hok tr c [] rfl)

/-- The rank refuses a trace exactly when it does not take one of the commands. -/
theorem Judged.refused_iff (hj : Judged lib t Ok) {tr : List (Nat × M)} (hinc : Increasing 0 tr)
    (hmem : ∀ x ∈ tr, lib.verifyMem x.2 = true) :
    executeAll lib (lib.rank t) tr = none ↔ ∃ h c post, tr = h ++ c :: post ∧ ¬ Ok h c := by
  rw [← Option.not_isSome_iff_eq_none, hj.executed_iff tr hinc hmem]
  push Not
  rfl

/-- A command that is taken in the first five rounds is taken in every round. -/
theorem Judged.during (hj : Judged lib t Ok) {w w' : List (Nat × M)} {x : Nat × M} (hV : V = w ++ x :: w')
    (hfirst : ∀ i < 5, Ok (U ++ during V D w i) (x.1 + i * D, x.2)) (n : Nat) :
    Ok (U ++ during V D w n) (x.1 + n * D, x.2) := by
  induction n with
  | zero => exact hfirst 0 (by decide)
  | succ n ih =>
    by_cases hn : n < 4
    · exact hfirst (n + 1) (by omega)
    · obtain ⟨n, rfl⟩ := Nat.exists_eq_add_of_le' (show 1 ≤ n by omega)
      have hpos : 0 < countOp (Command.opcode x.2) V := by
        rw [hV, countOp, List.countP_pos_iff]
        exact ⟨x, by simp, by simp⟩
      have hcount : n + 1 ≤ countOp (Command.opcode x.2) (Checker.during V D w (n + 1)) :=
        le_countOp_during hpos (n + 1)
      have hnext := hj.steady (c := (x.1 + (n + 1) * D, x.2)) D (List.prefix_append V _)
        (Nat.le_trans (by omega) hcount) ih
      rw [Nat.succ_mul, ← Nat.add_assoc]
      exact hnext

/-- **All rounds.** The rank takes all rounds once it has taken the first five. -/
theorem Judged.rounds (hj : Judged lib t Ok) (hinc : ∀ n, Increasing 0 (U ++ rounds V D n))
    (hmem : ∀ n, ∀ x ∈ U ++ rounds V D n, lib.verifyMem x.2 = true)
    (h : (executeAll lib (lib.rank t) (U ++ rounds V D 5)).isSome = true) (n : Nat) :
    (executeAll lib (lib.rank t) (U ++ rounds V D n)).isSome = true := by
  rw [hj.executed_iff _ (hinc 5) (hmem 5)] at h
  rw [hj.executed_iff _ (hinc n) (hmem n)]
  intro pre c post heq
  obtain ⟨rest, hU, -⟩ | ⟨w, rfl, hrest⟩ := append_eq_append_cons heq
  · refine h pre c (rest ++ Checker.rounds V D 5) ?_
    rw [hU, List.append_assoc, List.cons_append]
  · obtain ⟨i, -, w, x, w', hV, rfl, rfl⟩ := exists_during hrest
    refine hj.during hV (fun i hi => ?_) i
    obtain ⟨post', hpost⟩ := exists_rounds_eq (d := D) hV hi
    refine h _ _ post' ?_
    rw [hpost, List.append_assoc]

end Judged

/-! ## The libraries -/

/-- The rules of DDR3 for the command `c` after the history `h`, with all rows closed at a REF. -/
def Ddr3.Allowed (t : Ddr3.Timing) (h : List (Nat × Ddr3.MemInstr)) (c : Nat × Ddr3.MemInstr) : Prop :=
  Ddr3.Legal t h c ∧ (c.2.opcode = .REF → ¬ RowOpen h)

theorem Ddr3.judged (t : Ddr3.Timing) : Judged Ddr3.lib t (Ddr3.Allowed t) where
  executed_iff := executeAll_isSome_iff (Ddr3.Inv t) (Ddr3.inv_init t) fun h c rank hinv hticks hgood =>
    ⟨Ddr3.execute_isSome_iff hinv hticks (Ddr3.memOp_of_verifyMem hgood), fun rank' hexec =>
      Ddr3.inv_execute hinv hticks (Ddr3.memOp_of_verifyMem hgood) hexec⟩
  steady {U V H c} D hV hcount h := by
    obtain ⟨hl, hrow⟩ := h
    refine ⟨⟨fun hop => apart_later hV (hl.actRd hop) D, fun hop => apart_later hV (hl.actPre hop) D,
      fun hop => apart_later hV (hl.rdPre hop) D, fun hop => apart_later hV (hl.preAct hop) D,
      fun hop => apart_later hV (hl.rdRd hop) D, fun hop => apart_later hV (hl.actAct hop) D,
      fun hop => apart_later hV (hl.preRef hop) D, fun hop => apart_later hV (hl.refAny hop) D,
      fun hop => window_later ?_ (hl.faw hop) D, fun hop => (active_later hV D).mpr (hl.rdActive hop),
      fun hop hactive => hl.actPrecharged hop ((active_later hV D).mp hactive)⟩,
      fun hop hopen => hrow hop ((active_later hV D).mp hopen)⟩
    rwa [show Command.opcode c.2 = Opcode.ACT from hop] at hcount

/-- The last command of the kind is that of the round before. -/
theorem Ddr4.entry_later {op : Opcode} {U V H : List (Nat × Ddr4.MemInstr)} {l s group T : Nat} (hH : 4 ≤ countOp op H)
    (h : Ddr4.entry l s group (Ddr4.lastOf op (U ++ H)) ≤ T) (D : Nat) :
    Ddr4.entry l s group (Ddr4.lastOf op (U ++ (V ++ delayed D H))) ≤ T + D := by
  have hne : H.filter (fun x => x.2.opcode = op) ≠ [] := by
    intro hnil
    rw [countOp, List.countP_eq_length_filter] at hH
    have hlen := congrArg List.length hnil
    exact absurd (hH.trans_eq hlen) (by decide)
  obtain ⟨x, hx⟩ := Option.isSome_iff_exists.mp (List.getLast?_isSome.mpr hne)
  have hlast : Ddr4.lastOf op (U ++ H) = some x := by
    unfold Ddr4.lastOf
    rw [List.filter_append, List.getLast?_append, hx]
    rfl
  have hnext : Ddr4.lastOf op (U ++ (V ++ delayed D H)) = some (x.1 + D, x.2) := by
    have hmap : (delayed D H).filter (fun x => x.2.opcode = op) =
        (H.filter fun x => x.2.opcode = op).map fun x => (x.1 + D, x.2) := List.filter_map
    unfold Ddr4.lastOf
    rw [List.filter_append, List.filter_append, hmap, ← List.append_assoc, List.getLast?_append, List.getLast?_map, hx]
    rfl
  rw [hlast] at h
  rw [hnext]
  unfold Ddr4.entry at h ⊢
  dsimp only at h ⊢
  omega

theorem Ddr4.judged (t : Ddr4.Timing) : Judged Ddr4.lib t (Ddr4.Allowed t) where
  executed_iff := executeAll_isSome_iff (Ddr4.Inv t) (Ddr4.inv_init t) fun h c rank hinv hticks hgood =>
    ⟨Ddr4.execute_isSome_iff hinv hticks (Ddr4.memOp_of_verifyMem hgood), fun rank' hexec =>
      Ddr4.inv_execute hinv hticks (Ddr4.memOp_of_verifyMem hgood) hexec⟩
  steady {U V H c} D hV hcount h := by
    have hof : ∀ {op}, c.2.opcode = op → 4 ≤ countOp op H := by
      rintro op rfl
      exact hcount
    exact ⟨fun hop => Ddr4.entry_later (hof hop) (h.rdGroup hop) D,
      fun hop => Ddr4.entry_later (hof hop) (h.actGroup hop) D,
      fun hop => ⟨(active_later hV D).mpr (h.actRd hop).1, apart_later hV (h.actRd hop).2 D⟩,
      fun hop => ⟨fun hactive => (h.preAct hop).1 ((active_later hV D).mp hactive), apart_later hV (h.preAct hop).2 D⟩,
      fun hop => ⟨apart_later hV (h.preBank hop).1 D, apart_later hV (h.preBank hop).2 D⟩,
      fun hop => apart_later hV (h.refAny hop) D,
      fun hop => ⟨fun hopen => (h.ref hop).1 ((active_later hV D).mp hopen), apart_later hV (h.ref hop).2.1 D,
        apart_later hV (h.ref hop).2.2 D⟩,
      fun hop => window_later (hof hop) (h.faw hop) D⟩

end RowhammerTester.Checker
