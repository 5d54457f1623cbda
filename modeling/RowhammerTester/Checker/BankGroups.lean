import RowhammerTester.Checker.Ddr4

/-!
# Spacing of the DDR4 bank groups

A bank group keeps the next tick that the last command left, so a command to another group may lower it.

* `Spaced op l s` : all pairs of a trace; `Undercut op l` : a group is used again after another group, too early;
* `spaced_iff` : on traces that keep the groups' ticks, undercutting is the only way to break the spacing;
* `program`, `accepts_program` : payloads without JMP, given by their commands and the waits after them;
* `bank_group_spacing_iff` : the accepted payloads are spaced exactly when they never undercut, and all of them are when
  the long delays are at most twice the short ones.
-/

namespace RowhammerTester.Checker.Ddr4

/-- Two commands `op` are `l` ticks apart in one group, and `s` in two. -/
def Spaced (op : Opcode) (l s : Nat) (tr : List (Nat × MemInstr)) : Prop :=
  ∀ pre x mid y post, tr = pre ++ x :: (mid ++ y :: post) → x.2.opcode = op → y.2.opcode = op →
    x.1 + (if x.2.bankGroup = y.2.bankGroup then l else s) ≤ y.1

/-- A group gets its next command `op` less than `l` ticks after the last, with a command to another group between. -/
def Undercut (op : Opcode) (l : Nat) (tr : List (Nat × MemInstr)) : Prop :=
  ∃ pre x mid y post, tr = pre ++ x :: (mid ++ y :: post) ∧ x.2.opcode = op ∧ y.2.opcode = op ∧
    x.2.bankGroup = y.2.bankGroup ∧ (∃ z ∈ mid, z.2.opcode = op) ∧
    (∀ z ∈ mid, z.2.opcode = op → z.2.bankGroup ≠ x.2.bankGroup) ∧ y.1 < x.1 + l

/-! ## Traces that keep the groups' ticks -/

section Trace
variable {op : Opcode} {l s : Nat} {tr : List (Nat × MemInstr)}

/-- The last command `op` of a history. -/
theorem exists_lastOf (h : List (Nat × MemInstr)) {x : Nat × MemInstr} (mid : List (Nat × MemInstr))
    (hx : x.2.opcode = op) :
    (lastOf op (h ++ x :: mid) = some x ∧ ∀ z ∈ mid, z.2.opcode ≠ op) ∨
      ∃ w ∈ mid, lastOf op (h ++ x :: mid) = some w ∧ w.2.opcode = op := by
  induction mid using List.reverseRecOn with
  | nil =>
    refine Or.inl ⟨?_, by simp⟩
    rw [lastOf_concat, if_pos hx]
  | append_singleton mid y ih =>
    rw [← List.cons_append, ← List.append_assoc, lastOf_concat]
    by_cases hy : y.2.opcode = op
    · rw [if_pos hy]
      exact Or.inr ⟨y, by simp, rfl, hy⟩
    · rw [if_neg hy]
      rcases ih with ⟨hlast, hmid⟩ | ⟨w, hw, hlast, hwop⟩
      · refine Or.inl ⟨hlast, fun z hz => ?_⟩
        rcases List.mem_append.mp hz with hz | hz
        · exact hmid z hz
        · rw [List.mem_singleton.mp hz]
          exact hy
      · exact Or.inr ⟨w, by simp [hw], hlast, hwop⟩

/-- The last command `op` to the group of `x` in a history that begins with `x`. -/
theorem exists_last_of_group {x : Nat × MemInstr} (mid : List (Nat × MemInstr)) (hx : x.2.opcode = op) :
    ∃ pre w mid', x :: mid = pre ++ w :: mid' ∧ w.2.opcode = op ∧ w.2.bankGroup = x.2.bankGroup ∧
      ∀ z ∈ mid', z.2.opcode = op → z.2.bankGroup ≠ x.2.bankGroup := by
  induction mid using List.reverseRecOn with
  | nil => exact ⟨[], x, [], rfl, hx, rfl, by simp⟩
  | append_singleton mid y ih =>
    by_cases hy : y.2.opcode = op ∧ y.2.bankGroup = x.2.bankGroup
    · exact ⟨x :: mid, y, [], rfl, hy.1, hy.2, by simp⟩
    · obtain ⟨pre, w, mid', heq, hw, hgroup, hmid⟩ := ih
      refine ⟨pre, w, mid' ++ [y], by rw [← List.cons_append, heq]; simp, hw, hgroup, fun z hz hzop hzgroup => ?_⟩
      rcases List.mem_append.mp hz with hz | hz
      · exact hmid z hz hzop hzgroup
      · rw [List.mem_singleton.mp hz] at hzop hzgroup
        exact hy ⟨hzop, hzgroup⟩

variable (hinc : Increasing 0 tr) (hls : s ≤ l)
  (hentry : ∀ h c post, tr = h ++ c :: post → c.2.opcode = op → entry l s c.2.bankGroup (lastOf op h) ≤ c.1)
include hinc hls hentry

/-- Any two commands are the short delay apart. -/
theorem short_apart {pre mid post : List (Nat × MemInstr)} {x y : Nat × MemInstr}
    (heq : tr = pre ++ x :: (mid ++ y :: post)) (hx : x.2.opcode = op) (hy : y.2.opcode = op) : x.1 + s ≤ y.1 := by
  have hsplit : tr = (pre ++ x :: mid) ++ y :: post := by rw [heq]; simp
  have hle := hentry _ y post hsplit hy
  rcases exists_lastOf pre mid hx with ⟨hlast, -⟩ | ⟨w, hw, hlast, -⟩
  · rw [hlast, entry] at hle
    split at hle <;> omega
  · have hsplit' : tr = (pre ++ [x]) ++ (mid ++ y :: post) := by rw [heq]; simp
    have hlt : x.1 < w.1 := (hsplit' ▸ hinc).lt_of_append x (by simp) w (by simp [hw])
    rw [hlast, entry] at hle
    split at hle <;> omega

/-- **Spacing of a trace.** It is broken exactly where a group's tick was lowered by another group. -/
theorem spaced_iff : Spaced op l s tr ↔ ¬ Undercut op l tr := by
  constructor
  · rintro hspaced ⟨pre, x, mid, y, post, heq, hx, hy, hgroup, -, -, hlt⟩
    have hle := hspaced pre x mid y post heq hx hy
    rw [if_pos hgroup] at hle
    omega
  · intro hnot pre x mid y post heq hx hy
    by_cases hgroup : x.2.bankGroup = y.2.bankGroup
    · rw [if_pos hgroup]
      -- the last command before `y` to its group is `w`
      obtain ⟨pre', w, mid', hsplit, hw, hwgroup, hmid⟩ := exists_last_of_group mid hx
      have heq' : tr = (pre ++ pre') ++ w :: (mid' ++ y :: post) := by
        rw [heq, ← List.cons_append, hsplit]
        simp
      have hxw : x.1 ≤ w.1 := by
        cases pre' with
        | nil =>
          rw [List.nil_append, List.cons.injEq] at hsplit
          rw [hsplit.1]
        | cons z pre'' =>
          rw [List.cons_append, List.cons.injEq] at hsplit
          exact Nat.le_of_lt ((heq' ▸ hinc).lt_of_append x (by simp [hsplit.1]) w (by simp))
      by_cases hother : ∃ z ∈ mid', z.2.opcode = op
      · by_contra hlt
        refine hnot ⟨pre ++ pre', w, mid', y, post, heq', hw, hy, hwgroup.trans hgroup, hother, ?_, by omega⟩
        intro z hz hzop
        rw [hwgroup]
        exact hmid z hz hzop
      · have hle := hentry (pre ++ pre' ++ w :: mid') y post (by rw [heq']; simp) hy
        rcases exists_lastOf (pre ++ pre') mid' hw with ⟨hlast, -⟩ | ⟨z, hz, -, hzop⟩
        · rw [hlast, entry, if_pos (hwgroup.trans hgroup)] at hle
          omega
        · exact absurd ⟨z, hz, hzop⟩ hother
    · rw [if_neg hgroup]
      exact short_apart hinc hls hentry heq hx hy

/-- Two short delays make up for a long one. -/
theorem not_undercut (hl : l ≤ 2 * s) : ¬ Undercut op l tr := by
  rintro ⟨pre, x, mid, y, post, heq, hx, hy, -, ⟨z, hz, hzop⟩, -, hlt⟩
  obtain ⟨mid₁, mid₂, rfl⟩ := List.append_of_mem hz
  have hxz : tr = pre ++ x :: (mid₁ ++ z :: (mid₂ ++ y :: post)) := by rw [heq]; simp
  have hzy : tr = (pre ++ x :: mid₁) ++ z :: (mid₂ ++ y :: post) := by rw [hxz]; simp
  have h1 := short_apart hinc hls hentry hxz hx hzop
  have h2 := short_apart hinc hls hentry hzy hzop hy
  omega

end Trace

/-! ## Payloads without JMP -/

section Program
variable {T M R : Type} {lib : DramLib T M R}

/-- Every command is followed by so many NOPs of one tick. -/
def program (cmds : List (M × Nat)) : List (Instr M) :=
  cmds.flatMap fun c => .mem c.1 :: List.replicate c.2 (.nop ⟨.NOP, 1⟩)

/-- The trace of `program cmds` from `tick` on. -/
def programTrace (lib : DramLib T M R) : Nat → List (M × Nat) → List (Nat × M)
  | _, [] => []
  | tick, c :: cmds => (tick, c.1) :: programTrace lib (tick + lib.timeslice c.1 + c.2) cmds

/-- NOPs of one tick each. -/
theorem mainLoop_nops (n : Nat) (pre rest : List (Instr M)) (tick fuel : Nat) {rank : R}
    {run : List (Nat × M) × Result R}
    (h : mainLoop lib (pre ++ (List.replicate n (.nop ⟨.NOP, 1⟩) ++ rest)) fuel ⟨pre.length + n, tick + n, 0⟩ rank =
      some run) :
    mainLoop lib (pre ++ (List.replicate n (.nop ⟨.NOP, 1⟩) ++ rest)) (fuel + n) ⟨pre.length, tick, 0⟩ rank =
      some run := by
  induction n generalizing pre tick with
  | zero => exact h
  | succ n ih =>
    have hnext := ih (pre ++ [.nop ⟨.NOP, 1⟩]) (tick + 1) (by
      simpa [List.replicate_succ, Nat.add_assoc, Nat.add_comm 1 n] using h)
    rw [← Nat.add_assoc, mainLoop]
    simpa [List.replicate_succ, State.wait] using hnext

/-- A program whose commands are all executed. -/
theorem mainLoop_program (cmds : List (M × Nat)) (pre : List (Instr M)) (tick : Nat) (rank rank' : R)
    (hall : executeAll lib rank (programTrace lib tick cmds) = some rank') :
    ∃ fuel s, mainLoop lib (pre ++ program cmds) fuel ⟨pre.length, tick, 0⟩ rank =
      some (programTrace lib tick cmds, .ok s rank') := by
  induction cmds generalizing pre tick rank with
  | nil =>
    cases hall
    refine ⟨1, ⟨pre.length, tick, 0⟩, ?_⟩
    simp [mainLoop, program, programTrace]
  | cons c cmds ih =>
    rw [programTrace, executeAll, Option.bind_eq_some_iff] at hall
    obtain ⟨rank₁, hexec, hall⟩ := hall
    obtain ⟨fuel, s, hrest⟩ := ih (pre ++ .mem c.1 :: List.replicate c.2 (.nop ⟨.NOP, 1⟩)) _ rank₁ hall
    have hprog : pre ++ program (c :: cmds) =
        (pre ++ [.mem c.1]) ++ (List.replicate c.2 (.nop ⟨.NOP, 1⟩) ++ program cmds) := by simp [program]
    have hget : (pre ++ program (c :: cmds))[pre.length]? = some (.mem c.1) := by simp [program]
    refine ⟨fuel + c.2 + 1, s, ?_⟩
    simp only [mainLoop, hget, hexec, State.wait, programTrace]
    refine Option.map_eq_some_iff.mpr ⟨(programTrace lib (tick + lib.timeslice c.1 + c.2) cmds, .ok s rank'), ?_, rfl⟩
    rw [hprog, show pre.length + 1 = (pre ++ [Instr.mem c.1]).length by simp]
    apply mainLoop_nops
    simpa [Nat.add_assoc, Nat.add_comm 1 c.2] using hrest

theorem verified_program {payload : Payload T M} {cmds : List (M × Nat)} (hinstr : payload.instr = program cmds)
    (hmem : ∀ c ∈ cmds, lib.verifyMem c.1 = true) : Verified lib payload := by
  intro ip i hi
  have hi' := List.mem_of_getElem? hi
  rw [hinstr, program, List.mem_flatMap] at hi'
  obtain ⟨c, hc, hi'⟩ := hi'
  rcases List.mem_cons.mp hi' with rfl | hi'
  · exact hmem c hc
  · rw [List.eq_of_mem_replicate hi']
    rfl

/-- A program whose commands are all executed is accepted. -/
theorem accepts_program {payload : Payload T M} {cmds : List (M × Nat)} (hinstr : payload.instr = program cmds)
    (hpos : PositiveTiming lib payload) (hmem : ∀ c ∈ cmds, lib.verifyMem c.1 = true) {rank : R}
    (hall : executeAll lib (lib.rank payload.timing) (programTrace lib 0 cmds) = some rank) :
    ∃ s, Accepts lib payload (programTrace lib 0 cmds) s := by
  obtain ⟨fuel, s, hloop⟩ := mainLoop_program cmds [] 0 _ rank hall
  refine ⟨s, accepts_iff.mpr ⟨hpos, verified_program hinstr hmem, fuel, rank, ?_⟩⟩
  rw [hinstr]
  exact hloop

end Program

/-! ## Payloads that undercut -/

/-- The rank has executed the history. -/
def Executed (t : Timing) (h : List (Nat × MemInstr)) : Prop :=
  ∃ rank, executeAll lib (Rank.init t) h = some rank ∧ Inv t h rank

section Clash
variable {t : Timing} {h : List (Nat × MemInstr)} {c : Nat × MemInstr}

theorem executed_nil (t : Timing) : Executed t [] := ⟨Rank.init t, rfl, inv_init t⟩

/-- An allowed command goes on. -/
theorem Executed.concat (hx : Executed t h) (hticks : ∀ x ∈ h, x.1 ≤ c.1) (hop : MemOp c.2)
    (ha : Allowed t h c) : Executed t (h ++ [c]) := by
  obtain ⟨rank, hall, hinv⟩ := hx
  obtain ⟨rank', hexec⟩ := Option.isSome_iff_exists.mp ((execute_isSome_iff hinv hticks hop).mpr ha)
  refine ⟨rank', ?_, inv_execute hinv hticks hop hexec⟩
  rw [executeAll_append, hall, Option.bind_some, executeAll, show lib.execute rank c.1 c.2 = some rank' from hexec]
  rfl

theorem not_bankActive {bank : Nat × Nat} (hnone : ∀ x ∈ h, ¬ IsAt .ACT bank x.2) : ¬ BankActive bank h := by
  rintro ⟨pre, x, post, rfl, hx, -⟩
  exact hnone x (by simp) hx

/-- An ACT to a bank that was never used, with at most three ACTs before it. -/
theorem allowed_act (hop : c.2.opcode = .ACT) (hgroup : entry t.rrdL t.rrdS c.2.bankGroup (lastOf .ACT h) ≤ c.1)
    (hbank : ∀ x ∈ h, Command.bank x.2 ≠ (Command.bank c.2 : Nat × Nat)) (href : ∀ x ∈ h, x.2.opcode ≠ .REF)
    (hlen : h.length ≤ 3) : Allowed t h c where
  rdGroup hc := by rw [hop] at hc; cases hc
  actGroup _ := hgroup
  actRd hc := by rw [hop] at hc; cases hc
  preAct _ := ⟨not_bankActive fun x hx hact => hbank x hx hact.2, fun x hx hpre => absurd hpre.2 (hbank x hx)⟩
  preBank hc := by rw [hop] at hc; cases hc
  refAny _ := fun x hx hx' => absurd hx' (href x hx)
  ref hc := by rw [hop] at hc; cases hc
  faw _ := by
    intro pre a mid heq hmid
    have hacts : (acts h).length ≤ h.length := by
      rw [acts, List.length_map]
      exact List.length_filter_le _ _
    rw [heq, List.length_append, List.length_cons, hmid] at hacts
    omega

/-- A RD to an active bank. -/
theorem allowed_rd (hop : c.2.opcode = .RD) (hgroup : entry t.ccdL t.ccdS c.2.bankGroup (lastOf .RD h) ≤ c.1)
    (hactive : BankActive (Command.bank c.2 : Nat × Nat) h)
    (hrcd : Apart (IsAt .ACT (Command.bank c.2 : Nat × Nat)) t.rcd h c.1) :
    Allowed t h c where
  rdGroup _ := hgroup
  actGroup hc := by rw [hop] at hc; cases hc
  actRd _ := ⟨hactive, hrcd⟩
  preAct hc := by rw [hop] at hc; cases hc
  preBank hc := by rw [hop] at hc; cases hc
  refAny hc := by rw [hop] at hc; rcases hc with hc | hc <;> cases hc
  ref hc := by rw [hop] at hc; cases hc
  faw hc := by rw [hop] at hc; cases hc

/-- An ACT of one tick. -/
def act (group bank : Nat) : MemInstr := ⟨.ACT, 1, 0, 0, group, bank, 0⟩

/-- A RD of one tick. -/
def rd (group : Nat) : MemInstr := ⟨.RD, 1, 0, 0, group, 0, 0⟩

/-- ACTs to group 0, group 1 and group 0 again, each at the short delay. -/
def actClash (t : Timing) : List (MemInstr × Nat) :=
  [(act 0 0, t.rrdS - 1), (act 1 0, t.rrdS - 1), (act 0 1, 0)]

/-- RDs to group 0, group 1 and group 0 again, each at the short delay; their banks were activated long before. -/
def rdClash (t : Timing) : List (MemInstr × Nat) :=
  [(act 0 0, t.rcd + t.rrdS - 1), (act 1 0, t.rcd + t.rrdS - 1), (rd 0, t.ccdS - 1), (rd 1, t.ccdS - 1), (rd 0, 0)]

theorem executed_actClash (hrrd : 0 < t.rrdS) : Executed t (programTrace lib 0 (actClash t)) := by
  have h1 := (executed_nil t).concat (c := (0, act 0 0)) (by simp) (Or.inr (Or.inl rfl))
    (allowed_act rfl (Nat.zero_le _) (by simp) (by simp) (by simp))
  have h2 := h1.concat (c := (0 + 1 + (t.rrdS - 1), act 1 0)) (by simp) (Or.inr (Or.inl rfl))
    (allowed_act rfl (by simp [lastOf, entry, act]; omega) (by simp [act, Command.bank]) (by simp [act]) (by simp))
  exact h2.concat (c := (0 + 1 + (t.rrdS - 1) + 1 + (t.rrdS - 1), act 0 1)) (by simp) (Or.inr (Or.inl rfl))
    (allowed_act rfl (by simp [lastOf, entry, act]; omega) (by simp [act, Command.bank]) (by simp [act]) (by simp))

theorem executed_rdClash (hrrd : 0 < t.rrdS) (hccd : 0 < t.ccdS) :
    Executed t (programTrace lib 0 (rdClash t)) := by
  obtain ⟨w, hw⟩ : ∃ w, w = t.rcd + t.rrdS - 1 := ⟨_, rfl⟩
  have h1 := (executed_nil t).concat (c := (0, act 0 0)) (by simp) (Or.inr (Or.inl rfl))
    (allowed_act rfl (Nat.zero_le _) (by simp) (by simp) (by simp))
  have h2 := h1.concat (c := (0 + 1 + w, act 1 0)) (by simp) (Or.inr (Or.inl rfl))
    (allowed_act rfl (by simp [lastOf, entry, act]; omega) (by simp [act, Command.bank]) (by simp [act]) (by simp))
  have h3 := h2.concat (c := (0 + 1 + w + 1 + w, rd 0)) (by simp) (Or.inl rfl)
    (allowed_rd rfl (by simp [lastOf, entry, act]) ⟨[], _, _, rfl, ⟨rfl, rfl⟩, by simp [IsAt, act, Command.opcode]⟩
      (by simp [Apart, IsAt, act, rd, Command.opcode, Command.bank]; omega))
  have h4 := h3.concat (c := (0 + 1 + w + 1 + w + 1 + (t.ccdS - 1), rd 1)) (by simp; omega) (Or.inl rfl)
    (allowed_rd rfl (by simp [lastOf, entry, act, rd]; omega)
      ⟨[(0, act 0 0)], _, _, rfl, ⟨rfl, rfl⟩, by simp [IsAt, rd, Command.opcode]⟩
      (by simp [Apart, IsAt, act, rd, Command.opcode, Command.bank]; omega))
  have h5 := h4.concat (c := (0 + 1 + w + 1 + w + 1 + (t.ccdS - 1) + 1 + (t.ccdS - 1), rd 0)) (by simp; omega)
    (Or.inl rfl) (allowed_rd rfl (by simp [lastOf, entry, act, rd]; omega)
      ⟨[], _, _, rfl, ⟨rfl, rfl⟩, by simp [IsAt, act, rd, Command.opcode]⟩
      (by simp [Apart, IsAt, act, rd, Command.opcode, Command.bank]; omega))
  rw [hw] at h5
  exact h5

/-- The third ACT comes twice the short delay after the first. -/
theorem undercut_actClash (hrrd : 0 < t.rrdS) (hlong : 2 * t.rrdS < t.rrdL) :
    Undercut .ACT t.rrdL (programTrace lib 0 (actClash t)) := by
  refine ⟨[], (0, act 0 0), [(0 + 1 + (t.rrdS - 1), act 1 0)], (0 + 1 + (t.rrdS - 1) + 1 + (t.rrdS - 1), act 0 1), [],
    rfl,
    rfl, rfl, rfl, ⟨_, List.mem_singleton.mpr rfl, rfl⟩, by simp [act], ?_⟩
  change 0 + 1 + (t.rrdS - 1) + 1 + (t.rrdS - 1) < 0 + t.rrdL
  omega

/-- The third RD comes twice the short delay after the first. -/
theorem undercut_rdClash (hccd : 0 < t.ccdS) (hlong : 2 * t.ccdS < t.ccdL) :
    Undercut .RD t.ccdL (programTrace lib 0 (rdClash t)) := by
  refine ⟨[_, _], _, [_], _, [], rfl, rfl, rfl, rfl, ⟨_, List.mem_singleton.mpr rfl, rfl⟩, by simp [rd], ?_⟩
  obtain ⟨w, hw⟩ : ∃ w, w = t.rcd + t.rrdS - 1 := ⟨_, rfl⟩
  change 0 + 1 + (t.rcd + t.rrdS - 1) + 1 + (t.rcd + t.rrdS - 1) + 1 + (t.ccdS - 1) + 1 + (t.ccdS - 1) <
    0 + 1 + (t.rcd + t.rrdS - 1) + 1 + (t.rcd + t.rrdS - 1) + t.ccdL
  rw [← hw]
  omega

end Clash

/-! ## Accepted payloads -/

/-- RDs and ACTs are spaced by the group delays. -/
def GroupsSpaced (t : Timing) (tr : List (Nat × MemInstr)) : Prop :=
  Spaced .RD t.ccdL t.ccdS tr ∧ Spaced .ACT t.rrdL t.rrdS tr

/-- **Bank groups.** For every timing with positive parameters whose long delays are at least the short ones: an
accepted payload is spaced exactly when no group is used again too early after another one; and all accepted payloads
are spaced exactly when the long delays are at most twice the short ones. -/
theorem bank_group_spacing_iff (t : Timing) (hpos : ∀ f ∈ t.fields, 0 < f.2) (hccd : t.ccdS ≤ t.ccdL)
    (hrrd : t.rrdS ≤ t.rrdL) :
    (∀ (payload : Payload Timing MemInstr) (tr : List (Nat × MemInstr)) (s : State), payload.timing = t →
      Accepts lib payload tr s → (GroupsSpaced t tr ↔ ¬ Undercut .RD t.ccdL tr ∧ ¬ Undercut .ACT t.rrdL tr)) ∧
    ((∀ (payload : Payload Timing MemInstr) (tr : List (Nat × MemInstr)) (s : State), payload.timing = t →
      Accepts lib payload tr s → GroupsSpaced t tr) ↔ t.ccdL ≤ 2 * t.ccdS ∧ t.rrdL ≤ 2 * t.rrdS) := by
  have hccdS : 0 < t.ccdS := hpos ("ccd_s", t.ccdS) (by simp [Timing.fields])
  have hrrdS : 0 < t.rrdS := hpos ("rrd_s", t.rrdS) (by simp [Timing.fields])
  -- a program with these timings whose commands are executed is accepted
  have hprogram : ∀ cmds : List (MemInstr × Nat), (∀ c ∈ cmds, verifyMem c.1 = true) →
      Executed t (programTrace lib 0 cmds) → ∃ s, Accepts lib ⟨t, program cmds⟩ (programTrace lib 0 cmds) s := by
    intro cmds hmem hexecuted
    obtain ⟨rank, hall, -⟩ := hexecuted
    exact accepts_program rfl hpos hmem hall
  have hiff : ∀ (payload : Payload Timing MemInstr) (tr : List (Nat × MemInstr)) (s : State), payload.timing = t →
      Accepts lib payload tr s → (GroupsSpaced t tr ↔ ¬ Undercut .RD t.ccdL tr ∧ ¬ Undercut .ACT t.rrdL tr) := by
    rintro payload tr s rfl hacc
    have hall := accepts_allowed hacc
    exact and_congr
      (spaced_iff (accepts_executed hacc).1 hccd fun h c post heq => (hall h c post heq).rdGroup)
      (spaced_iff (accepts_executed hacc).1 hrrd fun h c post heq => (hall h c post heq).actGroup)
  refine ⟨hiff, fun hspaced => ⟨?_, ?_⟩, fun hlong payload tr s htiming hacc => ?_⟩
  · by_contra hlong
    obtain ⟨s, hacc⟩ := hprogram (rdClash t) (by simp [rdClash, act, rd, verifyMem]) (executed_rdClash hrrdS hccdS)
    have hnot := (hiff _ _ s rfl hacc).mp (hspaced _ _ s rfl hacc)
    exact hnot.1 (undercut_rdClash hccdS (not_le.mp hlong))
  · by_contra hlong
    obtain ⟨s, hacc⟩ := hprogram (actClash t) (by simp [actClash, act, verifyMem]) (executed_actClash hrrdS)
    have hnot := (hiff _ _ s rfl hacc).mp (hspaced _ _ s rfl hacc)
    exact hnot.2 (undercut_actClash hrrdS (not_le.mp hlong))
  · refine (hiff payload tr s htiming hacc).mpr ?_
    subst htiming
    have hall := accepts_allowed hacc
    exact ⟨not_undercut (accepts_executed hacc).1 hccd (fun h c post heq => (hall h c post heq).rdGroup) hlong.1,
      not_undercut (accepts_executed hacc).1 hrrd (fun h c post heq => (hall h c post heq).actGroup) hlong.2⟩

theorem bank_group_spacing_iff_sample : ∃ tr s,
    Accepts lib ⟨sampleTiming,
      [.mem ⟨.ACT, 12, 0, 0, 0, 0, 0⟩, .mem ⟨.RD, 5, 0, 0, 0, 0, 0⟩, .mem ⟨.RD, 8, 0, 0, 0, 0, 8⟩]⟩
      tr s ∧ GroupsSpaced sampleTiming tr := by
  have hacc : Accepts lib
      ⟨sampleTiming, [.mem ⟨.ACT, 12, 0, 0, 0, 0, 0⟩, .mem ⟨.RD, 5, 0, 0, 0, 0, 0⟩, .mem ⟨.RD, 8, 0, 0, 0, 0, 8⟩]⟩
      [(0, ⟨.ACT, 12, 0, 0, 0, 0, 0⟩), (12, ⟨.RD, 5, 0, 0, 0, 0, 0⟩), (17, ⟨.RD, 8, 0, 0, 0, 0, 8⟩)] ⟨3, 25, 0⟩ :=
    ⟨4, by decide +kernel⟩
  exact ⟨_, _, hacc, (bank_group_spacing_iff sampleTiming (by decide) (by decide) (by decide)).2.mpr (by decide) _ _ _
    rfl hacc⟩

/-- The sample timings with a `ccd_l` of more than twice `ccd_s`. -/
def slowTiming : Timing := { sampleTiming with ccdL := 9 }

/-- Group 0 is read again 8 ticks after its last read. -/
theorem reads_too_close : ∃ (payload : Payload Timing MemInstr) (tr : List (Nat × MemInstr)) (s : State),
    payload.timing = slowTiming ∧ Accepts lib payload tr s ∧ ¬ GroupsSpaced slowTiming tr := by
  refine ⟨⟨slowTiming, [.mem ⟨.ACT, 5, 0, 0, 0, 0, 0⟩, .mem ⟨.ACT, 12, 0, 0, 1, 0, 0⟩, .mem ⟨.RD, 4, 0, 0, 0, 0, 0⟩,
      .mem ⟨.RD, 4, 0, 0, 1, 0, 0⟩, .mem ⟨.RD, 4, 0, 0, 0, 0, 0⟩]⟩,
    [(0, ⟨.ACT, 5, 0, 0, 0, 0, 0⟩), (5, ⟨.ACT, 12, 0, 0, 1, 0, 0⟩), (17, ⟨.RD, 4, 0, 0, 0, 0, 0⟩),
      (21, ⟨.RD, 4, 0, 0, 1, 0, 0⟩), (25, ⟨.RD, 4, 0, 0, 0, 0, 0⟩)], ⟨5, 29, 0⟩, rfl, ⟨6, by decide +kernel⟩,
        fun hspaced => ?_⟩
  have hle := hspaced.1 [_, _] _ [_] _ [] rfl rfl rfl
  exact absurd hle (by decide)

end RowhammerTester.Checker.Ddr4
