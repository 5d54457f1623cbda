import RowhammerTester.Playbook.HalfDouble.Analysis
import RowhammerTester.Playbook.RowErrors
import Mathlib.Data.List.Dedup
import Mathlib.Data.List.Sort
import Mathlib.Order.WithBot

/-!
# The iterations of the half-double analysis

* `Counts` : the histograms and the list of victims; `visitRow` : the loop over the rows with errors;
* `processErrors` : what the errors found after a payload do to the generator;
* `victimFlipped` : the outcome the phases see, `processErrors_ok`, `exists_processErrors`;
* `state cfg errs t` : the generator after `t` iterations, `state_induction`.
-/

namespace RowhammerTester.Playbook.HalfDouble

/-! ## The bookkeeping -/

/-- The dilution, `math.inf` for the rows at distance two alone, and the number of hammers. -/
abbrev Key := WithTop Int × Int

/-- `row_count`, `bit_count` and `victim_list`. -/
structure Counts where
  rowCount : Key → Nat
  bitCount : Key → Nat
  victimList : Key → List Int

namespace Counts

/-- The three `defaultdict`s before their first use. -/
def empty : Counts := ⟨fun _ => 0, fun _ => 0, fun _ => []⟩

/-- A victim with `victimErrors` flipped bits. -/
def record (c : Counts) (key : Key) (victimErrors : Nat) (logicalVictim : Int) : Counts :=
  { rowCount := Function.update c.rowCount key (c.rowCount key + 1)
    bitCount := Function.update c.bitCount key (c.bitCount key + victimErrors)
    victimList := Function.update c.victimList key (c.victimList key ++ [logicalVictim]) }

end Counts

/-- The key under which a phase records its victim. -/
def Machine.key (m : Machine) : Key :=
  (if m.phase = .NOFLIP_DISTANCE_TWO then ⊤ else m.dilution, m.totalReadCount)

/-- The variables of the loop over the rows. -/
structure Visit where
  counts : Counts
  victimFlipped : Bool
  victimErrors : Nat
  /-- The lines printed: the row and the number of its bit-flips. -/
  printed : List (Nat × Nat)

def visitRow (m : Machine) (logicalVictim : Int) (v : Visit) (item : Nat × List RowError) : Visit :=
  let v :=
    if (item.1 : Int) = logicalVictim then
      let v := { v with victimFlipped := true }
      if m.phase ≠ .NOFLIP_DISTANCE_ONE then
        let v := { v with victimErrors := v.victimErrors + flips item.2 }
        { v with counts := v.counts.record m.key v.victimErrors logicalVictim }
      else v
    else v
  if item.2.length > 0 then { v with printed := v.printed ++ [(item.1, flips item.2)] } else v

/-- `row_errors_logical` in the order of its sorted keys; where two rows have one logical row, the last one stays. -/
def rowErrorsLogical (mapping : RowMapping) (rowErrors : RowErrors) : List (Nat × List RowError) :=
  let logical := rowErrors.map fun item => (mapping.physicalToLogical item.1, item.2)
  ((logical.map Prod.fst).dedup.insertionSort (· ≤ ·)).map fun row => (row, (logical.reverse.lookup row).getD [])

/-! ## An iteration -/

/-- The variables of the generator. -/
structure State where
  machine : Machine
  counts : Counts

/-- The loop over the rows. -/
def visitRows (cfg : Config) (s : State) (logicalVictim : Int) (rowErrors : RowErrors) : Visit :=
  (rowErrorsLogical cfg.rowMapping rowErrors).foldl (visitRow s.machine logicalVictim)
    { counts := s.counts, victimFlipped := false, victimErrors := 0, printed := [] }

/-- `process_errors`, with the lines it prints. -/
def processErrors (cfg : Config) (s : State) (rowErrors : RowErrors) : Py (State × List (Nat × Nat)) := do
  let logicalVictim ← s.machine.rowGenerator.getLogicalVictim s.machine.iteration
  let v := visitRows cfg s logicalVictim rowErrors
  let m ← advance cfg v.victimFlipped s.machine
  return (⟨m, v.counts⟩, v.printed)

/-- The victim is among the rows with errors. -/
def victimFlipped (cfg : Config) (m : Machine) (rowErrors : RowErrors) : Bool :=
  rowErrors.any fun item =>
    decide (m.rowGenerator.getLogicalVictim m.iteration = .ok (cfg.rowMapping.physicalToLogical item.1 : Int))

/-- The generator after `t` iterations, `errs t` the errors found in iteration `t`. -/
def state (cfg : Config) (errs : Nat → RowErrors) : Nat → Py State
  | 0 => do
    let m ← initializeMachine cfg
    return ⟨m, Counts.empty⟩
  | t + 1 => do
    let s ← state cfg errs t
    let (s, _) ← processErrors cfg s (errs t)
    return s

section VisitRow
variable {m : Machine} {logicalVictim : Int} {v : Visit} {item : Nat × List RowError}
  {items : List (Nat × List RowError)}

theorem visitRow_of_ne (h : (item.1 : Int) ≠ logicalVictim) :
    (visitRow m logicalVictim v item).counts = v.counts ∧
      (visitRow m logicalVictim v item).victimFlipped = v.victimFlipped := by
  unfold visitRow
  rw [if_neg h]
  dsimp only
  split
  · exact ⟨rfl, rfl⟩
  · exact ⟨rfl, rfl⟩

theorem visitRow_of_eq (h : (item.1 : Int) = logicalVictim) :
    (∃ n, (visitRow m logicalVictim v item).counts =
      if m.phase = .NOFLIP_DISTANCE_ONE then v.counts else v.counts.record m.key n logicalVictim) ∧
      (visitRow m logicalVictim v item).victimFlipped = true := by
  unfold visitRow
  rw [if_pos h]
  refine ⟨⟨v.victimErrors + flips item.2, ?_⟩, ?_⟩
  · by_cases hphase : m.phase = .NOFLIP_DISTANCE_ONE
    · simp only [hphase, ne_eq, not_true_eq_false, if_false, if_true]
      split
      · rfl
      · rfl
    · simp only [hphase, ne_eq, not_false_eq_true, if_false, if_true]
      split
      · rfl
      · rfl
  · dsimp only
    split <;> split <;> rfl

/-- The rows other than the victim change nothing but the output. -/
theorem foldl_visitRow_of_ne (h : ∀ item ∈ items, (item.1 : Int) ≠ logicalVictim) :
    (items.foldl (visitRow m logicalVictim) v).counts = v.counts ∧
      (items.foldl (visitRow m logicalVictim) v).victimFlipped = v.victimFlipped := by
  induction items generalizing v with
  | nil => exact ⟨rfl, rfl⟩
  | cons item items ih =>
    obtain ⟨hcounts, hflipped⟩ := visitRow_of_ne (m := m) (v := v) (h item List.mem_cons_self)
    obtain ⟨ihcounts, ihflipped⟩ := ih (v := visitRow m logicalVictim v item)
      fun item' hmem => h item' (List.mem_cons_of_mem item hmem)
    exact ⟨ihcounts.trans hcounts, ihflipped.trans hflipped⟩

/-- Of rows that are all different at most one is the victim. -/
theorem foldl_visitRow (hnodup : (items.map Prod.fst).Nodup) (hflipped : v.victimFlipped = false) :
    (items.foldl (visitRow m logicalVictim) v).victimFlipped =
      items.any (fun item => decide ((item.1 : Int) = logicalVictim)) ∧
    ∃ n, (items.foldl (visitRow m logicalVictim) v).counts =
      if m.phase ≠ .NOFLIP_DISTANCE_ONE ∧ items.any (fun item => decide ((item.1 : Int) = logicalVictim)) then
        v.counts.record m.key n logicalVictim
      else v.counts := by
  induction items generalizing v with
  | nil => simp [hflipped]
  | cons item items ih =>
    rw [List.map_cons, List.nodup_cons] at hnodup
    rw [List.foldl_cons, List.any_cons]
    by_cases h : (item.1 : Int) = logicalVictim
    · have hne : ∀ item' ∈ items, (item'.1 : Int) ≠ logicalVictim := by
        intro item' hmem heq
        have hfst : item'.1 = item.1 := Int.ofNat.inj (heq.trans h.symm)
        exact hnodup.1 (hfst ▸ List.mem_map_of_mem hmem)
      obtain ⟨⟨n, hn⟩, htrue⟩ := visitRow_of_eq (m := m) (v := v) h
      obtain ⟨hcounts, hflipped'⟩ := foldl_visitRow_of_ne (m := m) (v := visitRow m logicalVictim v item) hne
      rw [decide_eq_true h, Bool.true_or]
      refine ⟨hflipped'.trans htrue, n, hcounts.trans (hn.trans ?_)⟩
      by_cases hphase : m.phase = .NOFLIP_DISTANCE_ONE
      · rw [if_pos hphase, if_neg fun hand => hand.1 hphase]
      · rw [if_neg hphase, if_pos ⟨hphase, rfl⟩]
    · obtain ⟨hcounts, hflipped'⟩ := visitRow_of_ne (m := m) (v := v) h
      rw [decide_eq_false h, Bool.false_or]
      have := ih (v := visitRow m logicalVictim v item) hnodup.2 (hflipped'.trans hflipped)
      rwa [hcounts] at this

end VisitRow

theorem nodup_rowErrorsLogical (mapping : RowMapping) (rowErrors : RowErrors) :
    ((rowErrorsLogical mapping rowErrors).map Prod.fst).Nodup := by
  unfold rowErrorsLogical
  dsimp only
  rw [List.map_map]
  refine List.Nodup.map (fun _ _ h => h) ?_
  exact (List.perm_insertionSort _ _).nodup_iff.mpr (List.nodup_dedup _)

theorem any_rowErrorsLogical (mapping : RowMapping) (rowErrors : RowErrors) (p : Nat → Bool) :
    (rowErrorsLogical mapping rowErrors).any (fun item => p item.1) =
      rowErrors.any fun item => p (mapping.physicalToLogical item.1) := by
  rw [Bool.eq_iff_iff]
  simp only [rowErrorsLogical, List.any_eq_true, List.mem_map, List.mem_insertionSort, List.mem_dedup]
  constructor
  · rintro ⟨item, ⟨row, ⟨_, ⟨item', hmem, rfl⟩, rfl⟩, rfl⟩, hp⟩
    exact ⟨item', hmem, hp⟩
  · rintro ⟨item, hmem, hp⟩
    exact ⟨_, ⟨_, ⟨_, ⟨item, hmem, rfl⟩, rfl⟩, rfl⟩, hp⟩

section ProcessErrors
variable {cfg : Config} {s s' : State} {rowErrors : RowErrors}

/-- What the loop over the rows leaves. -/
theorem visitRows_eq (cfg : Config) (rowErrors : RowErrors) {logicalVictim : Int}
    (hvictim : s.machine.rowGenerator.getLogicalVictim s.machine.iteration = .ok logicalVictim) :
    (visitRows cfg s logicalVictim rowErrors).victimFlipped = victimFlipped cfg s.machine rowErrors ∧
    ∃ n, (visitRows cfg s logicalVictim rowErrors).counts =
      if s.machine.phase ≠ .NOFLIP_DISTANCE_ONE ∧ victimFlipped cfg s.machine rowErrors then
        s.counts.record s.machine.key n logicalVictim
      else s.counts := by
  have hany : (rowErrorsLogical cfg.rowMapping rowErrors).any (fun item => decide ((item.1 : Int) = logicalVictim)) =
      victimFlipped cfg s.machine rowErrors := by
    rw [any_rowErrorsLogical cfg.rowMapping rowErrors fun row => decide ((row : Int) = logicalVictim), victimFlipped,
      hvictim]
    congr 1
    funext item
    rw [decide_eq_decide, Except.ok.injEq]
    exact eq_comm
  rw [← hany]
  exact foldl_visitRow (nodup_rowErrorsLogical _ _) rfl

/-- What an iteration has done. -/
theorem processErrors_ok {printed : List (Nat × Nat)} (h : processErrors cfg s rowErrors = .ok (s', printed)) :
    Advances cfg (victimFlipped cfg s.machine rowErrors) s.machine s'.machine ∧
    ∃ logicalVictim n, s.machine.rowGenerator.getLogicalVictim s.machine.iteration = .ok logicalVictim ∧
      s'.counts = if s.machine.phase ≠ .NOFLIP_DISTANCE_ONE ∧ victimFlipped cfg s.machine rowErrors then
        s.counts.record s.machine.key n logicalVictim else s.counts := by
  obtain ⟨logicalVictim, hvictim, h⟩ := Py.bind_eq_ok.mp h
  obtain ⟨m, hm, h⟩ := Py.bind_eq_ok.mp h
  cases h
  obtain ⟨hflipped, n, hcounts⟩ := visitRows_eq cfg rowErrors hvictim
  rw [hflipped] at hm
  exact ⟨advances_of_ok hm, logicalVictim, n, hvictim, hcounts⟩

/-- An iteration raises only where the victim or the phase does. -/
theorem exists_processErrors {logicalVictim : Int} {m : Machine}
    (hvictim : s.machine.rowGenerator.getLogicalVictim s.machine.iteration = .ok logicalVictim)
    (hadvance : advance cfg (victimFlipped cfg s.machine rowErrors) s.machine = .ok m) :
    ∃ s' printed, processErrors cfg s rowErrors = .ok (s', printed) ∧ s'.machine = m := by
  obtain ⟨hflipped, -⟩ := visitRows_eq cfg rowErrors hvictim
  rw [← hflipped] at hadvance
  refine ⟨⟨m, (visitRows cfg s logicalVictim rowErrors).counts⟩, (visitRows cfg s logicalVictim rowErrors).printed,
    ?_, rfl⟩
  refine Py.bind_eq_ok.mpr ⟨logicalVictim, hvictim, ?_⟩
  exact Py.bind_eq_ok.mpr ⟨m, hadvance, rfl⟩

end ProcessErrors

/-! ## The iterations -/

section Runs
variable {cfg : Config} {errs : Nat → RowErrors} {t : Nat} {s s' : State}

theorem state_zero_iff : state cfg errs 0 = .ok s ↔
    cfg.initialDilution ≠ 0 ∧ s =
      { machine :=
          { rowGenerator := ⟨cfg.initialDilution, true, true, false, cfg.attackRowsStart, cfg.maxAttackRowIdx,
              cfg.decoyRowsStart⟩
            iteration := 0
            totalReadCount := cfg.maxTotalReadCount
            dilution := cfg.initialDilution
            readCount := cfg.maxTotalReadCount.fdiv cfg.initialDilution
            phase := .NOFLIP_DISTANCE_ONE }
        counts := Counts.empty } := by
  unfold state initializeMachine
  rw [Py.bind_eq_ok]
  simp only [Machine.setReadCount_iff]
  constructor
  · rintro ⟨m, ⟨hne, rfl⟩, h⟩
    cases h
    exact ⟨hne, rfl⟩
  · rintro ⟨hne, rfl⟩
    exact ⟨_, ⟨hne, rfl⟩, rfl⟩

theorem state_succ_iff : state cfg errs (t + 1) = .ok s' ↔
    ∃ s printed, state cfg errs t = .ok s ∧ processErrors cfg s (errs t) = .ok (s', printed) := by
  rw [state, Py.bind_eq_ok]
  constructor
  · rintro ⟨s, hs, h⟩
    obtain ⟨⟨s'', printed⟩, hr, h⟩ := Py.bind_eq_ok.mp h
    cases h
    exact ⟨s, printed, hs, hr⟩
  · rintro ⟨s, printed, hs, hr⟩
    exact ⟨s, hs, Py.bind_eq_ok.mpr ⟨_, hr, rfl⟩⟩

/-- A state is reached through states. -/
theorem exists_state_of_le (h : state cfg errs t = .ok s) {u : Nat} (hut : u ≤ t) :
    ∃ s', state cfg errs u = .ok s' := by
  induction t generalizing s with
  | zero => exact ⟨s, Nat.le_zero.mp hut ▸ h⟩
  | succ t ih =>
    rcases Nat.lt_or_ge t u with htu | hle
    · have hu : u = t + 1 := Nat.le_antisymm hut htu
      exact ⟨s, hu ▸ h⟩
    · obtain ⟨s₀, -, hs₀, -⟩ := state_succ_iff.mp h
      exact ih hs₀ hle

/-- An invariant of the iterations. -/
theorem state_induction {P : State → Prop} (h0 : ∀ s, state cfg errs 0 = .ok s → P s)
    (hstep : ∀ u < t, ∀ s s' printed, state cfg errs u = .ok s → P s →
      processErrors cfg s (errs u) = .ok (s', printed) → P s') (h : state cfg errs t = .ok s) : P s := by
  induction t generalizing s with
  | zero => exact h0 s h
  | succ t ih =>
    obtain ⟨s₀, printed, hs₀, hr⟩ := state_succ_iff.mp h
    have hP : P s₀ := ih (fun u hu => hstep u (Nat.lt_succ_of_lt hu)) hs₀
    exact hstep t (Nat.lt_succ_self t) s₀ s printed hs₀ hP hr

end Runs

end RowhammerTester.Playbook.HalfDouble
