import RowhammerTester.Playbook.ErrorLog
import RowhammerTester.Playbook.HalfDouble.Phases

/-!
# Rows with errors by their logical numbers

The generators enter the errors of the physical rows in a dictionary over logical rows, and print its rows in order.

* `printRows` : the lines; `RowList.processErrors`, `Idle.processErrorsPrinting`, `HalfDouble.visitRows` : where they
  are printed;
* `Reported` : there is one line for every physical row with errors; `Distinct` : no such row is replaced by another;
* `HasErrors` : a physical row has errors; `VictimSeen` : the rows that stand for the victim are in step with its own;
* `logicalView_iff` : the lines are complete, and the victim has flipped, exactly as far as this is so.
-/

namespace RowhammerTester.Playbook
open HalfDouble

/-! ## Lines -/

/-- The lines "Bit-flips for row": the rows and the numbers of their flips. -/
def printRows (rowErrorsLogical : List (Nat × List RowError)) : List (Nat × Nat) :=
  rowErrorsLogical.foldl
    (fun printed item => if item.2.length > 0 then printed ++ [(item.1, flips item.2)] else printed) []

/-- The attributes of `RowListPayloadGenerator` that `process_errors` reads and writes. -/
structure RowListState where
  rowMapping : RowMapping
  iteration : Nat := 0

/-- `process_errors` of `RowListPayloadGenerator`, with the lines it prints. -/
def RowList.processErrors (st : RowListState) (rowErrors : RowErrors) : RowListState × List (Nat × Nat) :=
  ({ st with iteration := st.iteration + 1 }, printRows (rowErrorsLogical st.rowMapping rowErrors))

/-- `process_errors` of `IdlePayloadGenerator`, with the lines it prints before it logs. -/
def Idle.processErrorsPrinting (g : LogGenerator) (st : LogState) (rowErrors : RowErrors) :
    Py LogState × List (Nat × Nat) :=
  (Idle.processErrors g st rowErrors, printRows (rowErrorsLogical g.rowMapping rowErrors))

/-! ## What should be seen -/

section View
variable (mapping : RowMapping) (rowErrors : RowErrors)

/-- One line for every physical row with errors, with its logical number and its flips. -/
def Reported (printed : List (Nat × Nat)) : Prop :=
  printed.Perm ((rowErrors.filter fun item => decide (item.2.length > 0)).map fun item =>
    (mapping.physicalToLogical item.1, flips item.2))

/-- All generators report all rows with errors. -/
structure AllReported : Prop where
  rowList : ∀ st : RowListState, st.rowMapping = mapping →
    Reported mapping rowErrors (RowList.processErrors st rowErrors).2
  idle : ∀ (g : LogGenerator) (st : LogState), g.rowMapping = mapping →
    Reported mapping rowErrors (Idle.processErrorsPrinting g st rowErrors).2
  halfDouble : ∀ (cfg : HalfDouble.Config) (s : HalfDouble.State) (victim : Int), cfg.rowMapping = mapping →
    Reported mapping rowErrors (visitRows cfg s victim rowErrors).printed

/-- The physical row has errors. -/
def HasErrors (row : Int) : Prop := ∃ item ∈ rowErrors, (item.1 : Int) = row ∧ item.2 ≠ []

/-- Under `TypeBRowMapping`, a row with errors is not followed by the other row of its pair. -/
def Distinct : Prop :=
  mapping = .TypeBRowMapping → rowErrors.Pairwise fun a b => a.2 ≠ [] → a.1 / 2 ≠ b.1 / 2

/-- The row of the victim has no empty entry, and under `TypeBRowMapping` it has one if the row behind it has. -/
structure VictimSeen (victim : Int) : Prop where
  nonempty : ∀ item ∈ rowErrors, (item.1 : Int) = mapping.logicalToPhysicalInt victim → item.2 ≠ []
  behind : mapping = .TypeBRowMapping → (∃ item ∈ rowErrors, (item.1 : Int) = 2 * victim + 1) →
    ∃ item ∈ rowErrors, (item.1 : Int) = 2 * victim

end View

/-! ## The lines are complete -/

/-- The lines of rows with errors. -/
def linesOf (l : List (Nat × List RowError)) : List (Nat × Nat) :=
  (l.filter fun item => decide (item.2.length > 0)).map fun item => (item.1, flips item.2)

theorem printRows_eq (l : List (Nat × List RowError)) : printRows l = linesOf l := by
  have hfold : ∀ printed, l.foldl (fun printed item =>
      if item.2.length > 0 then printed ++ [(item.1, flips item.2)] else printed) printed = printed ++ linesOf l := by
    unfold linesOf
    induction l with
    | nil => exact fun printed => (List.append_nil printed).symm
    | cons item l ih =>
      intro printed
      rw [List.foldl_cons, ih]
      by_cases h : item.2.length > 0
      · rw [if_pos h, List.filter_cons_of_pos (by simpa using h), List.map_cons, List.append_assoc]
        rfl
      · rw [if_neg h, List.filter_cons_of_neg (by simpa using h)]
  exact hfold []

theorem printed_visitRow (m : Machine) (victim : Int) (v : Visit) (item : Nat × List RowError) :
    (visitRow m victim v item).printed =
      if item.2.length > 0 then v.printed ++ [(item.1, flips item.2)] else v.printed := by
  unfold visitRow
  by_cases hrow : (item.1 : Int) = victim
  · by_cases hphase : m.phase ≠ .NOFLIP_DISTANCE_ONE
    · simp only [if_pos hrow, if_pos hphase]
      split <;> rfl
    · simp only [if_pos hrow, if_neg hphase]
      split <;> rfl
  · simp only [if_neg hrow]
    split <;> rfl

/-- The analysis prints the same lines. -/
theorem printed_visitRows (cfg : HalfDouble.Config) (s : HalfDouble.State) (victim : Int) (rowErrors : RowErrors) :
    (visitRows cfg s victim rowErrors).printed = printRows (rowErrorsLogical cfg.rowMapping rowErrors) := by
  have hfold : ∀ (l : List (Nat × List RowError)) (v : Visit), (l.foldl (visitRow s.machine victim) v).printed =
      l.foldl (fun printed item => if item.2.length > 0 then printed ++ [(item.1, flips item.2)] else printed)
        v.printed := by
    intro l
    induction l with
    | nil => exact fun _ => rfl
    | cons item l ih =>
      intro v
      rw [List.foldl_cons, ih, printed_visitRow, List.foldl_cons]
  exact hfold _ _

section Reported
variable {mapping : RowMapping} {rowErrors : RowErrors}

/-- The dictionary over logical rows has the last entry of every logical row. -/
theorem rowErrorsLogical_perm (mapping : RowMapping) (rowErrors : RowErrors) :
    (rowErrorsLogical mapping rowErrors).Perm
      (Dictionary.kept (rowErrors.map fun item => (mapping.physicalToLogical item.1, item.2))) := by
  rw [← Dictionary.map_dedup_eq_kept _ []]
  exact (List.perm_insertionSort _ _).map _

/-- No row is lost exactly if no row with errors is followed by one with the same logical number. -/
theorem reported_iff : Reported mapping rowErrors (printRows (rowErrorsLogical mapping rowErrors)) ↔
    rowErrors.Pairwise fun a b => a.2 ≠ [] → mapping.physicalToLogical a.1 ≠ mapping.physicalToLogical b.1 := by
  have hkept := Dictionary.perm_kept_iff (fun item : Nat × List RowError => (item.1, flips item.2))
    (fun errors => decide (errors.length > 0)) (rowErrors.map fun item => (mapping.physicalToLogical item.1, item.2))
  have hperm := ((rowErrorsLogical_perm mapping rowErrors).filter fun item => decide (item.2.length > 0)).map
    fun item => (item.1, flips item.2)
  rw [List.pairwise_map, List.filter_map, List.map_map] at hkept
  have hnonempty : ∀ errors : List RowError, decide (errors.length > 0) = true ↔ errors ≠ [] := by
    intro errors
    rw [decide_eq_true_iff, gt_iff_lt, List.length_pos_iff]
  simp only [hnonempty] at hkept
  rw [← hkept, printRows_eq]
  exact ⟨fun h => hperm.symm.trans h, fun h => hperm.trans h⟩

/-- Rows with the same logical number are the same, or a pair under `TypeBRowMapping`. -/
theorem distinct_iff (hdict : (rowErrors.map Prod.fst).Nodup) : Distinct mapping rowErrors ↔
    rowErrors.Pairwise fun a b => a.2 ≠ [] → mapping.physicalToLogical a.1 ≠ mapping.physicalToLogical b.1 := by
  have hpairs : rowErrors.Pairwise fun a b => a.1 ≠ b.1 := List.pairwise_map.mp hdict
  by_cases hmap : mapping = .TypeBRowMapping
  · subst hmap
    exact ⟨fun h => h rfl, fun h _ => h⟩
  · exact ⟨fun _ => hpairs.imp fun hne _ heq => hne (RowMapping.physicalToLogical_injective hmap heq),
      fun _ h => absurd h hmap⟩

end Reported

/-! ## The victim -/

section Victim
variable {mapping : RowMapping} {rowErrors : RowErrors} {victim : Int}

theorem victimFlipped_visitRows (cfg : HalfDouble.Config) (s : HalfDouble.State) (victim : Int)
    (rowErrors : RowErrors) :
    (visitRows cfg s victim rowErrors).victimFlipped = true ↔
      ∃ item ∈ rowErrors, (cfg.rowMapping.physicalToLogical item.1 : Int) = victim := by
  have hany := any_rowErrorsLogical cfg.rowMapping rowErrors fun row => decide ((row : Int) = victim)
  rw [visitRows, (foldl_visitRow (nodup_rowErrorsLogical _ _) rfl).1, hany, List.any_eq_true]
  simp only [decide_eq_true_iff]

/-- Whether the row of the victim has errors is seen exactly if the rows that stand for it are in step. -/
theorem victimSeen_iff (hdict : (rowErrors.map Prod.fst).Nodup) :
    ((∃ item ∈ rowErrors, (mapping.physicalToLogical item.1 : Int) = victim) ↔
        HasErrors rowErrors (mapping.logicalToPhysicalInt victim)) ↔ VictimSeen mapping rowErrors victim := by
  have hown : ∀ item ∈ rowErrors, (item.1 : Int) = mapping.logicalToPhysicalInt victim →
      ∃ item ∈ rowErrors, (mapping.physicalToLogical item.1 : Int) = victim := fun item hmem hrow =>
    ⟨item, hmem, (mapping.physicalToLogical_eq_iff item.1 victim).mpr (.inl hrow)⟩
  have htwice : mapping = .TypeBRowMapping → mapping.logicalToPhysicalInt victim = 2 * victim := by
    intro hmap
    subst hmap
    exact mul_comm victim 2
  constructor
  · intro h
    refine ⟨fun item hmem hrow => ?_, fun hmap hbehind => ?_⟩
    · obtain ⟨item', hmem', hrow', hne⟩ := h.mp (hown item hmem hrow)
      rw [List.inj_on_of_nodup_map hdict hmem hmem' (Int.natCast_inj.mp (hrow.trans hrow'.symm))]
      exact hne
    · obtain ⟨item, hmem, hrow⟩ := hbehind
      have hpair := (mapping.physicalToLogical_eq_iff item.1 victim).mpr (.inr ⟨hmap, hrow⟩)
      obtain ⟨item', hmem', hrow', -⟩ := h.mp ⟨item, hmem, hpair⟩
      exact ⟨item', hmem', hrow'.trans (htwice hmap)⟩
  · intro h
    refine ⟨fun hflipped => ?_, fun hhas => ?_⟩
    · obtain ⟨item, hmem, hrow⟩ := hflipped
      rcases (mapping.physicalToLogical_eq_iff item.1 victim).mp hrow with hrow | ⟨hmap, hrow⟩
      · exact ⟨item, hmem, hrow, h.nonempty item hmem hrow⟩
      · obtain ⟨item', hmem', hrow'⟩ := h.behind hmap ⟨item, hmem, hrow⟩
        have hown' := hrow'.trans (htwice hmap).symm
        exact ⟨item', hmem', hown', h.nonempty item' hmem' hown'⟩
    · obtain ⟨item, hmem, hrow, -⟩ := hhas
      exact hown item hmem hrow

end Victim

/-- **The logical view.** For every mapping, every dictionary over physical rows and every victim: all generators report
the flips of every physical row with errors exactly if under `TypeBRowMapping`, under which two physical rows have one
logical number, no row with errors is followed by the other row of its pair; and the analysis takes the victim for
flipped just when its physical row has errors exactly if that row has no empty entry, and under `TypeBRowMapping` one if
the other row of its pair has one. -/
theorem logicalView_iff (cfg : HalfDouble.Config) (s : HalfDouble.State) (victim : Int) (rowErrors : RowErrors)
    (hdict : (rowErrors.map Prod.fst).Nodup) :
    (AllReported cfg.rowMapping rowErrors ↔ Distinct cfg.rowMapping rowErrors) ∧
    (((visitRows cfg s victim rowErrors).victimFlipped = true ↔
        HasErrors rowErrors (cfg.rowMapping.logicalToPhysicalInt victim)) ↔
      VictimSeen cfg.rowMapping rowErrors victim) := by
  rw [victimFlipped_visitRows, distinct_iff hdict, ← reported_iff]
  refine ⟨⟨fun h => h.rowList ⟨cfg.rowMapping, 0⟩ rfl, fun h => ⟨?_, ?_, ?_⟩⟩, victimSeen_iff hdict⟩
  · intro st hst
    rw [RowList.processErrors, hst]
    exact h
  · intro g st hg
    rw [Idle.processErrorsPrinting, hg]
    exact h
  · intro cfg' s' victim' hcfg
    rw [printed_visitRows, hcfg]
    exact h

/-- The example of the analysis with the other mapping. -/
def pairedConfig : HalfDouble.Config := { exampleConfig with rowMapping := .TypeBRowMapping }

/-- The analysis hammers the first victim. -/
def pairedState : HalfDouble.State :=
  { machine :=
      { rowGenerator := ⟨116, true, true, false, 0, 36, 36⟩
        iteration := 0
        totalReadCount := 950272
        dilution := 116
        readCount := 8192
        phase := .NOFLIP_DISTANCE_ONE }
    counts := Counts.empty }

/-- Errors in rows 4 and 6, which have different logical numbers. -/
theorem logicalView_iff_apart : (([(4, [⟨0, 1, 0⟩]), (6, [⟨0, 3, 0⟩])] : RowErrors).map Prod.fst).Nodup ∧
    (AllReported pairedConfig.rowMapping [(4, [⟨0, 1, 0⟩]), (6, [⟨0, 3, 0⟩])] ↔
      Distinct pairedConfig.rowMapping [(4, [⟨0, 1, 0⟩]), (6, [⟨0, 3, 0⟩])]) ∧
    (((visitRows pairedConfig pairedState 2 [(4, [⟨0, 1, 0⟩]), (6, [⟨0, 3, 0⟩])]).victimFlipped = true ↔
        HasErrors [(4, [⟨0, 1, 0⟩]), (6, [⟨0, 3, 0⟩])] (pairedConfig.rowMapping.logicalToPhysicalInt 2)) ↔
      VictimSeen pairedConfig.rowMapping [(4, [⟨0, 1, 0⟩]), (6, [⟨0, 3, 0⟩])] 2) :=
  ⟨by decide, logicalView_iff pairedConfig pairedState 2 [(4, [⟨0, 1, 0⟩]), (6, [⟨0, 3, 0⟩])] (by decide)⟩

/-- Of a flip in row 4 and two in row 5, the one in row 4 is lost; and a flip in row 5 alone is one in the victim of row
4. -/
theorem pair_overwritten :
    (RowList.processErrors ⟨.TypeBRowMapping, 0⟩ [(4, [⟨0, 1, 0⟩]), (5, [⟨0, 3, 0⟩])]).2 = [(2, 2)] ∧
    ¬ AllReported .TypeBRowMapping [(4, [⟨0, 1, 0⟩]), (5, [⟨0, 3, 0⟩])] ∧
    (visitRows pairedConfig pairedState 2 [(5, [⟨0, 1, 0⟩])]).victimFlipped = true ∧
    ¬ HasErrors [(5, [⟨0, 1, 0⟩])] (pairedConfig.rowMapping.logicalToPhysicalInt 2) := by
  refine ⟨by decide, fun h => ?_, by decide, fun h => ?_⟩
  · have hlen := (h.rowList ⟨.TypeBRowMapping, 0⟩ rfl).length_eq
    revert hlen
    decide
  · obtain ⟨item, hmem, hrow, -⟩ := h
    rw [List.mem_singleton.mp hmem] at hrow
    exact absurd hrow (by decide)

end RowhammerTester.Playbook
