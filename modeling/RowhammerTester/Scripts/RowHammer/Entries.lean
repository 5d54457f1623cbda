import RowhammerTester.Scripts.RowHammer.Records

/-!
# The entries of an error log

`display_errors`, `process_errors` of the logged row lists and `update_log` of the idle payloads write one entry for
every row with the same loop. The row number and the number of flips are local variables of the whole call, which only
rows with records assign; the payload generators also assert that a record decodes to its row.

* `RowEntry`, `entryRound`, `assignments` : the entries and the loop over the rows, in the order of the assignments;
* `rowEntries` : the entries as a function of the dictionary of records (`exists_assignments_iff`).
-/

namespace RowhammerTester.Scripts
open RowhammerTester.Playbook DramAddressConverter

/-- The entry of a row: `row` (`physical_row` in the playbook), `col` and `bitflips`. -/
structure RowEntry where
  row : Int
  col : List (Int × List Nat)
  bitflips : Nat
deriving DecidableEq, Repr

/-- The local variables of the call, `_row` and `flips` once they are bound, and the dictionary of addresses. -/
structure EntryVars where
  decodedRow : Option Int
  flips : Option Nat
  cache : Cache

section Loop
variable (settings : Settings) (c : DramAddressConverter) (bank : Nat) (asserted : Bool)

/-- A record, with `assert row == _row` where the code has it. -/
def recordChecked (row : Nat) (v : RecordVars) (e : RowError) : Py RecordVars := do
  let v ← recordError settings c bank row v e
  Py.check (asserted = true → v.decodedRow = some (row : Int)) (.assertionError "")
  return v

/-- `flips` behind a row. -/
def lastFlips (before : Option Nat) (errors : List RowError) : Option Nat :=
  if errors.length > 0 then some (flips errors) else before

/-- A round of the loop over the rows. -/
def entryRound (v : EntryVars) (p : Nat × List RowError) : Py (RowEntry × EntryVars) := do
  let flips := lastFlips v.flips p.2
  let w ← p.2.foldlM (recordChecked settings c bank asserted p.1) ⟨[], v.decodedRow, v.cache⟩
  let row ← Py.ofOption (.unboundLocalError "_row") w.decodedRow
  let bitflips ← Py.ofOption (.unboundLocalError "flips") flips
  return (⟨row, w.cols, bitflips⟩, ⟨w.decodedRow, flips, w.cache⟩)

variable {κ : Type} (key : Nat → κ)

/-- The assignment of an entry to the key of the row. -/
def writeEntry (st : List (κ × RowEntry) × EntryVars) (p : Nat × List RowError) :
    Py (List (κ × RowEntry) × EntryVars) := do
  let (entry, v) ← entryRound settings c bank asserted st.2 p
  return (st.1 ++ [(key p.1, entry)], v)

/-- The assignments of a call. -/
def assignments (cache : Cache) (rowErrors : RowErrors) : Py (List (κ × RowEntry) × EntryVars) :=
  rowErrors.foldlM (writeEntry settings c bank asserted key) ([], ⟨none, none, cache⟩)

end Loop

/-! ## The entries as a function of the records -/

section Pure
variable (c : DramAddressConverter) (bank : Nat) (asserted : Bool)

/-- The records decode to their row. -/
def InRow (row : Nat) (errors : List RowError) : Prop := ∀ e ∈ errors, (c.located bank row e.index).2.1 = row

instance (row : Nat) (errors : List RowError) : Decidable (InRow c bank row errors) :=
  inferInstanceAs (Decidable (∀ e ∈ errors, (c.located bank row e.index).2.1 = row))

/-- The rows and their entries from the values of `_row` and `flips` on, if nothing is raised. -/
def rowEntries : Option Int → Option Nat → RowErrors → Option (List (Nat × RowEntry))
  | _, _, [] => some []
  | decodedRow, total, (row, errors) :: rest =>
    if asserted = true → InRow c bank row errors then
      match lastRow c bank row decodedRow errors, lastFlips total errors with
      | some x, some t =>
        (rowEntries (some x) (some t) rest).map
          ((row, ⟨x, Dictionary.assign (recordColumns c bank row errors), t⟩) :: ·)
      | _, _ => none
    else none

variable {c bank asserted} {row : Nat} {errors : List RowError}

/-- A row with records has an entry of its own, and the rows behind it have its values. -/
theorem exists_rowEntries_cons_iff (hin : asserted = true → InRow c bank row errors) (hne : errors ≠ [])
    {before : Option Int} {x : Int} (hx : lastRow c bank row before errors = some x) (total : Option Nat)
    (rest : RowErrors) (P : List (Nat × RowEntry) → Prop) :
    (∃ entries, rowEntries c bank asserted before total ((row, errors) :: rest) = some entries ∧ P entries) ↔
      ∃ entries, rowEntries c bank asserted (some x) (some (flips errors)) rest = some entries ∧
        P ((row, ⟨x, Dictionary.assign (recordColumns c bank row errors), flips errors⟩) :: entries) := by
  have ht : lastFlips total errors = some (flips errors) := if_pos (List.length_pos_iff.mpr hne)
  rw [rowEntries, if_pos hin, hx, ht]
  constructor
  · intro h
    obtain ⟨entries, hentries, hP⟩ := h
    obtain ⟨entries', hentries', rfl⟩ := Option.map_eq_some_iff.mp hentries
    exact ⟨entries', hentries', hP⟩
  · intro h
    obtain ⟨entries, hentries, hP⟩ := h
    exact ⟨_, Option.map_eq_some_iff.mpr ⟨entries, hentries, rfl⟩, hP⟩

/-- A row without records has the values of the rows before it. -/
theorem exists_of_rowEntries_nil_cons {before : Option Int} {total : Option Nat} {rest : RowErrors}
    {entries : List (Nat × RowEntry)} (h : rowEntries c bank asserted before total ((row, []) :: rest) = some entries) :
    ∃ x t entries', before = some x ∧ total = some t ∧ entries = (row, ⟨x, [], t⟩) :: entries' := by
  have hin : asserted = true → InRow c bank row [] := fun _ e he => absurd he List.not_mem_nil
  rw [rowEntries, if_pos hin] at h
  split at h
  · next x t hx ht =>
    obtain ⟨entries', -, rfl⟩ := Option.map_eq_some_iff.mp h
    exact ⟨x, t, entries', hx, ht, rfl⟩
  · cases h

end Pure

section Run
variable {settings : Settings} {c : DramAddressConverter} {bank : Nat} {asserted : Bool} {row : Nat}
  {errors : List RowError} (hload : settings.load = .ok c) (h : c.Addressable bank row)
include hload h

theorem foldlM_recordChecked (hrow : asserted = true → InRow c bank row errors) : ∀ {v : RecordVars},
    Reached settings c bank v.cache → errors.foldlM (recordChecked settings c bank asserted row) v =
      errors.foldlM (recordError settings c bank row) v := by
  induction errors with
  | nil =>
    intro v _
    rfl
  | cons e errors ih =>
    intro v hc
    obtain ⟨cache', hstep, hc'⟩ := recordError_eq hload h hc e
    have he : asserted = true → some (c.located bank row e.index).2.1 = some (row : Int) :=
      fun ha => congrArg some (hrow ha e List.mem_cons_self)
    rw [List.foldlM_cons, List.foldlM_cons, recordChecked, hstep, Py.ok_bind, Py.check_of_pos he, Py.ok_bind]
    exact ih (fun ha x hx => hrow ha x (List.mem_cons_of_mem e hx)) hc'

theorem foldlM_recordChecked_of_not (hrow : ¬ (asserted = true → InRow c bank row errors)) : ∀ {v : RecordVars},
    Reached settings c bank v.cache → ∃ e, errors.foldlM (recordChecked settings c bank asserted row) v = .error e := by
  rw [Classical.not_imp] at hrow
  obtain ⟨ha, hrow⟩ := hrow
  induction errors with
  | nil => exact absurd (fun e he => by cases he) hrow
  | cons e errors ih =>
    intro v hc
    obtain ⟨cache', hstep, hc'⟩ := recordError_eq hload h hc e
    rw [List.foldlM_cons, recordChecked, hstep, Py.ok_bind]
    by_cases he : (c.located bank row e.index).2.1 = row
    · rw [Py.check_of_pos (fun _ => congrArg some he), Py.ok_bind]
      refine ih (fun hin => hrow fun x hx => ?_) hc'
      rcases List.mem_cons.mp hx with rfl | hx
      · exact he
      · exact hin x hx
    · rw [Py.check_of_neg (fun himp => he (Option.some.inj (himp ha)))]
      exact ⟨_, rfl⟩

variable {v : EntryVars} (hc : Reached settings c bank v.cache)
include hc

/-- A row with records, or behind one, gets an entry. -/
theorem entryRound_of_some (hrow : asserted = true → InRow c bank row errors) {x : Int} {t : Nat}
    (hx : lastRow c bank row v.decodedRow errors = some x) (ht : lastFlips v.flips errors = some t) :
    ∃ cache', entryRound settings c bank asserted v (row, errors) =
      .ok (⟨x, Dictionary.assign (recordColumns c bank row errors), t⟩, ⟨some x, some t, cache'⟩) ∧
        Reached settings c bank cache' := by
  have hstart : Reached settings c bank (RecordVars.mk [] v.decodedRow v.cache).cache := hc
  obtain ⟨cache', hrun, hc'⟩ := foldlM_recordError hload h errors hstart
  refine ⟨cache', ?_, hc'⟩
  unfold entryRound
  dsimp only
  rw [foldlM_recordChecked hload h hrow hstart, hrun, Py.ok_bind]
  dsimp only
  rw [hx, ht]
  rfl

theorem entryRound_of_none (hnone : (asserted = true → InRow c bank row errors) →
      lastRow c bank row v.decodedRow errors = none ∨ lastFlips v.flips errors = none) :
    ∃ e, entryRound settings c bank asserted v (row, errors) = .error e := by
  have hstart : Reached settings c bank (RecordVars.mk [] v.decodedRow v.cache).cache := hc
  unfold entryRound
  dsimp only
  by_cases hrow : asserted = true → InRow c bank row errors
  · obtain ⟨cache', hrun, -⟩ := foldlM_recordError hload h errors hstart
    rw [foldlM_recordChecked hload h hrow hstart, hrun, Py.ok_bind]
    dsimp only
    cases hx : lastRow c bank row v.decodedRow errors with
    | none => exact ⟨_, rfl⟩
    | some x =>
      rw [(hnone hrow).resolve_left (by simp [hx])]
      exact ⟨_, rfl⟩
  · obtain ⟨e, he⟩ := foldlM_recordChecked_of_not hload h hrow hstart
    rw [he]
    exact ⟨e, rfl⟩

end Run

section Rows
variable {settings : Settings} {c : DramAddressConverter} {bank : Nat} (asserted : Bool) {κ : Type} (key : Nat → κ)
  (hload : settings.load = .ok c)
include hload

/-- The rows one after the other. -/
theorem foldlM_writeEntry (rowErrors : RowErrors) : ∀ (writes : List (κ × RowEntry)) (v : EntryVars),
    (∀ p ∈ rowErrors, c.Addressable bank p.1) → Reached settings c bank v.cache →
    match rowEntries c bank asserted v.decodedRow v.flips rowErrors with
    | some entries => ∃ v', rowErrors.foldlM (writeEntry settings c bank asserted key) (writes, v) =
        .ok (writes ++ entries.map fun q => (key q.1, q.2), v')
    | none => ∃ e, rowErrors.foldlM (writeEntry settings c bank asserted key) (writes, v) = .error e := by
  induction rowErrors with
  | nil =>
    intro writes v _ _
    exact ⟨v, by rw [List.map_nil, List.append_nil]; rfl⟩
  | cons p rest ih =>
    intro writes v haddr hc
    obtain ⟨row, errors⟩ := p
    have hrow : c.Addressable bank row := haddr _ List.mem_cons_self
    have hfail : (∃ e, entryRound settings c bank asserted v (row, errors) = .error e) →
        ∃ e, ((row, errors) :: rest).foldlM (writeEntry settings c bank asserted key) (writes, v) = .error e := by
      intro herr
      obtain ⟨e, he⟩ := herr
      refine ⟨e, ?_⟩
      rw [List.foldlM_cons, writeEntry, he]
      rfl
    rw [rowEntries]
    by_cases hin : asserted = true → InRow c bank row errors
    · rw [if_pos hin]
      cases hx : lastRow c bank row v.decodedRow errors with
      | none => exact hfail (entryRound_of_none hload hrow hc fun _ => Or.inl hx)
      | some x =>
        cases ht : lastFlips v.flips errors with
        | none => exact hfail (entryRound_of_none hload hrow hc fun _ => Or.inr ht)
        | some t =>
          obtain ⟨cache', hround, hc'⟩ := entryRound_of_some hload hrow hc hin hx ht
          have hih := ih (writes ++ [(key row, ⟨x, Dictionary.assign (recordColumns c bank row errors), t⟩)])
            ⟨some x, some t, cache'⟩ (fun q hq => haddr q (List.mem_cons_of_mem _ hq)) hc'
          rw [List.foldlM_cons, writeEntry, hround]
          dsimp only at hih ⊢
          cases hs : rowEntries c bank asserted (some x) (some t) rest with
          | none =>
            rw [hs] at hih
            exact hih
          | some entries =>
            rw [hs] at hih
            obtain ⟨v', hv'⟩ := hih
            refine ⟨v', ?_⟩
            rw [List.map_cons, ← List.singleton_append, ← List.append_assoc]
            exact hv'
    · rw [if_neg hin]
      exact hfail (entryRound_of_none hload hrow hc fun himp => absurd himp hin)

/-- The assignments are `rowEntries`. -/
theorem exists_assignments_iff {rowErrors : RowErrors} {cache : Cache}
    (haddr : ∀ p ∈ rowErrors, c.Addressable bank p.1) (hc : Reached settings c bank cache)
    (P : List (κ × RowEntry) → Prop) :
    (∃ writes v, assignments settings c bank asserted key cache rowErrors = .ok (writes, v) ∧ P writes) ↔
      ∃ entries, rowEntries c bank asserted none none rowErrors = some entries ∧
        P (entries.map fun q => (key q.1, q.2)) := by
  have hrun := foldlM_writeEntry asserted key hload rowErrors [] ⟨none, none, cache⟩ haddr hc
  dsimp only at hrun
  unfold assignments
  cases hs : rowEntries c bank asserted none none rowErrors with
  | none =>
    rw [hs] at hrun
    obtain ⟨e, he⟩ := hrun
    rw [he]
    simp
  | some entries =>
    rw [hs] at hrun
    obtain ⟨v', hv'⟩ := hrun
    rw [hv']
    simp

omit hload in
/-- The entries are those of the rows. -/
theorem map_fst_rowEntries {rowErrors : RowErrors} : ∀ {decodedRow : Option Int} {total : Option Nat}
    {entries : List (Nat × RowEntry)}, rowEntries c bank asserted decodedRow total rowErrors = some entries →
    entries.map Prod.fst = rowErrors.map Prod.fst := by
  induction rowErrors with
  | nil =>
    intro decodedRow total entries h
    cases h
    rfl
  | cons p rest ih =>
    intro decodedRow total entries h
    rw [rowEntries] at h
    split at h
    · split at h
      · obtain ⟨entries', hrest, rfl⟩ := Option.map_eq_some_iff.mp h
        rw [List.map_cons, List.map_cons, ih hrest]
      · cases h
    · cases h

end Rows

end RowhammerTester.Scripts
