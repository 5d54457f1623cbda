import RowhammerTester.Scripts.RowHammer.Entries
import Mathlib.Data.List.Forall2

/-!
# `display_errors`

The summary of `RowHammer` has an entry for every row.

* `displayErrors` : the function; `exists_displayErrors_iff` : its entries are `rowEntries`;
* `OwnSummary` : the entry of a row from its own records;
* `accurate_iff` : the summary of what `check_errors` returns is accurate exactly if every row has records and no two of
  them are in one column.
-/

namespace RowhammerTester.Scripts
open RowhammerTester.Playbook DramAddressConverter

namespace RowHammer

/-- `display_errors`, with the dictionary of addresses before and after. -/
def displayErrors (r : RowHammer) (doErrorSummary : Bool) (cache : Cache) (rowErrors : RowErrors) :
    Py (Option (List (String × RowEntry)) × Cache) :=
  if doErrorSummary then do
    let (writes, v) ← assignments r.settings r.converter r.bank false toString cache rowErrors
    return (some (Dictionary.assign writes), v.cache)
  else if r.verbose then do
    -- the records are only printed
    let v ← rowErrors.foldlM (fun v p =>
      p.2.foldlM (recordError r.settings r.converter r.bank p.1) { v with cols := [] }) ⟨[], none, cache⟩
    return (none, v.cache)
  else .ok (none, cache)

theorem toString_injective {n m : Nat} (h : toString n = toString m) : n = m := by
  have hdigits : Nat.toDigits 10 n = Nat.toDigits 10 m := by
    rw [← Nat.toList_repr, ← Nat.toList_repr, ← Nat.toString_eq_repr, ← Nat.toString_eq_repr, h]
  rw [← @Nat.ofDigitChars_toDigits 10 n (by decide) (by decide), hdigits,
    Nat.ofDigitChars_toDigits (by decide) (by decide)]

/-- The summary has the entries of the rows, each under its own key. -/
theorem exists_displayErrors_iff {r : RowHammer} {rowErrors : RowErrors} {cache : Cache}
    (haddr : ∀ p ∈ rowErrors, r.converter.Addressable r.bank p.1) (hnodup : (rowErrors.map Prod.fst).Nodup)
    (hc : Reached r.settings r.converter r.bank cache) (P : List (String × RowEntry) → Prop) :
    (∃ errDict cache', displayErrors r true cache rowErrors = .ok (some errDict, cache') ∧ P errDict) ↔
      ∃ entries, rowEntries r.converter r.bank false none none rowErrors = some entries ∧
        P (entries.map fun q => (toString q.1, q.2)) := by
  have hkeys : ∀ entries, rowEntries r.converter r.bank false none none rowErrors = some entries →
      Dictionary.assign (entries.map fun q => (toString q.1, q.2)) = entries.map fun q => (toString q.1, q.2) := by
    intro entries hentries
    apply Dictionary.assign_of_nodup
    have hnodup' := hnodup
    rw [← map_fst_rowEntries false hentries] at hnodup'
    rw [List.map_map, show Prod.fst ∘ (fun q : Nat × RowEntry => (toString q.1, q.2)) = toString ∘ Prod.fst from rfl,
      ← List.map_map]
    apply hnodup'.map
    intro n m hnm
    exact toString_injective hnm
  have hiff := exists_assignments_iff false toString r.load_eq haddr hc fun writes => P (Dictionary.assign writes)
  constructor
  · intro h
    obtain ⟨errDict, cache', hok, hP⟩ := h
    obtain ⟨⟨writes, v⟩, hassign, hok⟩ := Py.bind_eq_ok.mp hok
    cases hok
    obtain ⟨entries, hentries, hP'⟩ := hiff.mp ⟨writes, v, hassign, hP⟩
    exact ⟨entries, hentries, hkeys entries hentries ▸ hP'⟩
  · intro h
    obtain ⟨entries, hentries, hP⟩ := h
    obtain ⟨writes, v, hassign, hP'⟩ := hiff.mpr ⟨entries, hentries, (hkeys entries hentries).symm ▸ hP⟩
    refine ⟨Dictionary.assign writes, v.cache, ?_, hP'⟩
    unfold displayErrors
    rw [if_pos rfl, hassign]
    rfl

/-! ## Accuracy -/

section Accuracy
variable (r : RowHammer)

/-- The entry of a row says what its own records say. -/
structure OwnSummary (p : Nat × List RowError) (q : String × RowEntry) : Prop where
  key_eq : q.1 = toString p.1
  row_eq : q.2.row = p.1
  col_eq : ∀ col, (q.2.col.lookup col).getD [] =
    (p.2.filter fun e => r.converter.wordColumn e.index = col).flatMap fun e => bitflipList e.value e.expected
  bitflips_eq : q.2.bitflips = flips p.2

/-- The call returns an entry for every row, each with its own data. -/
def Accurate (cache : Cache) (rowErrors : RowErrors) : Prop :=
  ∃ errDict cache', displayErrors r true cache rowErrors = .ok (some errDict, cache') ∧
    List.Forall₂ (OwnSummary r) rowErrors errDict

/-- The row has records, no two of them in a column. -/
def Separate (p : Nat × List RowError) : Prop :=
  p.2 ≠ [] ∧ (p.2.map fun e => r.converter.wordColumn e.index).Nodup

variable {r} {row : Nat} {errors : List RowError} {rest : RowErrors}

theorem Checked.tail {p : Nat × List RowError} (h : Checked r (p :: rest)) : Checked r rest where
  nodup := (List.nodup_cons.mp h.nodup).2
  addressable q hq := h.addressable q (List.mem_cons_of_mem p hq)
  word q hq := h.word q (List.mem_cons_of_mem p hq)
  differ q hq := h.differ q (List.mem_cons_of_mem p hq)

theorem located_of_checked (h : Checked r ((row, errors) :: rest)) {e : RowError} (he : e ∈ errors) :
    r.converter.located r.bank row e.index = ((r.bank : Int), (row : Int), r.converter.wordColumn e.index) := by
  obtain ⟨i, hi, hlt⟩ := h.word _ List.mem_cons_self e he
  rw [hi]
  exact located_of_lt hlt (h.addressable _ List.mem_cons_self)

theorem lastRow_of_forall {c : DramAddressConverter} {bank : Nat} {y : Int} (before : Option Int)
    (h : ∀ e ∈ errors, (c.located bank row e.index).2.1 = y) (hne : errors ≠ []) :
    lastRow c bank row before errors = some y := by
  unfold lastRow
  rw [← List.dropLast_append_getLast hne, List.foldl_append, List.foldl_cons, List.foldl_nil,
    h _ (List.getLast_mem hne)]

theorem bitflipList_ne_nil {val exp : Nat} (h : val ≠ exp) : bitflipList val exp ≠ [] := by
  intro hnil
  rw [bitflipList_eq, List.map_eq_nil_iff] at hnil
  apply h
  apply Nat.eq_of_testBit_eq
  intro b
  have hb : b ∉ differingBits val exp := by simp [hnil]
  rw [mem_differingBits, Nat.testBit_xor] at hb
  cases hv : val.testBit b <;> cases he : exp.testBit b <;> simp_all

/-- The columns hold the flips of the row exactly if no column has two records. -/
theorem columns_eq_iff (h : Checked r ((row, errors) :: rest)) :
    (∀ col, ((Dictionary.assign (recordColumns r.converter r.bank row errors)).lookup col).getD [] =
      (errors.filter fun e => r.converter.wordColumn e.index = col).flatMap fun e => bitflipList e.value e.expected) ↔
      (errors.map fun e => r.converter.wordColumn e.index).Nodup := by
  have hcols : recordColumns r.converter r.bank row errors =
      errors.map fun e => (r.converter.wordColumn e.index, bitflipList e.value e.expected) := by
    apply List.map_congr_left
    intro e he
    rw [recordColumn, located_of_checked h he]
  have hlists : ∀ x ∈ (recordColumns r.converter r.bank row errors).map Prod.snd, x ≠ [] := by
    intro x hx
    rw [hcols, List.map_map, List.mem_map] at hx
    obtain ⟨e, he, rfl⟩ := hx
    exact bitflipList_ne_nil (h.differ _ List.mem_cons_self e he)
  have hiff := Dictionary.lookup_assign_eq_flatten_iff hlists
  rw [hcols] at hiff ⊢
  rw [List.map_map] at hiff
  rw [← show _ ↔ (errors.map fun e => r.converter.wordColumn e.index).Nodup from hiff]
  apply forall_congr'
  intro col
  rw [List.filter_map, List.map_map, List.flatMap_def]
  rfl

/-- The entries of checked records, the variables being unbound or from other rows. -/
theorem forall₂_rowEntries_iff (rowErrors : RowErrors) : ∀ (decodedRow : Option Int) (total : Option Nat),
    Checked r rowErrors → (∀ p ∈ rowErrors, decodedRow ≠ some (p.1 : Int)) →
    ((∃ entries, rowEntries r.converter r.bank false decodedRow total rowErrors = some entries ∧
      List.Forall₂ (fun p q => OwnSummary r p (toString q.1, q.2)) rowErrors entries) ↔
        ∀ p ∈ rowErrors, Separate r p) := by
  induction rowErrors with
  | nil =>
    intro decodedRow total _ _
    refine ⟨fun _ p hp => ?_, fun _ => ⟨[], rfl, .nil⟩⟩
    cases hp
  | cons p rest ih =>
    intro decodedRow total h hother
    obtain ⟨row, errors⟩ := p
    have hrow : decodedRow ≠ some (row : Int) := hother _ List.mem_cons_self
    have hin : false = true → InRow r.converter r.bank row errors := by simp
    by_cases hne : errors = []
    · -- a row without records keeps the values of the rows before it
      subst hne
      refine ⟨fun hacc => ?_, fun hall => absurd rfl (hall _ List.mem_cons_self).1⟩
      obtain ⟨entries, hentries, hforall⟩ := hacc
      obtain ⟨x, t, entries', hx, -, rfl⟩ := exists_of_rowEntries_nil_cons hentries
      have hown : x = (row : Int) := (List.forall₂_cons.mp hforall).1.row_eq
      rw [← hown] at hrow
      exact absurd hx hrow
    · have hx : lastRow r.converter r.bank row decodedRow errors = some (row : Int) :=
        lastRow_of_forall decodedRow (fun e he => by rw [located_of_checked h he]) hne
      have hnext : ∀ q ∈ rest, some (row : Int) ≠ some (q.1 : Int) := by
        intro q hq hsame
        have hmem : q.1 ∈ rest.map Prod.fst := List.mem_map_of_mem hq
        rw [show q.1 = row by simpa using hsame.symm] at hmem
        exact (List.nodup_cons.mp h.nodup).1 hmem
      rw [exists_rowEntries_cons_iff hin hne hx, List.forall_mem_cons,
        ← ih (some row) (some (flips errors)) h.tail hnext]
      constructor
      · intro hacc
        obtain ⟨entries, hentries, hforall⟩ := hacc
        obtain ⟨hown, hrest⟩ := List.forall₂_cons.mp hforall
        exact ⟨⟨hne, (columns_eq_iff h).mp hown.col_eq⟩, entries, hentries, hrest⟩
      · intro hsep
        obtain ⟨⟨-, hnodup⟩, entries, hentries, hrest⟩ := hsep
        refine ⟨entries, hentries, List.forall₂_cons.mpr ⟨?_, hrest⟩⟩
        exact ⟨rfl, rfl, (columns_eq_iff h).mpr hnodup, rfl⟩

end Accuracy

/-- **The error summary.** For the records that `check_errors` returns, in any order of the rows, the summary has for
every row an entry with its own number, flips and number of flips exactly if every row has records and no two records of
a row are in one column. -/
theorem accurate_iff (r : RowHammer) (mem : BusMemory) (rowPatterns : Nat → Option Nat) (before cache : Cache)
    (hbefore : Reached r.settings r.converter r.bank before) (checked rowErrors : RowErrors)
    (hcheck : checkErrors r mem rowPatterns before = .ok (checked, cache)) (horder : rowErrors.Perm checked) :
    Accurate r cache rowErrors ↔ ∀ p ∈ rowErrors, Separate r p := by
  obtain ⟨hc, hchecked⟩ := checked_of_checkErrors hbefore hcheck
  have h := hchecked.perm horder
  unfold Accurate
  rw [exists_displayErrors_iff h.addressable h.nodup hc]
  simp only [List.forall₂_map_right_iff]
  exact forall₂_rowEntries_iff rowErrors none none h fun p _ hnone => by cases hnone

/-! ## Two rows -/

/-- The script with the first two rows of a DDR3 module, to be filled with zeros. -/
def twoRows : RowHammer := { firstRow with nrows := 2 }

def zeroPatterns (row : Nat) : Option Nat := if row < 2 then some 0 else none

/-- One bit of the first word of row 0 has flipped, and one of the first word of row 1 if `both`. -/
def flipped (both : Bool) (address : Int) : Nat :=
  if address = 0x40000000 ∨ (both ∧ address = 0x40004000) then 1 else 0

theorem addressable_twoRows {row : Nat} (h : row < 2) : twoRows.converter.Addressable twoRows.bank row :=
  ⟨by decide +kernel, by decide, show row < 16384 by omega⟩

theorem checkErrors_twoRows (both : Bool) : ∃ cache, checkErrors twoRows (flipped both) zeroPatterns (fun _ => none) =
    .ok ([(0, wordErrors twoRows (flipped both) 0 0), (1, wordErrors twoRows (flipped both) 1 0)], cache) := by
  obtain ⟨cache₁, h₁, hc₁⟩ := exists_checkRow (flipped both) ([], fun _ => none) .empty
    (addressable_twoRows (show 0 < 2 by decide)) (show zeroPatterns 0 = some 0 from rfl)
  obtain ⟨cache₂, h₂, -⟩ := exists_checkRow (flipped both)
    (Dictionary.set [] 0 (wordErrors twoRows (flipped both) 0 0), cache₁) hc₁
    (addressable_twoRows (show 1 < 2 by decide)) (show zeroPatterns 1 = some 0 from rfl)
  refine ⟨cache₂, ?_⟩
  unfold checkErrors
  rw [show twoRows.rows = [0, 1] from rfl, List.foldlM_cons, h₁, Py.ok_bind, List.foldlM_cons, h₂]
  rfl

theorem wordErrors_zero (both : Bool) : wordErrors twoRows (flipped both) 0 0 = [⟨0, 1, 0⟩] := by
  cases both <;> decide +kernel

theorem wordErrors_one (both : Bool) :
    wordErrors twoRows (flipped both) 1 0 = if both then [⟨0, 1, 0⟩] else [] := by
  cases both <;> decide +kernel

/-- Both rows with a flip, listed in the other order. -/
theorem accurate_iff_twoRows : ∃ before cache checked,
    checkErrors twoRows (flipped true) zeroPatterns before = .ok (checked, cache) ∧
      Accurate twoRows cache [(1, [⟨0, 1, 0⟩]), (0, [⟨0, 1, 0⟩])] := by
  obtain ⟨cache, hcheck⟩ := checkErrors_twoRows true
  rw [wordErrors_zero, wordErrors_one] at hcheck
  refine ⟨fun _ => none, cache, _, hcheck, ?_⟩
  refine (accurate_iff twoRows (flipped true) zeroPatterns _ cache .empty _ _ hcheck (.swap _ _ _)).mpr fun p hp => ?_
  have hp2 : p.2 = [⟨0, 1, 0⟩] := by
    simp only [List.mem_cons, List.not_mem_nil, or_false] at hp
    rcases hp with rfl | rfl <;> rfl
  unfold Separate
  rw [hp2]
  exact ⟨by simp, by simp⟩

/-- Row 1 has no flips, and its entry has the number and the flips of row 0; listed first, it makes the call fail. -/
theorem clean_row_stale :
    (∃ cache, checkErrors twoRows (flipped false) zeroPatterns (fun _ => none) =
        .ok ([(0, [⟨0, 1, 0⟩]), (1, [])], cache) ∧
      (∃ cache', displayErrors twoRows true cache [(0, [⟨0, 1, 0⟩]), (1, [])] =
        .ok (some [("0", ⟨0, [(0, [0])], 1⟩), ("1", ⟨0, [], 1⟩)], cache')) ∧
      displayErrors twoRows true cache [(1, []), (0, [⟨0, 1, 0⟩])] = .error (.unboundLocalError "_row") ∧
      ¬ Accurate twoRows cache [(0, [⟨0, 1, 0⟩]), (1, [])]) := by
  obtain ⟨cache, hcheck⟩ := checkErrors_twoRows false
  rw [wordErrors_zero, wordErrors_one] at hcheck
  obtain ⟨hc, hchecked⟩ := checked_of_checkErrors .empty hcheck
  have hentries : rowEntries twoRows.converter twoRows.bank false none none [(0, [⟨0, 1, 0⟩]), (1, [])] =
      some [(0, ⟨0, [(0, [0])], 1⟩), (1, ⟨0, [], 1⟩)] := by
    decide +kernel
  have hiff := exists_displayErrors_iff hchecked.addressable hchecked.nodup hc
  refine ⟨cache, hcheck, ?_, rfl, fun hacc => ?_⟩
  · obtain ⟨errDict, cache', hok, rfl⟩ := (hiff (· = _)).mpr ⟨_, hentries, rfl⟩
    exact ⟨cache', hok⟩
  · obtain ⟨entries, hsome, hforall⟩ := (hiff _).mp hacc
    rw [if_neg (by decide), hentries] at hsome
    cases hsome
    have hown := (List.forall₂_cons.mp (List.forall₂_cons.mp hforall).2).1.row_eq
    exact absurd hown (by decide)

end RowHammer

end RowhammerTester.Scripts
