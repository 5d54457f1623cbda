import RowhammerTester.Scripts.RowHammer.Bitflips
import RowhammerTester.Scripts.RowHammer.Rows

/-!
# The records of errors

`check_errors` records the words of a row that are not the pattern by their index, and the logs write the flips of
every record under the column that the word of this index decodes to.

* `checkErrors` : the records; `Checked` : what is known of them (`checked_of_checkErrors`);
* `recordError` : the loop over the records of a row that `display_errors` and the payload generators have in common;
* `located` : the location that index `i` of a row decodes to; `located_of_lt` : for the words of a row this is the row
  and the column `wordColumn`;
* `columns` : what the loop collects (`foldlM_recordError`), a record replacing the one of its column.
-/

namespace RowhammerTester.Scripts
open RowhammerTester.Playbook DramAddressConverter

/-! ## Locations -/

namespace DramAddressConverter

/-- The shift of the 32-bit bus. -/
def busShift (c : DramAddressConverter) : Int :=
  match c.getBusShift 32 with
  | .ok shift => shift
  | .error _ => 0

/-- The row has bus addresses. -/
structure Addressable (c : DramAddressConverter) (bank row : Nat) : Prop where
  shift_eq : c.getBusShift 32 = .ok c.busShift
  bank_lt : bank < 2 ^ c.bankbits
  row_lt : row < 2 ^ c.rowbits

/-- The location of the word with index `i` from column 0 of a row on. -/
def located (c : DramAddressConverter) (bank row : Nat) (i : Int) : Int × Int × Int :=
  c.decode (shiftBy (shiftBy (c.flat bank row 0) c.busShift + 4 * i) (-c.busShift))

/-- The column of word `i` of a row. -/
def wordColumn (c : DramAddressConverter) (i : Int) : Int := shiftBy (4 * i) (-c.busShift)

end DramAddressConverter

section Locations
variable {c : DramAddressConverter} {bank row : Nat}

theorem addressable_of_shift {shift : Int} (hshift : c.getBusShift 32 = .ok shift) (hb : bank < 2 ^ c.bankbits)
    (hr : row < 2 ^ c.rowbits) : c.Addressable bank row ∧ c.busShift = shift := by
  have heq : c.busShift = shift := by
    unfold busShift
    rw [hshift]
  exact ⟨⟨heq ▸ hshift, hb, hr⟩, heq⟩

theorem decodeBus_columnAddress (h : c.Addressable bank row) (i : Int) :
    c.decodeBus (c.columnAddress c.busShift bank row 0 + 4 * i) 0x40000000 32 = .ok (c.located bank row i) := by
  unfold columnAddress located
  rw [Int.add_assoc, decodeBus_of_shift h.shift_eq]

theorem flat_zero_add (col : Nat) : c.flat bank row 0 + col = c.flat bank row col := by
  unfold flat
  omega

theorem flat_zero : c.flat bank row 0 = 2 ^ c.colbits * (bank + 2 ^ c.bankbits * row) := by
  unfold flat
  omega

section Shifts
variable {i s k : Nat} (hi : (i : Int) < RowHammer.words c c.busShift bank row)
include hi

/-- Words in columns of `2 ^ s` bytes. -/
theorem column_lt_of_left (hs : c.busShift = s) : 4 * i / 2 ^ s < 2 ^ c.colbits := by
  have hle : (2 ^ c.colbits - 1) * 2 ^ s ≤ 2 ^ c.colbits * 2 ^ s := Nat.mul_le_mul_right _ (Nat.sub_le _ _)
  unfold RowHammer.words columnAddress at hi
  rw [Int.fdiv_eq_ediv_of_nonneg _ (by decide), hs, shiftBy_left, shiftBy_left, ← flat_zero_add, Nat.add_mul] at hi
  rw [Nat.div_lt_iff_lt_mul (Nat.two_pow_pos s)]
  omega

/-- Words of `2 ^ k` columns in a byte; a row that is part of a byte has no words. -/
theorem column_lt_of_right (hk : c.busShift = -(k : Int)) : k ≤ c.colbits ∧ 4 * i * 2 ^ k < 2 ^ c.colbits := by
  have hpos := Nat.two_pow_pos c.colbits
  unfold RowHammer.words columnAddress at hi
  rw [Int.fdiv_eq_ediv_of_nonneg _ (by decide), hk, shiftBy_right, shiftBy_right, ← flat_zero_add] at hi
  have hend : c.flat bank row 0 / 2 ^ k + 4 * i < (c.flat bank row 0 + (2 ^ c.colbits - 1)) / 2 ^ k := by omega
  rcases Nat.le_total k c.colbits with hle | hle
  · refine ⟨hle, ?_⟩
    have hmul : c.flat bank row 0 / 2 ^ k * 2 ^ k = c.flat bank row 0 := by
      apply Nat.div_mul_cancel
      rw [flat_zero]
      exact (pow_dvd_pow 2 hle).mul_right _
    have hbound := (Nat.le_div_iff_mul_le (Nat.two_pow_pos k)).mp hend.le
    rw [Nat.add_mul, hmul] at hbound
    omega
  · obtain ⟨d, hd⟩ := Nat.exists_eq_add_of_le hle
    have hsame : (c.flat bank row 0 + (2 ^ c.colbits - 1)) / 2 ^ k = c.flat bank row 0 / 2 ^ k := by
      rw [flat_zero, hd, pow_add, ← Nat.div_div_eq_div_mul, ← Nat.div_div_eq_div_mul, Nat.mul_add_div hpos,
        Nat.mul_div_cancel_left _ hpos, Nat.div_eq_of_lt (by omega : 2 ^ c.colbits - 1 < 2 ^ c.colbits), Nat.add_zero]
    omega

/-- The words of a row are located in it. -/
theorem located_of_lt (h : c.Addressable bank row) :
    c.located bank row i = ((bank : Int), (row : Int), c.wordColumn i) := by
  obtain ⟨-, hb, hr⟩ := h
  have hfour : 4 * (i : Int) = ((4 * i : Nat) : Int) := by omega
  unfold located wordColumn
  rcases Int.le_total 0 c.busShift with hs | hs
  · obtain ⟨s, hs⟩ := Int.eq_ofNat_of_zero_le hs
    have hlt := column_lt_of_left hi hs
    rw [hs, hfour, shiftBy_left, ← Nat.cast_add, shiftBy_right, shiftBy_right, Nat.mul_comm,
      Nat.mul_add_div (Nat.two_pow_pos s), flat_zero_add, decode_flat ⟨hb, hr, hlt⟩]
  · obtain ⟨k, hk⟩ := Int.eq_ofNat_of_zero_le (show 0 ≤ -c.busShift by omega)
    obtain ⟨hle, hlt⟩ := column_lt_of_right hi (show c.busShift = -(k : Int) by omega)
    have hdvd : 2 ^ k ∣ c.flat bank row 0 := by
      rw [flat_zero]
      exact (pow_dvd_pow 2 hle).mul_right _
    rw [show c.busShift = -(k : Int) by omega, hfour, shiftBy_right, Int.neg_neg, ← Nat.cast_add, shiftBy_left,
      shiftBy_left, Nat.add_mul, Nat.div_mul_cancel hdvd, flat_zero_add, decode_flat ⟨hb, hr, hlt⟩]

end Shifts

end Locations

/-! ## The loop over the records of a row -/

/-- The variables of the loop: `cols`, `_row` once it is bound, and the dictionary of addresses. -/
structure RecordVars where
  cols : List (Int × List Nat)
  decodedRow : Option Int
  cache : Cache

section Loop
variable (settings : Settings) (c : DramAddressConverter) (bank row : Nat)

/-- A round of the loop over the records of a row. -/
def recordError (v : RecordVars) (e : RowError) : Py RecordVars := do
  let (addresses, cache) ← addressesPerRow settings c v.cache bank row
  let baseAddr ← Py.min addresses
  let addr := baseAddr + 4 * e.index
  let (_, decodedRow, col) ← c.decodeBus addr 0x40000000 32
  return { cols := Dictionary.set v.cols col (RowHammer.bitflipList e.value e.expected)
           decodedRow := some decodedRow
           cache := cache }

/-- The column of a record. -/
def recordColumn (e : RowError) : Int := (c.located bank row e.index).2.2

/-- The flips of the records by their columns. -/
def recordColumns (errors : List RowError) : List (Int × List Nat) :=
  errors.map fun e => (recordColumn c bank row e, RowHammer.bitflipList e.value e.expected)

/-- `_row` behind the loop. -/
def lastRow (before : Option Int) (errors : List RowError) : Option Int :=
  errors.foldl (fun _ e => some (c.located bank row e.index).2.1) before

variable {settings c bank row}

theorem recordError_eq (hload : settings.load = .ok c) (h : c.Addressable bank row) {v : RecordVars}
    (hc : Reached settings c bank v.cache) (e : RowError) : ∃ cache', recordError settings c bank row v e =
      .ok ⟨Dictionary.set v.cols (recordColumn c bank row e) (RowHammer.bitflipList e.value e.expected),
        some (c.located bank row e.index).2.1, cache'⟩ ∧ Reached settings c bank cache' := by
  have hcols := (columnAddresses_eq_ok hload).mpr ⟨c.busShift, h.shift_eq, h.bank_lt, h.row_lt, rfl⟩
  obtain ⟨cache', hreq, hc'⟩ := hc.exists_request hcols
  refine ⟨cache', ?_, hc'⟩
  unfold recordError
  rw [hreq, Py.ok_bind]
  dsimp only
  rw [min_columnAddresses, Py.ok_bind, decodeBus_columnAddress h]
  rfl

/-- The loop assigns the flips to the columns. -/
theorem foldlM_recordError (hload : settings.load = .ok c) (h : c.Addressable bank row) (errors : List RowError) :
    ∀ {v : RecordVars}, Reached settings c bank v.cache →
      ∃ cache', errors.foldlM (recordError settings c bank row) v =
        .ok ⟨(recordColumns c bank row errors).foldl (fun d p => Dictionary.set d p.1 p.2) v.cols,
          lastRow c bank row v.decodedRow errors, cache'⟩ ∧ Reached settings c bank cache' := by
  induction errors with
  | nil =>
    intro v hc
    exact ⟨v.cache, rfl, hc⟩
  | cons e errors ih =>
    intro v hc
    obtain ⟨cache₁, hstep, hc₁⟩ := recordError_eq hload h hc e
    rw [List.foldlM_cons, hstep, Py.ok_bind]
    exact ih hc₁

end Loop

/-! ## `check_errors` -/

namespace RowHammer
variable (r : RowHammer) (mem : BusMemory) (rowPatterns : Nat → Option Nat)

/-- A round of `check_errors`. -/
def checkRow (st : RowErrors × Cache) (row : Nat) : Py (RowErrors × Cache) := do
  let ((row, n, base), cache) ← r.rowAccess st.2 row
  let pattern ← Py.ofOption (.keyError (toString row)) (rowPatterns row)
  let errors ← memcheck mem n.toNat pattern base 255
  return (Dictionary.set st.1 row (errors.map fun p => ⟨p.1, p.2, pattern⟩), cache)

/-- `check_errors`: the iterator is advanced before every row is read. -/
def checkErrors (cache : Cache) : Py (RowErrors × Cache) := r.rows.foldlM (checkRow r mem rowPatterns) ([], cache)

/-- What the records of `check_errors` are: words of rows that have addresses, with another value than expected. -/
structure Checked (rowErrors : RowErrors) : Prop where
  nodup : (rowErrors.map Prod.fst).Nodup
  addressable : ∀ p ∈ rowErrors, r.converter.Addressable r.bank p.1
  word : ∀ p ∈ rowErrors, ∀ e ∈ p.2, ∃ i : Nat, e.index = i ∧
    (i : Int) < words r.converter r.converter.busShift r.bank p.1
  differ : ∀ p ∈ rowErrors, ∀ e ∈ p.2, e.value ≠ e.expected

/-- The records of a row. -/
def wordErrors (row pattern : Nat) : List RowError :=
  ((List.range (words r.converter r.converter.busShift r.bank row).toNat).filter fun i : Nat =>
    mem (r.converter.columnAddress r.converter.busShift r.bank row 0 + 4 * i) ≠ pattern).map fun i : Nat =>
      ⟨i, mem (r.converter.columnAddress r.converter.busShift r.bank row 0 + 4 * i), pattern⟩

variable {r mem rowPatterns}

theorem Checked.perm {l l' : RowErrors} (h : Checked r l) (hp : l'.Perm l) : Checked r l' where
  nodup := (hp.map Prod.fst).nodup_iff.mpr h.nodup
  addressable p hmem := h.addressable p (hp.mem_iff.mp hmem)
  word p hmem := h.word p (hp.mem_iff.mp hmem)
  differ p hmem := h.differ p (hp.mem_iff.mp hmem)

theorem checkRow_eq_ok {st st' : RowErrors × Cache} {row : Nat}
    (hc : Reached r.settings r.converter r.bank st.2) (h : checkRow r mem rowPatterns st row = .ok st') :
    Reached r.settings r.converter r.bank st'.2 ∧ r.converter.Addressable r.bank row ∧ ∃ errors,
      st'.1 = Dictionary.set st.1 row errors ∧ ∀ e ∈ errors, e.value ≠ e.expected ∧
        ∃ i : Nat, e.index = i ∧ (i : Int) < words r.converter r.converter.busShift r.bank row := by
  obtain ⟨⟨access, after⟩, haccess, h⟩ := Py.bind_eq_ok.mp h
  obtain ⟨hafter, shift, hshift, hb, hr, rfl⟩ := rowAccess_eq_ok hc haccess
  obtain ⟨haddr, rfl⟩ := addressable_of_shift hshift hb hr
  obtain ⟨pattern, -, h⟩ := Py.bind_eq_ok.mp h
  rw [memcheck_eq mem _ pattern _ (by decide), Py.ok_bind] at h
  cases h
  refine ⟨hafter, haddr, _, rfl, fun e he => ?_⟩
  simp only [List.map_map, List.mem_map, List.mem_filter, List.mem_range, Function.comp_apply] at he
  obtain ⟨i, ⟨hi, hne⟩, rfl⟩ := he
  exact ⟨by simpa using hne, i, rfl, by omega⟩

theorem exists_checkRow (mem : BusMemory) (st : RowErrors × Cache) {row pattern : Nat}
    (hc : Reached r.settings r.converter r.bank st.2) (h : r.converter.Addressable r.bank row)
    (hp : rowPatterns row = some pattern) : ∃ cache', checkRow r mem rowPatterns st row =
      .ok (Dictionary.set st.1 row (wordErrors r mem row pattern), cache') ∧
        Reached r.settings r.converter r.bank cache' := by
  obtain ⟨cache', haccess, hc'⟩ := exists_rowAccess hc h.shift_eq h.bank_lt h.row_lt
  refine ⟨cache', ?_, hc'⟩
  unfold checkRow
  rw [haccess, Py.ok_bind]
  dsimp only
  rw [hp, Py.ofOption, Py.ok_bind, memcheck_eq mem _ pattern _ (by decide), Py.ok_bind, List.map_map]
  rfl

/-- Rows that are checked one after the other keep their own records. -/
theorem Checked.concat {rowErrors : RowErrors} (h : Checked r rowErrors) {row : Nat} {errors : List RowError}
    (hfresh : row ∉ rowErrors.map Prod.fst) (haddr : r.converter.Addressable r.bank row)
    (herrors : ∀ e ∈ errors, e.value ≠ e.expected ∧
      ∃ i : Nat, e.index = i ∧ (i : Int) < words r.converter r.converter.busShift r.bank row) :
    Checked r (rowErrors ++ [(row, errors)]) := by
  refine ⟨?_, fun p hp => ?_, fun p hp => ?_, fun p hp => ?_⟩
  · rw [List.map_append, List.map_singleton, ← List.concat_eq_append]
    exact h.nodup.concat hfresh
  all_goals
    rcases List.mem_append.mp hp with hp | hp
  · exact h.addressable p hp
  · rw [List.mem_singleton.mp hp]
    exact haddr
  · exact h.word p hp
  · rw [List.mem_singleton.mp hp]
    exact fun e he => (herrors e he).2
  · exact h.differ p hp
  · rw [List.mem_singleton.mp hp]
    exact fun e he => (herrors e he).1

theorem foldlM_checkRow (rows : List Nat) : ∀ {st st' : RowErrors × Cache},
    Reached r.settings r.converter r.bank st.2 → Checked r st.1 → rows.Nodup →
    (∀ row ∈ rows, row ∉ st.1.map Prod.fst) → rows.foldlM (checkRow r mem rowPatterns) st = .ok st' →
    Reached r.settings r.converter r.bank st'.2 ∧ Checked r st'.1 := by
  induction rows with
  | nil =>
    intro st st' hc hst _ _ h
    cases h
    exact ⟨hc, hst⟩
  | cons row rows ih =>
    intro st st' hc hst hnodup hfresh h
    rw [List.foldlM_cons] at h
    obtain ⟨st₁, hrow, h⟩ := Py.bind_eq_ok.mp h
    obtain ⟨hc₁, haddr, errors, hset, herrors⟩ := checkRow_eq_ok hc hrow
    have hnew := hfresh row List.mem_cons_self
    rw [Dictionary.set_of_not_mem hnew] at hset
    refine ih hc₁ (hset ▸ hst.concat hnew haddr herrors) hnodup.of_cons (fun row' hmem hin => ?_) h
    rw [hset, List.map_append, List.mem_append, List.map_singleton, List.mem_singleton] at hin
    rcases hin with hin | hin
    · exact hfresh row' (List.mem_cons_of_mem row hmem) hin
    · rw [hin] at hmem
      exact (List.nodup_cons.mp hnodup).1 hmem

theorem nodup_rows (r : RowHammer) : r.rows.Nodup := by
  unfold rows
  apply List.nodup_range.map
  intro a b h
  exact Nat.add_left_cancel h

theorem checked_of_checkErrors {cache cache' : Cache} {rowErrors : RowErrors}
    (hc : Reached r.settings r.converter r.bank cache)
    (h : checkErrors r mem rowPatterns cache = .ok (rowErrors, cache')) :
    Reached r.settings r.converter r.bank cache' ∧ Checked r rowErrors := by
  have hnil : Checked r [] := ⟨List.nodup_nil, by simp, by simp, by simp⟩
  exact foldlM_checkRow r.rows hc hnil (nodup_rows r) (by simp) h

end RowHammer

end RowhammerTester.Scripts
