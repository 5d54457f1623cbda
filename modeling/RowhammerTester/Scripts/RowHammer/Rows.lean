import RowhammerTester.Playbook.DecodeErrors
import RowhammerTester.Scripts.Bus
import Mathlib.Data.Int.ConditionallyCompleteOrder
import Mathlib.Order.ConditionallyCompleteLattice.Basic

/-!
# The rows of `RowHammer`

The script fills and checks a row as a range of bus words, whose length it takes from the addresses of the first and of
the last column.

* `columnAddresses` : the addresses of the columns of a row; `Reached` : the dictionaries in which an object keeps them
  (`Reached.sound`: with one bank, the dictionary is not seen);
* `RowHammer`, `rows`, `rowAccess`, `rowAccessIterator`, `checkErrors` : the object and its methods;
* `rowSpan` : the bus addresses of a row;
* `range_ne_rowSpan` : the range never is the row, since it ends before the last column.
-/

namespace RowhammerTester.Scripts
open RowhammerTester.Playbook DramAddressConverter

/-! ## The addresses of a row -/

/-- The bus address of a column for a bus shift. -/
def DramAddressConverter.columnAddress (c : DramAddressConverter) (shift : Int) (bank row col : Nat) : Int :=
  0x40000000 + shiftBy (c.flat bank row col) shift

section Addresses
variable (settings : Settings) (c : DramAddressConverter) (bank : Nat)

/-- The bus addresses of the columns of a row. -/
def columnAddresses (row : Nat) : Py (List Int) :=
  (List.range (2 ^ settings.colbits)).mapM fun col => c.encodeBus bank row col 0x40000000 32

/-- The dictionaries `_addresses_per_row` of an object with a fixed bank: `addresses_per_row` alone fills them. -/
inductive Reached : Cache → Prop
  | empty : Reached fun _ => none
  | request {cache cache' : Cache} {row : Nat} {addresses : List Int} (before : Reached cache)
      (h : addressesPerRow settings c cache bank row = .ok (addresses, cache')) : Reached cache'

variable {settings c bank} {cache cache' : Cache} {row : Nat} {addresses : List Int}

theorem addressesPerRow_of_none (h : cache row = none) : addressesPerRow settings c cache bank row =
    (columnAddresses settings c bank row >>= fun addresses =>
      .ok (addresses, Function.update cache row (some addresses))) := by
  unfold addressesPerRow
  rw [h]
  rfl

theorem addressesPerRow_of_some (h : cache row = some addresses) :
    addressesPerRow settings c cache bank row = .ok (addresses, cache) := by
  unfold addressesPerRow
  rw [h]

/-- The dictionary holds what the converter says. -/
theorem Reached.sound (hc : Reached settings c bank cache) {row : Nat} {addresses : List Int}
    (h : cache row = some addresses) : columnAddresses settings c bank row = .ok addresses := by
  induction hc generalizing row addresses with
  | empty => cases h
  | @request cache cache' row' addresses' _ hreq ih =>
    cases hrow : cache row' with
    | some found =>
      rw [addressesPerRow_of_some hrow] at hreq
      cases hreq
      exact ih h
    | none =>
      rw [addressesPerRow_of_none hrow] at hreq
      obtain ⟨_, hcols, hreq⟩ := Py.bind_eq_ok.mp hreq
      cases hreq
      by_cases heq : row = row'
      · rw [heq, Function.update_self] at h
        cases h
        rwa [heq]
      · rw [Function.update_of_ne heq] at h
        exact ih h

theorem columnAddresses_of_request (hc : Reached settings c bank cache)
    (h : addressesPerRow settings c cache bank row = .ok (addresses, cache')) :
    columnAddresses settings c bank row = .ok addresses := by
  cases hrow : cache row with
  | some found =>
    rw [addressesPerRow_of_some hrow] at h
    cases h
    exact hc.sound hrow
  | none =>
    rw [addressesPerRow_of_none hrow] at h
    obtain ⟨_, hcols, h⟩ := Py.bind_eq_ok.mp h
    cases h
    exact hcols

theorem Reached.exists_request (hc : Reached settings c bank cache)
    (h : columnAddresses settings c bank row = .ok addresses) :
    ∃ cache', addressesPerRow settings c cache bank row = .ok (addresses, cache') ∧ Reached settings c bank cache' := by
  have hreq : ∃ cache', addressesPerRow settings c cache bank row = .ok (addresses, cache') := by
    cases hrow : cache row with
    | some found =>
      have hfound := hc.sound hrow
      rw [h] at hfound
      cases hfound
      exact ⟨cache, addressesPerRow_of_some hrow⟩
    | none =>
      rw [addressesPerRow_of_none hrow, h]
      exact ⟨_, rfl⟩
  obtain ⟨cache', hreq⟩ := hreq
  exact ⟨cache', hreq, .request hc hreq⟩

theorem columnAddresses_eq_ok (hload : settings.load = .ok c) :
    columnAddresses settings c bank row = .ok addresses ↔ ∃ shift, c.getBusShift 32 = .ok shift ∧
      bank < 2 ^ c.bankbits ∧ row < 2 ^ c.rowbits ∧
      addresses = (List.range (2 ^ c.colbits)).map (c.columnAddress shift bank row) := by
  have hcol : c.colbits = settings.colbits := by
    obtain ⟨k, -, h⟩ := Py.bind_eq_ok.mp hload
    cases h
    rfl
  have hall : ∀ shift, c.getBusShift 32 = .ok shift → bank < 2 ^ c.bankbits → row < 2 ^ c.rowbits →
      columnAddresses settings c bank row =
        .ok ((List.range (2 ^ c.colbits)).map (c.columnAddress shift bank row)) := by
    intro shift hshift hb hr
    unfold columnAddresses
    rw [← hcol]
    apply Py.mapM_eq_ok
    intro col hmem
    exact encodeBus_eq_ok.mpr ⟨shift, hshift, ⟨hb, hr, List.mem_range.mp hmem⟩, rfl⟩
  constructor
  · intro h
    obtain ⟨_, hzero⟩ := Py.exists_of_mapM h (List.mem_range.mpr (Nat.two_pow_pos _))
    obtain ⟨shift, hshift, ⟨hb, hr, -⟩, -⟩ := encodeBus_eq_ok.mp hzero
    rw [hall shift hshift hb hr] at h
    exact ⟨shift, hshift, hb, hr, (Except.ok.inj h).symm⟩
  · intro h
    obtain ⟨shift, hshift, hb, hr, rfl⟩ := h
    exact hall shift hshift hb hr

end Addresses

section Columns
variable (c : DramAddressConverter) (shift : Int) (bank row : Nat)

theorem columnAddress_mono {col col' : Nat} (h : col ≤ col') :
    c.columnAddress shift bank row col ≤ c.columnAddress shift bank row col' := by
  unfold columnAddress flat
  exact Int.add_le_add_left (shiftBy_mono (by omega) shift) _

theorem min_columnAddresses : Py.min ((List.range (2 ^ c.colbits)).map (c.columnAddress shift bank row)) =
    .ok (c.columnAddress shift bank row 0) := by
  have hmin : ((List.range (2 ^ c.colbits)).map (c.columnAddress shift bank row)).min? =
      some (c.columnAddress shift bank row 0) := by
    rw [List.min?_eq_some_iff]
    refine ⟨List.mem_map_of_mem (List.mem_range.mpr (Nat.two_pow_pos _)), ?_⟩
    intro address hmem
    obtain ⟨col, -, rfl⟩ := List.mem_map.mp hmem
    exact columnAddress_mono c shift bank row (Nat.zero_le col)
  unfold Py.min
  rw [hmin]

theorem max_columnAddresses : Py.max ((List.range (2 ^ c.colbits)).map (c.columnAddress shift bank row)) =
    .ok (c.columnAddress shift bank row (2 ^ c.colbits - 1)) := by
  have hpos := Nat.two_pow_pos c.colbits
  have hmax : ((List.range (2 ^ c.colbits)).map (c.columnAddress shift bank row)).max? =
      some (c.columnAddress shift bank row (2 ^ c.colbits - 1)) := by
    rw [List.max?_eq_some_iff]
    refine ⟨List.mem_map_of_mem (List.mem_range.mpr (by omega)), ?_⟩
    intro address hmem
    obtain ⟨col, hcol, rfl⟩ := List.mem_map.mp hmem
    have hlt := List.mem_range.mp hcol
    exact columnAddress_mono c shift bank row (by omega)
  unfold Py.max
  rw [hmax]

theorem head_columnAddresses : ((List.range (2 ^ c.colbits)).map (c.columnAddress shift bank row)).headD 0 =
    c.columnAddress shift bank row 0 := by
  obtain ⟨n, hn⟩ : ∃ n, 2 ^ c.colbits = n + 1 := ⟨2 ^ c.colbits - 1, by have := Nat.two_pow_pos c.colbits; omega⟩
  rw [hn, List.range_succ_eq_map]
  rfl

end Columns

/-! ## The object -/

/-- The attributes of a `RowHammer` object that its checks read. -/
structure RowHammer where
  settings : Settings
  converter : DramAddressConverter
  load_eq : settings.load = .ok converter
  nrows : Nat
  bank : Nat
  rowsStart : Nat
  verbose : Bool

namespace RowHammer
variable (r : RowHammer)

def rows : List Nat := (List.range r.nrows).map (r.rowsStart + ·)

/-- A round of `row_access_iterator`: the row, the number of words and the address of the first. -/
def rowAccess (cache : Cache) (row : Nat) : Py ((Nat × Int × Int) × Cache) := do
  let (addresses, cache) ← addressesPerRow r.settings r.converter cache r.bank row
  let last ← Py.max addresses
  let first ← Py.min addresses
  -- `max` has raised for an empty list
  let baseAddr := addresses.headD 0
  return ((row, (last - first).fdiv 4, baseAddr), cache)

def rowAccessIterator (cache : Cache) : Py (List (Nat × Int × Int) × Cache) :=
  r.rows.foldlM (fun st row => do
    let (access, cache) ← r.rowAccess st.2 row
    return (st.1 ++ [access], cache)) ([], cache)

variable {r} {cache cache' : Cache} {row : Nat}

/-- The words that are accessed in a row. -/
def words (c : DramAddressConverter) (shift : Int) (bank row : Nat) : Int :=
  (c.columnAddress shift bank row (2 ^ c.colbits - 1) - c.columnAddress shift bank row 0).fdiv 4

/-- What the iterator yields for a row. -/
def IsAccess (r : RowHammer) (row : Nat) (access : Nat × Int × Int) : Prop :=
  ∃ shift, r.converter.getBusShift 32 = .ok shift ∧ r.bank < 2 ^ r.converter.bankbits ∧
    row < 2 ^ r.converter.rowbits ∧
    access = (row, words r.converter shift r.bank row, r.converter.columnAddress shift r.bank row 0)

theorem rowAccess_eq_ok (hc : Reached r.settings r.converter r.bank cache) {access : Nat × Int × Int}
    (h : r.rowAccess cache row = .ok (access, cache')) :
    Reached r.settings r.converter r.bank cache' ∧ IsAccess r row access := by
  obtain ⟨⟨addresses, after⟩, hreq, h⟩ := Py.bind_eq_ok.mp h
  obtain ⟨shift, hshift, hb, hr, rfl⟩ := (columnAddresses_eq_ok r.load_eq).mp (columnAddresses_of_request hc hreq)
  dsimp only at h
  rw [max_columnAddresses, min_columnAddresses, head_columnAddresses] at h
  cases h
  exact ⟨.request hc hreq, shift, hshift, hb, hr, rfl⟩

theorem exists_rowAccess (hc : Reached r.settings r.converter r.bank cache) {shift : Int}
    (hshift : r.converter.getBusShift 32 = .ok shift) (hb : r.bank < 2 ^ r.converter.bankbits)
    (hr : row < 2 ^ r.converter.rowbits) : ∃ cache', r.rowAccess cache row =
      .ok ((row, words r.converter shift r.bank row, r.converter.columnAddress shift r.bank row 0), cache') ∧
        Reached r.settings r.converter r.bank cache' := by
  have hcols := (columnAddresses_eq_ok r.load_eq).mpr ⟨shift, hshift, hb, hr, rfl⟩
  obtain ⟨cache', hreq, hc'⟩ := hc.exists_request hcols
  refine ⟨cache', ?_, hc'⟩
  unfold rowAccess
  rw [hreq, Py.ok_bind]
  dsimp only
  rw [max_columnAddresses, min_columnAddresses, head_columnAddresses]
  rfl

theorem isAccess_of_mem (hc : Reached r.settings r.converter r.bank cache) {accesses : List (Nat × Int × Int)}
    (h : r.rowAccessIterator cache = .ok (accesses, cache')) :
    ∀ access ∈ accesses, ∃ row ∈ r.rows, IsAccess r row access := by
  refine (Py.foldlM_invariant (I := fun st => Reached r.settings r.converter r.bank st.2 ∧
    ∀ access ∈ st.1, ∃ row ∈ r.rows, IsAccess r row access) (fun row hrow st st' hst hone => ?_) ⟨hc, by simp⟩ h).2
  obtain ⟨⟨first, after⟩, hfirst, hone⟩ := Py.bind_eq_ok.mp hone
  cases hone
  obtain ⟨hafter, hword⟩ := rowAccess_eq_ok hst.1 hfirst
  refine ⟨hafter, fun access hmem => ?_⟩
  rcases List.mem_append.mp hmem with hl | hlast
  · exact hst.2 access hl
  · rw [List.mem_singleton.mp hlast]
    exact ⟨row, hrow, hword⟩

/-! ## The range of a row -/

/-- The addresses of the memory that belong to a row, columns having `2 ^ s` bytes. -/
def rowSpan (c : DramAddressConverter) (s bank row : Nat) : Set Int :=
  {address | 0x40000000 ≤ address ∧ address < 0x40000000 + 2 ^ (c.rowbits + c.bankbits + c.colbits + s) ∧
    ∃ col : Int, c.decodeBus address 0x40000000 32 = .ok ((bank : Int), (row : Int), col)}

/-- The iterator yields the range of exactly the row. -/
def CoversRow (r : RowHammer) (cache : Cache) (s row : Nat) : Prop :=
  ∃ accesses cache' n base, r.rowAccessIterator cache = .ok (accesses, cache') ∧ (row, n, base) ∈ accesses ∧
    Set.Ico base (base + 4 * n) = rowSpan r.converter s r.bank row

section Span
variable {c : DramAddressConverter} {s bank row : Nat}

theorem columnAddress_eq (col : Nat) :
    c.columnAddress s bank row col = 0x40000000 + (c.flat bank row col * 2 ^ s : Nat) := by
  unfold columnAddress
  rw [shiftBy_left]

/-- The address of every column belongs to the row. -/
theorem columnAddress_mem_rowSpan (hshift : c.getBusShift 32 = .ok (s : Int)) {col : Nat} (h : c.InRange bank row col) :
    c.columnAddress s bank row col ∈ rowSpan c s bank row := by
  have hlt : c.flat bank row col * 2 ^ s < 2 ^ (c.rowbits + c.bankbits + c.colbits + s) := by
    rw [pow_add]
    exact Nat.mul_lt_mul_of_pos_right (flat_lt h) (Nat.two_pow_pos s)
  rw [columnAddress_eq]
  refine ⟨by omega, ?_, col, ?_⟩
  · have hcast : ((c.flat bank row col * 2 ^ s : Nat) : Int) < ((2 ^ (c.rowbits + c.bankbits + c.colbits + s) : Nat)) :=
      Int.ofNat_lt.mpr hlt
    rw [Nat.cast_pow] at hcast
    exact Int.add_lt_add_left hcast _
  · rw [decodeBus_of_shift hshift, shiftBy_right, Nat.mul_div_cancel _ (Nat.two_pow_pos s), decode_flat h]

/-- The last column starts behind the accessed words. -/
theorem four_mul_words_le :
    c.columnAddress s bank row 0 + 4 * words c s bank row ≤ c.columnAddress s bank row (2 ^ c.colbits - 1) := by
  have hdiv := Int.mul_ediv_self_le
    (x := c.columnAddress s bank row (2 ^ c.colbits - 1) - c.columnAddress s bank row 0) (k := 4) (by decide)
  unfold words
  rw [Int.fdiv_eq_ediv_of_nonneg _ (by decide)]
  omega

end Span

/-- **A row is never accessed completely.** For every geometry whose columns have `2 ^ s` bytes and every row, the range
is not the row: the address of the last column is beyond it. -/
theorem not_coversRow (r : RowHammer) (s : Nat) (hshift : r.converter.getBusShift 32 = .ok (s : Int)) (cache : Cache)
    (hc : Reached r.settings r.converter r.bank cache) (row : Nat) : ¬ CoversRow r cache s row := by
  intro h
  obtain ⟨accesses, cache', n, base, hok, hmem, hspan⟩ := h
  obtain ⟨row', -, shift, hshift', hb, hr, haccess⟩ := isAccess_of_mem hc hok _ hmem
  rw [hshift] at hshift'
  cases hshift'
  simp only [Prod.mk.injEq] at haccess
  obtain ⟨rfl, rfl, rfl⟩ := haccess
  have hpos := Nat.two_pow_pos r.converter.colbits
  have hlast : r.converter.columnAddress s r.bank row (2 ^ r.converter.colbits - 1) ∈
      rowSpan r.converter s r.bank row :=
    columnAddress_mem_rowSpan hshift ⟨hb, hr, by omega⟩
  rw [← hspan] at hlast
  exact absurd hlast.2 (not_lt.mpr four_mul_words_le)

/-- The script with one row of a DDR3 module. -/
def firstRow : RowHammer where
  settings := ddr3Settings
  converter := ddr3Converter
  load_eq := ddr3Settings_load
  nrows := 1
  bank := 0
  rowsStart := 0
  verbose := false

theorem not_coversRow_firstRow : 0 ∈ firstRow.rows ∧ ¬ CoversRow firstRow (fun _ => none) 1 0 :=
  ⟨by decide, not_coversRow firstRow 1 (by decide +kernel) (fun _ => none) .empty 0⟩

/-- The 2048 bytes of row 0 are 512 words, the iterator yields 511; the word at `0x400007fc`, of the columns 1022 and
1023, is neither filled nor checked. -/
theorem last_word_missed :
    (firstRow.rowAccessIterator fun _ => none).map Prod.fst = .ok [(0, 511, 0x40000000)] ∧
      0x400007fc ∈ rowSpan ddr3Converter 1 0 0 ∧ 0x400007fc ∉ Set.Ico (0x40000000 : Int) (0x40000000 + 4 * 511) ∧
      ¬ CoversRow firstRow (fun _ => none) 1 0 := by
  have hiter : (firstRow.rowAccessIterator fun _ => none).map Prod.fst = .ok [(0, 511, 0x40000000)] := by
    have hshift : firstRow.converter.getBusShift 32 = .ok 1 := by decide +kernel
    have hrow : 0 < 2 ^ firstRow.converter.rowbits := by decide
    obtain ⟨cache, hcache, -⟩ := exists_rowAccess .empty hshift (by decide) hrow
    unfold rowAccessIterator
    rw [show firstRow.rows = [0] from rfl, List.foldlM_cons, hcache]
    rfl
  have hmem : (0x400007fc : Int) ∈ rowSpan ddr3Converter 1 0 0 :=
    ⟨by decide, by decide, 1022, by decide +kernel⟩
  have hnot : (0x400007fc : Int) ∉ Set.Ico (0x40000000 : Int) (0x40000000 + 4 * 511) := fun h => absurd h.2 (by decide)
  refine ⟨hiter, hmem, hnot, fun h => ?_⟩
  obtain ⟨accesses, cache', n, base, hok, hin, hspan⟩ := h
  rw [hok] at hiter
  cases hiter
  obtain ⟨-, rfl, rfl⟩ : 0 = 0 ∧ n = 511 ∧ base = 0x40000000 := by simpa using hin
  rw [show firstRow.converter = ddr3Converter from rfl, show firstRow.bank = 0 from rfl] at hspan
  exact hnot (hspan ▸ hmem)

end RowHammer

end RowhammerTester.Scripts
