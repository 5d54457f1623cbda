import RowhammerTester.Playbook.DecodeErrors
import Mathlib.Order.Interval.Set.Basic
import Mathlib.Data.Int.ConditionallyCompleteOrder
import Mathlib.Order.ConditionallyCompleteLattice.Basic

/-!
# `get_range_from_rows`

The payload generators fill and test the part of the memory from the first to the last of some rows.

* `getRangeFromRows` : the range as offset and size;
* `rowsSpan` : the addresses of the rows; `CoversRows` : the range is these addresses, in whole DMA words;
* `coversRows` : it is when the port words have `2 ^ a` bits, no fewer than the bus, and the range of a whole module is
  asked for; for other ports the bus shift is an error or wrong (`odd_ports`).
-/

namespace RowhammerTester.Playbook
open RowhammerTester.Scripts DramAddressConverter

section Function
variable (settings : Settings) (mainRamBase : Int) (mainRamSize : Nat) (rowNums : List Nat)

/-- The end of the range: where row `max_row` begins, or the end of the memory. -/
def rangeEnd (conv : DramAddressConverter) (maxRow : Int) : Py Int :=
  if maxRow < 2 ^ settings.rowbits then conv.encodeBus 0 maxRow.toNat 0 0x40000000 32
  else .ok (mainRamBase + mainRamSize)

def getRangeFromRows : Py (Int × Int) := do
  let conv ← settings.load
  let minRow ← Py.min (rowNums.map Nat.cast)
  let lastRow ← Py.max (rowNums.map Nat.cast)
  let maxRow := lastRow + 1
  let start ← conv.encodeBus 0 minRow.toNat 0 0x40000000 32
  let stop ← rangeEnd settings mainRamBase mainRamSize conv maxRow
  return (start - mainRamBase, stop - start)

end Function

/-- The bytes of a module. -/
def moduleSize (c : DramAddressConverter) : Nat :=
  2 ^ (c.rowbits + c.bankbits + c.colbits) * (c.dramPortWidth / 8) / 2 ^ c.addressAlign

/-- The addresses of a module that decode to a row between the smallest and the largest of some rows. -/
def rowsSpan (c : DramAddressConverter) (rowNums : List Nat) : Set Int :=
  {address | 0x40000000 ≤ address ∧ address < 0x40000000 + (moduleSize c : Int) ∧
    ∃ bank row col : Int, c.decodeBus address 0x40000000 32 = .ok (bank, row, col) ∧
      (∃ low ∈ rowNums, (low : Int) ≤ row) ∧ ∃ high ∈ rowNums, row ≤ (high : Int)}

/-- The range for some rows is exactly their addresses, and consists of whole DMA words. -/
def CoversRows (settings : Settings) (c : DramAddressConverter) (rowNums : List Nat) : Prop :=
  ∃ offset size : Int, getRangeFromRows settings 0x40000000 (moduleSize c) rowNums = .ok (offset, size) ∧
    Set.Ico (0x40000000 + offset) (0x40000000 + offset + size) = rowsSpan c rowNums ∧
    (settings.dmaDataBytes : Int) ∣ offset ∧ (settings.dmaDataBytes : Int) ∣ size

/-! ## Rows as ranges -/

section Range
variable {c : DramAddressConverter} {a s : Nat}

/-- The bytes of a row in all banks. -/
def rowBytes (c : DramAddressConverter) (s : Nat) : Nat := 2 ^ (c.bankbits + c.colbits + s)

theorem moduleSize_eq (hport : c.dramPortWidth = 2 ^ a) (hs : a = 3 + c.addressAlign + s) :
    moduleSize c = rowBytes c s * 2 ^ c.rowbits := by
  unfold moduleSize rowBytes
  rw [port_bytes hport hs, Nat.mul_left_comm, Nat.mul_div_cancel_left _ (Nat.two_pow_pos _), ← pow_add, ← pow_add]
  congr 1
  omega

/-- Column 0 of bank 0 is where a row begins. -/
theorem flat_row (row : Nat) : c.flat 0 row 0 * 2 ^ s = rowBytes c s * row := by
  unfold flat rowBytes
  rw [pow_add, pow_add]
  ring

theorem encodeBus_row (hport : c.dramPortWidth = 2 ^ a) (ha : 5 ≤ a) (hs : a = 3 + c.addressAlign + s) {row : Nat}
    (hrow : row < 2 ^ c.rowbits) :
    c.encodeBus 0 row 0 0x40000000 32 = .ok (0x40000000 + (rowBytes c s * row : Nat)) := by
  have hr : c.InRange 0 row 0 := ⟨Nat.two_pow_pos _, hrow, Nat.two_pow_pos _⟩
  rw [show (32 : Nat) = 2 ^ 5 from rfl, encodeBus_eq 0x40000000 hr hport (by decide) ha hs, flat_row]

/-- The row of an address of the module. -/
theorem decodeBus_row (hport : c.dramPortWidth = 2 ^ a) (ha : 5 ≤ a) (hs : a = 3 + c.addressAlign + s) {n : Nat}
    (hn : n < rowBytes c s * 2 ^ c.rowbits) : ∃ bank col : Int,
      c.decodeBus (0x40000000 + n) 0x40000000 32 = .ok (bank, ((n / rowBytes c s : Nat) : Int), col) := by
  have hrow : n / 2 ^ s / 2 ^ c.colbits / 2 ^ c.bankbits % 2 ^ c.rowbits = n / rowBytes c s := by
    have hdiv : n / 2 ^ s / 2 ^ c.colbits / 2 ^ c.bankbits = n / rowBytes c s := by
      rw [Nat.div_div_eq_div_mul, Nat.div_div_eq_div_mul, ← pow_add, ← pow_add, rowBytes]
      congr 2
      omega
    rw [hdiv, Nat.mod_eq_of_lt]
    exact Nat.div_lt_of_lt_mul hn
  rw [show (32 : Nat) = 2 ^ 5 from rfl, decodeBus_eq 0x40000000 n hport (by decide) ha hs, decode_natCast, hrow]
  exact ⟨_, _, rfl⟩

/-- The addresses between two row boundaries are those of the rows between. -/
theorem ico_eq_rowsSpan (hport : c.dramPortWidth = 2 ^ a) (ha : 5 ≤ a) (hs : a = 3 + c.addressAlign + s)
    {rowNums : List Nat} {low high : Nat} (hlow : low ∈ rowNums) (hhigh : high ∈ rowNums)
    (hmin : ∀ row ∈ rowNums, low ≤ row) (hmax : ∀ row ∈ rowNums, row ≤ high) (hlt : high < 2 ^ c.rowbits) :
    Set.Ico (0x40000000 + ((rowBytes c s * low : Nat) : Int)) (0x40000000 + ((rowBytes c s * (high + 1) : Nat) : Int)) =
      rowsSpan c rowNums := by
  have hpos : 0 < rowBytes c s := Nat.two_pow_pos _
  have hsize := moduleSize_eq hport hs
  have hend : rowBytes c s * (high + 1) ≤ rowBytes c s * 2 ^ c.rowbits := Nat.mul_le_mul_left _ hlt
  ext address
  constructor
  · intro h
    obtain ⟨n, hn⟩ := Int.eq_ofNat_of_zero_le (show 0 ≤ address - 0x40000000 by have := h.1; omega)
    obtain rfl : address = 0x40000000 + n := by omega
    have hge : rowBytes c s * low ≤ n := by have := h.1; omega
    have hlt' : n < rowBytes c s * (high + 1) := by have := h.2; omega
    obtain ⟨bank, col, hdecode⟩ := decodeBus_row hport ha hs (lt_of_lt_of_le hlt' hend)
    refine ⟨by omega, by omega, bank, _, col, hdecode, ⟨low, hlow, ?_⟩, high, hhigh, ?_⟩
    · exact_mod_cast (Nat.le_div_iff_mul_le hpos).mpr (by rw [Nat.mul_comm]; exact hge)
    · exact_mod_cast Nat.le_of_lt_succ (Nat.div_lt_of_lt_mul hlt')
  · intro h
    obtain ⟨hge, hlt', bank, row, col, hdecode, ⟨r, hr, hrow⟩, r', hr', hrow'⟩ := h
    obtain ⟨n, hn⟩ := Int.eq_ofNat_of_zero_le (show 0 ≤ address - 0x40000000 by omega)
    obtain rfl : address = 0x40000000 + n := by omega
    obtain ⟨bank', col', hdecode'⟩ := decodeBus_row hport ha hs (show n < rowBytes c s * 2 ^ c.rowbits by omega)
    rw [hdecode'] at hdecode
    cases hdecode
    have hle : low ≤ n / rowBytes c s := (hmin r hr).trans (by exact_mod_cast hrow)
    have hle' : n / rowBytes c s ≤ high := le_trans (by exact_mod_cast hrow') (hmax r' hr')
    have hfrom : rowBytes c s * low ≤ n := by
      rw [Nat.mul_comm]
      exact (Nat.le_div_iff_mul_le hpos).mp hle
    have hto : n < rowBytes c s * (high + 1) := by
      rw [Nat.mul_comm]
      exact (Nat.div_lt_iff_lt_mul hpos).mp (Nat.lt_succ_of_le hle')
    exact ⟨by omega, by omega⟩

end Range

/-! ## The range of rows -/

/-- The smallest and the largest of some rows. -/
theorem exists_min_max {rowNums : List Nat} (hne : rowNums ≠ []) : ∃ low ∈ rowNums, ∃ high ∈ rowNums,
    (∀ row ∈ rowNums, low ≤ row) ∧ (∀ row ∈ rowNums, row ≤ high) ∧
    Py.min (rowNums.map Nat.cast) = .ok (low : Int) ∧ Py.max (rowNums.map Nat.cast) = .ok (high : Int) := by
  have hne' : rowNums.map (Nat.cast : Nat → Int) ≠ [] := by simpa using hne
  obtain ⟨m, hm⟩ := Option.isSome_iff_exists.mp (List.isSome_min?_of_ne_nil hne')
  obtain ⟨x, hx⟩ := Option.isSome_iff_exists.mp (List.isSome_max?_of_ne_nil hne')
  obtain ⟨hmem, hmin⟩ := List.min?_eq_some_iff.mp hm
  obtain ⟨hmem', hmax⟩ := List.max?_eq_some_iff.mp hx
  obtain ⟨low, hlow, rfl⟩ := List.mem_map.mp hmem
  obtain ⟨high, hhigh, rfl⟩ := List.mem_map.mp hmem'
  refine ⟨low, hlow, high, hhigh, fun row hrow => ?_, fun row hrow => ?_, by rw [Py.min, hm], by rw [Py.max, hx]⟩
  · exact_mod_cast hmin row (List.mem_map_of_mem hrow)
  · exact_mod_cast hmax row (List.mem_map_of_mem hrow)

section Rows
variable {settings : Settings} {c : DramAddressConverter} {a s : Nat}

theorem load_rowbits (hload : settings.load = .ok c) :
    c.rowbits = settings.rowbits ∧ settings.dmaDataBytes = c.dramPortWidth / 8 := by
  obtain ⟨k, -, h⟩ := Py.bind_eq_ok.mp hload
  cases h
  exact ⟨rfl, by rw [Settings.dmaDataBytes, Nat.mul_comm]⟩

variable (hload : settings.load = .ok c) (hport : c.dramPortWidth = 2 ^ a) (ha : 5 ≤ a)
  (hs : a = 3 + c.addressAlign + s)
include hload hport ha hs

/-- The end of the module is where the row behind the last one would begin. -/
theorem rangeEnd_eq {high : Nat} (hlt : high < 2 ^ c.rowbits) :
    rangeEnd settings 0x40000000 (moduleSize c) c ((high : Int) + 1) =
      .ok (0x40000000 + ((rowBytes c s * (high + 1) : Nat) : Int)) := by
  unfold rangeEnd
  rw [← (load_rowbits hload).1]
  split
  · next h =>
    have hrow : high + 1 < 2 ^ c.rowbits := by exact_mod_cast h
    exact encodeBus_row hport ha hs hrow
  · next h =>
    have hlast : high + 1 = 2 ^ c.rowbits := Nat.le_antisymm hlt (by exact_mod_cast not_lt.mp h)
    rw [moduleSize_eq hport hs, hlast]

theorem getRangeFromRows_eq {rowNums : List Nat} {low high : Nat} (hlow : low < 2 ^ c.rowbits)
    (hhigh : high < 2 ^ c.rowbits) (hpymin : Py.min (rowNums.map Nat.cast) = .ok (low : Int))
    (hpymax : Py.max (rowNums.map Nat.cast) = .ok (high : Int)) :
    getRangeFromRows settings 0x40000000 (moduleSize c) rowNums =
      .ok ((rowBytes c s * low : Nat), ((rowBytes c s * (high + 1) : Nat) : Int) - (rowBytes c s * low : Nat)) := by
  unfold getRangeFromRows
  rw [hload, Py.ok_bind, hpymin, Py.ok_bind, hpymax, Py.ok_bind, Int.toNat_natCast, encodeBus_row hport ha hs hlow,
    Py.ok_bind, rangeEnd_eq hload hport ha hs hhigh, Py.ok_bind]
  refine congrArg Except.ok (Prod.ext ?_ ?_)
  · dsimp only
    omega
  · dsimp only
    omega

/-- The range of some rows is between two row boundaries, and these are their addresses. -/
theorem exists_range {rowNums : List Nat} (hne : rowNums ≠ []) (hrows : ∀ row ∈ rowNums, row < 2 ^ c.rowbits) :
    ∃ low high : Nat, getRangeFromRows settings 0x40000000 (moduleSize c) rowNums =
        .ok ((rowBytes c s * low : Nat), ((rowBytes c s * (high + 1) : Nat) : Int) - (rowBytes c s * low : Nat)) ∧
      Set.Ico (0x40000000 + ((rowBytes c s * low : Nat) : Int))
        (0x40000000 + ((rowBytes c s * (high + 1) : Nat) : Int)) = rowsSpan c rowNums := by
  obtain ⟨low, hlow, high, hhigh, hmin, hmax, hpymin, hpymax⟩ := exists_min_max hne
  refine ⟨low, high, ?_, ?_⟩
  · exact getRangeFromRows_eq hload hport ha hs (hrows low hlow) (hrows high hhigh) hpymin hpymax
  · exact ico_eq_rowsSpan hport ha hs hlow hhigh hmin hmax (hrows high hhigh)

end Rows

theorem rowsSpan_mono (c : DramAddressConverter) {rowNums rowNums' : List Nat} (h : rowNums ⊆ rowNums') :
    rowsSpan c rowNums ⊆ rowsSpan c rowNums' := by
  intro address haddress
  obtain ⟨hge, hlt, bank, row, col, hdecode, ⟨low, hlow, hle⟩, high, hhigh, hle'⟩ := haddress
  exact ⟨hge, hlt, bank, row, col, hdecode, ⟨low, h hlow, hle⟩, high, h hhigh, hle'⟩

/-- **The ranges of rows.** For every port of `2 ^ a` bits that is at least as wide as the bus and whose words have at
least `2 ^ address_align` bytes, every range of rows is their addresses in all banks and columns, in whole DMA words. -/
theorem coversRows (settings : Settings) (c : DramAddressConverter) (hload : settings.load = .ok c) (a : Nat)
    (hport : c.dramPortWidth = 2 ^ a) (ha : 5 ≤ a) (hbytes : c.addressAlign ≤ a - 3)
    (halign : c.addressAlign ≤ c.colbits) (rowNums : List Nat) (hne : rowNums ≠ [])
    (hrows : ∀ row ∈ rowNums, row < 2 ^ c.rowbits) : CoversRows settings c rowNums := by
  obtain ⟨s, hs'⟩ := Nat.exists_eq_add_of_le hbytes
  have hs : a = 3 + c.addressAlign + s := by omega
  obtain ⟨low, high, hrange, hspan⟩ := exists_range hload hport ha hs hne hrows
  have hwords : (settings.dmaDataBytes : Int) ∣ (rowBytes c s : Int) := by
    apply Int.natCast_dvd_natCast.mpr
    rw [(load_rowbits hload).2, port_bytes hport hs, ← pow_add, rowBytes]
    exact pow_dvd_pow 2 (by omega)
  have hoffset : ∀ n : Nat, (settings.dmaDataBytes : Int) ∣ ((rowBytes c s * n : Nat) : Int) := by
    intro n
    rw [Nat.cast_mul]
    exact hwords.mul_right _
  refine ⟨_, _, hrange, ?_, hoffset low, Int.dvd_sub (hoffset (high + 1)) (hoffset low)⟩
  rw [← hspan]
  congr 1
  omega

/-- The rows 3 to 5 of a DDR3 module. -/
theorem coversRows_ddr3 : CoversRows ddr3Settings ddr3Converter [5, 3] :=
  coversRows ddr3Settings ddr3Converter (by decide +kernel) 7 rfl (by decide) (by decide) (by decide) [5, 3] (by decide)
    (by decide)

/-- A DDR4 module of 72 bits with four phases. -/
def eccSettings : Settings :=
  { colbits := 10, rowbits := 14, bankbits := 4, nphases := 4, dfiDatabits := 144, burstLength := 8 }

def eccConverter : DramAddressConverter :=
  { colbits := 10, rowbits := 14, bankbits := 4, addressAlign := 3, dramPortWidth := 576 }

/-- An SDR module of 16 bits with one phase. -/
def sdrSettings : Settings :=
  { colbits := 9, rowbits := 13, bankbits := 2, nphases := 1, dfiDatabits := 16, burstLength := 1 }

def sdrConverter : DramAddressConverter :=
  { colbits := 9, rowbits := 13, bankbits := 2, addressAlign := 0, dramPortWidth := 16 }

/-- Both ports have words of at least `2 ^ address_align` bytes. A port of 576 bits has no bus shift; a port of 16 bits,
narrower than the bus, gets the shift 2 in place of 1, and row 4096 is behind the end of the memory. -/
theorem odd_ports :
    (eccSettings.load = .ok eccConverter ∧ 2 ^ eccConverter.addressAlign ≤ eccConverter.dramPortWidth / 8 ∧
      getRangeFromRows eccSettings 0x40000000 (moduleSize eccConverter) [1] = .error (.valueError "Not a power of 2") ∧
      ¬ CoversRows eccSettings eccConverter [1]) ∧
    (sdrSettings.load = .ok sdrConverter ∧ 2 ^ sdrConverter.addressAlign ≤ sdrConverter.dramPortWidth / 8 ∧
      getRangeFromRows sdrSettings 0x40000000 (moduleSize sdrConverter) [4096] = .ok (33554432, 8192) ∧
      moduleSize sdrConverter = 33554432 ∧ ¬ CoversRows sdrSettings sdrConverter [4096]) := by
  have hecc : getRangeFromRows eccSettings 0x40000000 (moduleSize eccConverter) [1] =
      .error (.valueError "Not a power of 2") := by decide +kernel
  have hsdr : getRangeFromRows sdrSettings 0x40000000 (moduleSize sdrConverter) [4096] = .ok (33554432, 8192) := by
    decide +kernel
  have hsize : moduleSize sdrConverter = 33554432 := by decide +kernel
  refine ⟨⟨by decide +kernel, by decide, hecc, fun h => ?_⟩, by decide +kernel, by decide, hsdr, hsize, fun h => ?_⟩
  · obtain ⟨offset, size, hok, -⟩ := h
    rw [hecc] at hok
    cases hok
  · obtain ⟨offset, size, hok, hspan, -⟩ := h
    rw [hsdr] at hok
    cases hok
    have hmem : (0x40000000 + 33554432 : Int) ∈ rowsSpan sdrConverter [4096] := by
      rw [← hspan]
      exact ⟨by decide, by decide⟩
    have hlt := hmem.2.1
    rw [hsize] at hlt
    exact absurd hlt (by decide)

end RowhammerTester.Playbook
