import RowhammerTester.Gateware.Instruction
import Mathlib.Data.Int.Bitwise

/-!
# `DRAMAddressConverter`

The host's view of a DRAM location as a bus (byte) address and as a DMA (port word) address.

* `encode`, `decode` : a location as the bit string row, bank, column; `flat` : the same as a number (`encode_eq`,
  `decode_flat`, `flat_decode`);
* `encodeBus`, `decodeBus`, `encodeDma`, `decodeDma` : the shifts of the two views (`getBusShift_eq`);
* `views_agree` : the two views of a location agree.
-/

namespace RowhammerTester.Scripts
open RowhammerTester.Hdl RowhammerTester.Gateware

/-- The converter's attributes; the only address mapping is `ROW_BANK_COL`. -/
structure DramAddressConverter where
  colbits : Nat
  rowbits : Nat
  bankbits : Nat
  addressAlign : Nat
  dramPortWidth : Nat
deriving DecidableEq, Repr

namespace DramAddressConverter

/-- The helper `masked` of `_encode`. -/
def masked (value width offset : Nat) : Py Nat := do
  Py.check (value &&& (2 ^ width - 1) = value) (.assertionError "Value larger than value bit-width")
  return (value &&& (2 ^ width - 1)) <<< offset

/-- `_encode`. -/
def encode (c : DramAddressConverter) (bank row col : Nat) : Py Nat := do
  Py.check (bank < 2 ^ c.bankbits) (.assertionError "")
  Py.check (col < 2 ^ c.colbits) (.assertionError "")
  Py.check (row < 2 ^ c.rowbits) (.assertionError "")
  let r ← masked row c.rowbits (c.bankbits + c.colbits)
  let b ← masked bank c.bankbits c.colbits
  let l ← masked col c.colbits 0
  return r ||| b ||| l

/-- `_get_bus_shift`. -/
def getBusShift (c : DramAddressConverter) (busWidth : Nat) : Py Int := do
  Py.check (busWidth ≠ 0) .zeroDivisionError
  let addrShift ← Encoder.log2Int (c.dramPortWidth / busWidth)
  let busShift ← Encoder.log2Int (busWidth / 8)
  return (addrShift : Int) + busShift - c.addressAlign

/-- Shift left by `shift` bits, right when it is not positive. -/
def shiftBy (address shift : Int) : Int :=
  if shift > 0 then address <<< shift.toNat else address >>> (-shift).toNat

def encodeBus (c : DramAddressConverter) (bank row col : Nat) (base : Int) (busWidth : Nat) : Py Int := do
  let shift ← c.getBusShift busWidth
  let address ← c.encode bank row col
  return base + shiftBy address shift

def encodeDma (c : DramAddressConverter) (bank row col : Nat) : Py Nat := do
  let address ← c.encode bank row col
  return address >>> c.addressAlign

/-- The helper `extract` of `_decode`. -/
def extract (value : Int) (width offset : Nat) : Int :=
  Int.land value ((2 ^ width - 1 : Int) <<< offset) >>> offset

/-- `_decode`: bank, row and column. -/
def decode (c : DramAddressConverter) (address : Int) : Int × Int × Int :=
  let row := extract address c.rowbits (c.bankbits + c.colbits)
  let bank := extract address c.bankbits c.colbits
  let col := extract address c.colbits 0
  (bank, row, col)

def decodeBus (c : DramAddressConverter) (address base : Int) (busWidth : Nat) : Py (Int × Int × Int) := do
  let shift ← c.getBusShift busWidth
  return c.decode (shiftBy (address - base) (-1 * shift))

def decodeDma (c : DramAddressConverter) (address : Int) : Int × Int × Int := c.decode (address <<< c.addressAlign)

/-! ## Locations as numbers -/

/-- The location is one of the DRAM. -/
def InRange (c : DramAddressConverter) (bank row col : Nat) : Prop :=
  bank < 2 ^ c.bankbits ∧ row < 2 ^ c.rowbits ∧ col < 2 ^ c.colbits

/-- Row, bank and column as one number. -/
def flat (c : DramAddressConverter) (bank row col : Nat) : Nat :=
  col + 2 ^ c.colbits * (bank + 2 ^ c.bankbits * row)

section Flat
variable {c : DramAddressConverter} {bank row col : Nat}

theorem masked_eq {value width : Nat} (offset : Nat) (h : value < 2 ^ width) :
    masked value width offset = .ok (value <<< offset) := by
  unfold masked
  rw [Nat.and_two_pow_sub_one_eq_mod, Nat.mod_eq_of_lt h, Py.check, if_pos rfl]
  rfl

theorem encode_eq (h : c.InRange bank row col) : c.encode bank row col = .ok (c.flat bank row col) := by
  obtain ⟨hb, hr, hc⟩ := h
  have hflat : row <<< (c.bankbits + c.colbits) ||| bank <<< c.colbits ||| col <<< 0 = c.flat bank row col := by
    rw [Nat.shiftLeft_zero, Nat.shiftLeft_add, ← Nat.shiftLeft_or_distrib, Nat.or_comm, or_shiftLeft_eq_add _ _ _ hc,
      Nat.or_comm, or_shiftLeft_eq_add _ _ _ hb]
    rfl
  unfold encode
  rw [masked_eq _ hr, masked_eq _ hb, masked_eq _ hc, Py.check, if_pos hb, Py.check, if_pos hc, Py.check, if_pos hr]
  exact congrArg Except.ok hflat

/-- Only locations of the DRAM have an address. -/
theorem inRange_of_encode {n : Nat} (h : c.encode bank row col = .ok n) : c.InRange bank row col := by
  unfold encode at h
  obtain ⟨_, hb, h⟩ := Py.bind_eq_ok.mp h
  obtain ⟨_, hc, h⟩ := Py.bind_eq_ok.mp h
  obtain ⟨_, hr, -⟩ := Py.bind_eq_ok.mp h
  exact ⟨Py.check_eq_ok.mp hb, Py.check_eq_ok.mp hr, Py.check_eq_ok.mp hc⟩

theorem encodeBus_eq_ok {base address : Int} {busWidth : Nat} :
    c.encodeBus bank row col base busWidth = .ok address ↔ ∃ shift, c.getBusShift busWidth = .ok shift ∧
      c.InRange bank row col ∧ address = base + shiftBy (c.flat bank row col) shift := by
  constructor
  · intro h
    obtain ⟨shift, hshift, h⟩ := Py.bind_eq_ok.mp h
    obtain ⟨n, hn, h⟩ := Py.bind_eq_ok.mp h
    have hr := inRange_of_encode hn
    rw [encode_eq hr] at hn
    cases hn
    cases h
    exact ⟨shift, hshift, hr, rfl⟩
  · rintro ⟨shift, hshift, hr, rfl⟩
    unfold encodeBus
    rw [hshift, encode_eq hr]
    rfl

theorem mask_natCast (width offset : Nat) :
    ((2 ^ width - 1 : Int) <<< offset) = (((2 ^ width - 1) <<< offset : Nat) : Int) := by
  rw [Int.natCast_shiftLeft, Nat.cast_sub Nat.one_le_two_pow]
  norm_num

theorem extract_natCast (n width offset : Nat) : extract (n : Int) width offset = (slice n offset width : Nat) := by
  unfold extract slice
  rw [mask_natCast]
  change (((n &&& ((2 ^ width - 1) <<< offset) : Nat) : Int) >>> offset) = _
  rw [← Int.natCast_shiftRight, Nat.shiftRight_and_distrib, Nat.shiftLeft_shiftRight, Nat.and_two_pow_sub_one_eq_mod,
    Nat.shiftRight_eq_div_pow]

/-- A field of any address, also of one below the base, has its width. -/
theorem extract_lt (value : Int) (width offset : Nat) : ∃ n : Nat, extract value width offset = n ∧ n < 2 ^ width := by
  have hbound : ∀ x : Nat, x ≤ (2 ^ width - 1) <<< offset → x >>> offset < 2 ^ width := by
    intro x hx
    have hpos := Nat.two_pow_pos width
    have hle : x >>> offset ≤ ((2 ^ width - 1) <<< offset) >>> offset := by
      rw [Nat.shiftRight_eq_div_pow, Nat.shiftRight_eq_div_pow]
      exact Nat.div_le_div_right hx
    rw [Nat.shiftLeft_shiftRight] at hle
    omega
  unfold extract
  rw [mask_natCast]
  cases value with
  | ofNat a =>
    refine ⟨(a &&& (2 ^ width - 1) <<< offset) >>> offset, ?_, hbound _ Nat.and_le_right⟩
    change (((a &&& (2 ^ width - 1) <<< offset : Nat) : Int) >>> offset) = _
    rw [← Int.natCast_shiftRight]
  | negSucc a =>
    have hle : Nat.ldiff ((2 ^ width - 1) <<< offset) a ≤ (2 ^ width - 1) <<< offset := by
      apply Nat.le_of_testBit
      intro i hi
      rw [Nat.testBit_ldiff, Bool.and_eq_true] at hi
      exact hi.1
    refine ⟨Nat.ldiff ((2 ^ width - 1) <<< offset) a >>> offset, ?_, hbound _ hle⟩
    change (((Nat.ldiff ((2 ^ width - 1) <<< offset) a : Nat) : Int) >>> offset) = _
    rw [← Int.natCast_shiftRight]

/-- The bits of a number from the column's width on are the bank's and the row's. -/
theorem decode_natCast (c : DramAddressConverter) (n : Nat) :
    c.decode (n : Int) = (((n / 2 ^ c.colbits % 2 ^ c.bankbits : Nat) : Int),
      ((n / 2 ^ c.colbits / 2 ^ c.bankbits % 2 ^ c.rowbits : Nat) : Int), ((n % 2 ^ c.colbits : Nat) : Int)) := by
  unfold decode
  rw [extract_natCast, extract_natCast, extract_natCast]
  unfold slice
  rw [pow_zero, Nat.div_one, Nat.add_comm, pow_add, Nat.div_div_eq_div_mul]

theorem flat_div (h : col < 2 ^ c.colbits) : c.flat bank row col / 2 ^ c.colbits = bank + 2 ^ c.bankbits * row := by
  rw [flat, Nat.add_mul_div_left _ _ (Nat.two_pow_pos _), Nat.div_eq_of_lt h, Nat.zero_add]

theorem flat_mod (h : col < 2 ^ c.colbits) : c.flat bank row col % 2 ^ c.colbits = col := by
  rw [flat, Nat.add_mul_mod_self_left, Nat.mod_eq_of_lt h]

theorem decode_flat (h : c.InRange bank row col) :
    c.decode (c.flat bank row col : Nat) = ((bank : Int), (row : Int), (col : Int)) := by
  obtain ⟨hb, hr, hc⟩ := h
  rw [decode_natCast, flat_div hc, flat_mod hc, Nat.add_mul_mod_self_left, Nat.mod_eq_of_lt hb,
    Nat.add_mul_div_left _ _ (Nat.two_pow_pos _), Nat.div_eq_of_lt hb, Nat.zero_add, Nat.mod_eq_of_lt hr]

/-- Every number below the size of the DRAM is a location, which `decode` finds. -/
theorem exists_flat {n : Nat} (h : n < 2 ^ (c.rowbits + c.bankbits + c.colbits)) :
    ∃ bank row col, c.InRange bank row col ∧ c.flat bank row col = n := by
  refine ⟨n / 2 ^ c.colbits % 2 ^ c.bankbits, n / 2 ^ c.colbits / 2 ^ c.bankbits, n % 2 ^ c.colbits,
    ⟨Nat.mod_lt _ (Nat.two_pow_pos _), ?_, Nat.mod_lt _ (Nat.two_pow_pos _)⟩, ?_⟩
  · rw [Nat.div_div_eq_div_mul, Nat.div_lt_iff_lt_mul (Nat.mul_pos (Nat.two_pow_pos _) (Nat.two_pow_pos _)), ← pow_add,
      ← pow_add]
    rwa [Nat.add_comm c.colbits, ← Nat.add_assoc]
  · rw [flat, Nat.mod_add_div, Nat.mod_add_div]

theorem flat_lt (h : c.InRange bank row col) : c.flat bank row col < 2 ^ (c.rowbits + c.bankbits + c.colbits) := by
  obtain ⟨hb, hr, hc⟩ := h
  have hrow : bank + 2 ^ c.bankbits * row < 2 ^ c.bankbits * 2 ^ c.rowbits := by
    calc bank + 2 ^ c.bankbits * row < 2 ^ c.bankbits * (row + 1) := by rw [Nat.mul_succ]; omega
      _ ≤ 2 ^ c.bankbits * 2 ^ c.rowbits := Nat.mul_le_mul_left _ hr
  calc c.flat bank row col < 2 ^ c.colbits * (bank + 2 ^ c.bankbits * row + 1) := by rw [flat, Nat.mul_succ]; omega
    _ ≤ 2 ^ c.colbits * (2 ^ c.bankbits * 2 ^ c.rowbits) := Nat.mul_le_mul_left _ hrow
    _ = 2 ^ (c.rowbits + c.bankbits + c.colbits) := by rw [pow_add, pow_add]; ring

theorem flat_injective {bank' row' col' : Nat} (h : c.InRange bank row col) (h' : c.InRange bank' row' col')
    (heq : c.flat bank row col = c.flat bank' row' col') : bank = bank' ∧ row = row' ∧ col = col' := by
  have hd := decode_flat h
  rw [heq, decode_flat h'] at hd
  simp only [Prod.mk.injEq, Nat.cast_inj] at hd
  exact ⟨hd.1.symm, hd.2.1.symm, hd.2.2.symm⟩

/-- Clearing the low bits of the column. -/
theorem flat_div_mul {k : Nat} (h : k ≤ c.colbits) :
    c.flat bank row col / 2 ^ k * 2 ^ k = c.flat bank row (col / 2 ^ k * 2 ^ k) := by
  obtain ⟨d, hd⟩ := Nat.exists_eq_add_of_le h
  unfold flat
  rw [hd, pow_add, Nat.mul_assoc, Nat.add_mul_div_left _ _ (Nat.two_pow_pos k)]
  ring

theorem flat_mod_two_pow {k : Nat} (h : k ≤ c.colbits) : c.flat bank row col % 2 ^ k = col % 2 ^ k := by
  obtain ⟨d, hd⟩ := Nat.exists_eq_add_of_le h
  rw [flat, hd, pow_add, Nat.mul_assoc, Nat.add_mul_mod_self_left]

end Flat

/-! ## Shifts -/

theorem log2Int_two_pow (k : Nat) : Encoder.log2Int (2 ^ k) = .ok k := by
  have hpos := Nat.two_pow_pos k
  have hk : bitLength (2 ^ k - 1) = k := by
    apply Nat.le_antisymm (bitLength_le_of_lt (by omega))
    have h := lt_two_pow_bitLength (2 ^ k - 1)
    exact (Nat.pow_le_pow_iff_right (by decide)).mp (show 2 ^ k ≤ 2 ^ bitLength (2 ^ k - 1) by omega)
  rw [Encoder.log2Int, if_neg (by omega), hk, if_pos rfl]

/-- The bus shift does not depend on the bus width. -/
theorem getBusShift_eq {c : DramAddressConverter} {a b : Nat} (hport : c.dramPortWidth = 2 ^ a) (h3 : 3 ≤ b)
    (hba : b ≤ a) : c.getBusShift (2 ^ b) = .ok ((a : Int) - 3 - c.addressAlign) := by
  have h8 : 2 ^ b / 8 = 2 ^ (b - 3) := Nat.pow_div h3 (by decide)
  unfold getBusShift
  rw [Py.check, if_pos (Nat.two_pow_pos b).ne', hport, Nat.pow_div hba (by decide), h8, log2Int_two_pow,
    log2Int_two_pow]
  refine congrArg Except.ok ?_
  omega

theorem shiftBy_left (n k : Nat) : shiftBy (n : Int) (k : Int) = ((n * 2 ^ k : Nat) : Int) := by
  unfold shiftBy
  split
  · rw [Int.toNat_natCast, ← Int.natCast_shiftLeft, Nat.shiftLeft_eq]
  · obtain rfl : k = 0 := by omega
    simp

theorem shiftBy_right (n k : Nat) : shiftBy (n : Int) (-(k : Int)) = ((n / 2 ^ k : Nat) : Int) := by
  unfold shiftBy
  rw [if_neg (by omega), Int.neg_neg, Int.toNat_natCast, ← Int.natCast_shiftRight, Nat.shiftRight_eq_div_pow]

section Views
variable {c : DramAddressConverter} {bank row col a b : Nat} (base : Int)

/-- The bus address of a location when a port word has at least `2 ^ address_align` bytes. -/
theorem encodeBus_eq {s : Nat} (h : c.InRange bank row col) (hport : c.dramPortWidth = 2 ^ a) (h3 : 3 ≤ b)
    (hba : b ≤ a) (hs : a = 3 + c.addressAlign + s) :
    c.encodeBus bank row col base (2 ^ b) = .ok (base + (c.flat bank row col * 2 ^ s : Nat)) := by
  unfold encodeBus
  rw [getBusShift_eq hport h3 hba, encode_eq h, show (a : Int) - 3 - c.addressAlign = (s : Nat) by omega]
  refine congrArg Except.ok ?_
  rw [shiftBy_left]

/-- Every bus address decodes to a row, once the bus has a shift. -/
theorem exists_of_decodeBus {base address : Int} {busWidth : Nat} {loc : Int × Int × Int}
    (h : c.decodeBus address base busWidth = .ok loc) :
    (∃ shift, c.getBusShift busWidth = .ok shift) ∧ ∃ row : Nat, loc.2.1 = row ∧ row < 2 ^ c.rowbits := by
  obtain ⟨shift, hshift, h⟩ := Py.bind_eq_ok.mp h
  cases h
  exact ⟨⟨shift, hshift⟩, extract_lt _ _ _⟩

variable {base} in
theorem decodeBus_of_shift {shift : Int} {busWidth : Nat} (hshift : c.getBusShift busWidth = .ok shift) (n : Int) :
    c.decodeBus (base + n) base busWidth = .ok (c.decode (shiftBy n (-shift))) := by
  unfold decodeBus
  rw [hshift]
  refine congrArg Except.ok ?_
  rw [show base + n - base = n by omega, show -1 * shift = -shift by omega]

theorem decodeBus_eq {s : Nat} (n : Nat) (hport : c.dramPortWidth = 2 ^ a) (h3 : 3 ≤ b) (hba : b ≤ a)
    (hs : a = 3 + c.addressAlign + s) :
    c.decodeBus (base + n) base (2 ^ b) = .ok (c.decode (n / 2 ^ s : Nat)) := by
  rw [decodeBus_of_shift (getBusShift_eq hport h3 hba), show -((a : Int) - 3 - c.addressAlign) = -(s : Int) by omega,
    shiftBy_right]

/-- The bus address when a port word has fewer bytes. -/
theorem encodeBus_eq_of_neg {k : Nat} (h : c.InRange bank row col) (hport : c.dramPortWidth = 2 ^ a) (h3 : 3 ≤ b)
    (hba : b ≤ a) (hk : 3 + c.addressAlign = a + k) :
    c.encodeBus bank row col base (2 ^ b) = .ok (base + (c.flat bank row col / 2 ^ k : Nat)) := by
  unfold encodeBus
  rw [getBusShift_eq hport h3 hba, encode_eq h, show (a : Int) - 3 - c.addressAlign = -(k : Int) by omega]
  refine congrArg Except.ok ?_
  rw [shiftBy_right]

theorem decodeBus_eq_of_neg {k : Nat} (n : Nat) (hport : c.dramPortWidth = 2 ^ a) (h3 : 3 ≤ b) (hba : b ≤ a)
    (hk : 3 + c.addressAlign = a + k) :
    c.decodeBus (base + n) base (2 ^ b) = .ok (c.decode (n * 2 ^ k : Nat)) := by
  rw [decodeBus_of_shift (getBusShift_eq hport h3 hba), show -((a : Int) - 3 - c.addressAlign) = (k : Int) by omega,
    shiftBy_left]

theorem encodeDma_eq (h : c.InRange bank row col) :
    c.encodeDma bank row col = .ok (c.flat bank row col / 2 ^ c.addressAlign) := by
  unfold encodeDma
  rw [encode_eq h, ← Nat.shiftRight_eq_div_pow]
  rfl

theorem decodeDma_eq (c : DramAddressConverter) (n : Nat) :
    c.decodeDma (n : Int) = c.decode (n * 2 ^ c.addressAlign : Nat) := by
  unfold decodeDma
  rw [← Int.natCast_shiftLeft, Nat.shiftLeft_eq]

/-! ## The two views -/

theorem port_bytes {s : Nat} (hport : c.dramPortWidth = 2 ^ a) (hs : a = 3 + c.addressAlign + s) :
    c.dramPortWidth / 8 = 2 ^ c.addressAlign * 2 ^ s := by
  rw [hport, hs, show (8 : Nat) = 2 ^ 3 by decide, Nat.pow_div (by omega) (by decide), ← pow_add]
  congr 1
  omega

/-- A bus address is the address of its DMA word plus the offset of the column in the word. -/
theorem flat_mul_eq {s : Nat} (halign : c.addressAlign ≤ c.colbits) (hport : c.dramPortWidth = 2 ^ a)
    (hs : a = 3 + c.addressAlign + s) : c.flat bank row col * 2 ^ s =
      c.flat bank row col / 2 ^ c.addressAlign * (c.dramPortWidth / 8) + ((col % 2 ^ c.addressAlign) <<< s) := by
  have hdiv := Nat.div_add_mod' (c.flat bank row col) (2 ^ c.addressAlign)
  rw [flat_mod_two_pow halign] at hdiv
  rw [port_bytes hport hs, Nat.shiftLeft_eq, ← Nat.mul_assoc, ← Nat.add_mul, hdiv]

/-- Every bus address of the module is in a location. -/
theorem exists_location {s : Nat} {address : Int} (hport : c.dramPortWidth = 2 ^ a) (h3 : 3 ≤ b) (hba : b ≤ a)
    (hs : a = 3 + c.addressAlign + s) (hlo : base ≤ address)
    (hhi : address < base + 2 ^ (c.rowbits + c.bankbits + c.colbits + s)) :
    ∃ bank row col, c.InRange bank row col ∧
      c.decodeBus address base (2 ^ b) = .ok ((bank : Int), (row : Int), (col : Int)) ∧
      c.encodeBus bank row col base (2 ^ b) = .ok (base + (address - base) / 2 ^ s * 2 ^ s) := by
  obtain ⟨n, hn⟩ := Int.eq_ofNat_of_zero_le (show 0 ≤ address - base by omega)
  have hlt : n < 2 ^ (c.rowbits + c.bankbits + c.colbits) * 2 ^ s := by
    rw [← pow_add]
    have : (n : Int) < ((2 ^ (c.rowbits + c.bankbits + c.colbits + s) : Nat) : Int) := by
      push_cast
      omega
    exact_mod_cast this
  obtain ⟨bank, row, col, hr, hflat⟩ := exists_flat ((Nat.div_lt_iff_lt_mul (Nat.two_pow_pos s)).mpr hlt)
  refine ⟨bank, row, col, hr, ?_, ?_⟩
  · rw [show address = base + n by omega, decodeBus_eq base _ hport h3 hba hs, ← hflat, decode_flat hr]
  · rw [encodeBus_eq base hr hport h3 hba hs, hflat, hn]
    push_cast
    rfl

end Views

/-- **The views of an address.** When a port word has at least `2 ^ address_align` bytes, bus addresses and locations
are in bijection up to the bytes of a location, DMA addresses name the locations without the low column bits, and the
two address the same location; when it has fewer, the bus round trip holds for the columns that start a byte. -/
theorem views_agree (c : DramAddressConverter) (a b : Nat) (base : Int) (hport : c.dramPortWidth = 2 ^ a) (h3 : 3 ≤ b)
    (hba : b ≤ a) (halign : c.addressAlign ≤ c.colbits) :
    (∀ s, a - 3 = c.addressAlign + s →
      (∀ bank row col, c.InRange bank row col → ∃ (address : Int) (w : Nat),
        c.encodeBus bank row col base (2 ^ b) = .ok address ∧
        c.decodeBus address base (2 ^ b) = .ok ((bank : Int), (row : Int), (col : Int)) ∧
        c.encodeDma bank row col = .ok w ∧
        c.decodeDma w = ((bank : Int), (row : Int), ((col / 2 ^ c.addressAlign * 2 ^ c.addressAlign : Nat) : Int)) ∧
        address = base + w * (c.dramPortWidth / 8 : Nat) + ((col % 2 ^ c.addressAlign) <<< s : Nat)) ∧
      (∀ bank row col bank' row' col', c.InRange bank row col → c.InRange bank' row' col' →
        c.encodeBus bank row col base (2 ^ b) = c.encodeBus bank' row' col' base (2 ^ b) →
        bank = bank' ∧ row = row' ∧ col = col') ∧
      (∀ address : Int, base ≤ address → address < base + 2 ^ (c.rowbits + c.bankbits + c.colbits + s) →
        ∃ bank row col, c.InRange bank row col ∧
          c.decodeBus address base (2 ^ b) = .ok ((bank : Int), (row : Int), (col : Int)) ∧
          c.encodeBus bank row col base (2 ^ b) = .ok (base + (address - base) / 2 ^ s * 2 ^ s)) ∧
      ∀ w : Nat, c.decodeBus (base + w * (c.dramPortWidth / 8 : Nat)) base (2 ^ b) = .ok (c.decodeDma w)) ∧
    ∀ k, a - 3 + k = c.addressAlign → ∀ bank row col, c.InRange bank row col → 2 ^ k ∣ col →
      ∃ address : Int, c.encodeBus bank row col base (2 ^ b) = .ok address ∧
        c.decodeBus address base (2 ^ b) = .ok ((bank : Int), (row : Int), (col : Int)) := by
  refine ⟨fun s hs => ?_, fun k hk bank row col hr hcol => ?_⟩
  · have hs' : a = 3 + c.addressAlign + s := by omega
    refine ⟨fun bank row col hr => ?_, fun bank row col bank' row' col' hr hr' heq => ?_,
      fun address hlo hhi => ?_, fun w => ?_⟩
    · refine ⟨_, _, encodeBus_eq base hr hport h3 hba hs', ?_, encodeDma_eq hr, ?_, ?_⟩
      · rw [decodeBus_eq base _ hport h3 hba hs', Nat.mul_div_cancel _ (Nat.two_pow_pos s), decode_flat hr]
      · have hclear : c.InRange bank row (col / 2 ^ c.addressAlign * 2 ^ c.addressAlign) :=
          ⟨hr.1, hr.2.1, lt_of_le_of_lt (Nat.div_mul_le_self _ _) hr.2.2⟩
        rw [decodeDma_eq, flat_div_mul halign, decode_flat hclear]
      · rw [flat_mul_eq halign hport hs', Nat.cast_add, Nat.cast_mul, Int.add_assoc]
    · rw [encodeBus_eq base hr hport h3 hba hs', encodeBus_eq base hr' hport h3 hba hs'] at heq
      have hmul : c.flat bank row col * 2 ^ s = c.flat bank' row' col' * 2 ^ s := by
        have := Except.ok.inj heq
        omega
      exact flat_injective hr hr' (Nat.eq_of_mul_eq_mul_right (Nat.two_pow_pos s) hmul)
    · exact exists_location base hport h3 hba hs' hlo hhi
    · rw [port_bytes hport hs', ← Nat.cast_mul, decodeBus_eq base _ hport h3 hba hs', ← Nat.mul_assoc,
        Nat.mul_div_cancel _ (Nat.two_pow_pos s), decodeDma_eq]
  · have hk' : 3 + c.addressAlign = a + k := by omega
    obtain ⟨m, rfl⟩ := hcol
    refine ⟨_, encodeBus_eq_of_neg base hr hport h3 hba hk', ?_⟩
    rw [decodeBus_eq_of_neg base _ hport h3 hba hk', flat_div_mul (by omega),
      Nat.mul_div_cancel_left _ (Nat.two_pow_pos k), Nat.mul_comm m, decode_flat hr]

/-- A DDR3 module behind a 128-bit port: 16 bytes a word, bursts of 8, one column every two bytes. -/
def ddr3Converter : DramAddressConverter :=
  { colbits := 10, rowbits := 14, bankbits := 3, addressAlign := 3, dramPortWidth := 128 }

theorem views_agree_ddr3 :
    (∃ (address : Int) (w : Nat), ddr3Converter.encodeBus 1 2 13 0x40000000 32 = .ok address ∧
      ddr3Converter.decodeBus address 0x40000000 32 = .ok (1, 2, 13) ∧ ddr3Converter.encodeDma 1 2 13 = .ok w ∧
      ddr3Converter.decodeDma w = (1, 2, 8)) ∧
    ddr3Converter.decodeBus (0x40000000 + 5 * 16) 0x40000000 32 = .ok (0, 0, 40) := by
  have h := (views_agree ddr3Converter 7 5 0x40000000 rfl (by decide) (by decide) (by decide)).1 1 rfl
  obtain ⟨address, w, h1, h2, h3, h4, -⟩ := h.1 1 2 13 ⟨by decide, by decide, by decide⟩
  exact ⟨⟨address, w, h1, h2, h3, h4⟩, (h.2.2.2 5).trans (by decide +kernel)⟩

end DramAddressConverter

end RowhammerTester.Scripts
