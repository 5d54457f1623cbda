import RowhammerTester.Gateware.Bist.Writer
import RowhammerTester.Gateware.Bist.ReaderProgress
import RowhammerTester.Scripts.AddressConverter

/-!
# `setup_inverters`

The rows whose data is inverted, as they are documented and as the registers select them.

* `setupInverters` : the four registers, truncated to the widths they have in the gateware;
* `DramAddressConverter.rowShift`, `rowOf` : the row of a DMA address;
* `inverted_eq` : the gateware takes the row modulo the smaller of the divisor and `2 ^ rowbits`;
* `lawData` : a pattern word as the documentation has it; `Agrees` : the rows for which this makes no difference.
-/

namespace RowhammerTester.Scripts
open RowhammerTester.Hdl RowhammerTester.Gateware RowhammerTester.Gateware.Bist
open DramAddressConverter (ddr3Converter)

namespace DramAddressConverter

/-- `row_shift` of `inversion_kwargs`. -/
def rowShift (c : DramAddressConverter) : Nat := c.bankbits + c.colbits - c.addressAlign

/-- The width of a DMA address. -/
def addressWidth (c : DramAddressConverter) : Nat := c.rowbits + c.rowShift

/-- The row of a DMA address. -/
def rowOf (c : DramAddressConverter) (a : BitVec c.addressWidth) : Nat := (c.decodeDma a.toNat).2.1.toNat

theorem rowOf_eq {c : DramAddressConverter} (h : c.addressAlign ≤ c.bankbits + c.colbits) (a : BitVec c.addressWidth) :
    c.rowOf a = a.toNat / 2 ^ c.rowShift := by
  have hlt : a.toNat / 2 ^ c.rowShift < 2 ^ c.rowbits := by
    rw [Nat.div_lt_iff_lt_mul (Nat.two_pow_pos _), ← pow_add]
    exact a.isLt
  have hpow : 2 ^ c.colbits * 2 ^ c.bankbits = 2 ^ c.rowShift * 2 ^ c.addressAlign := by
    rw [← pow_add, ← pow_add, rowShift, Nat.sub_add_cancel h, Nat.add_comm]
  rw [rowOf, decodeDma_eq, decode_natCast]
  dsimp only
  rw [Int.toNat_natCast, Nat.div_div_eq_div_mul, hpow, Nat.mul_div_mul_right _ _ (Nat.two_pow_pos _),
    Nat.mod_eq_of_lt hlt]

end DramAddressConverter

variable {w k k' rb : Nat}

/-- The two registers of an inverter. -/
def writeInverter (cfg : Settings w k rb) (divisor mask : Nat) : Settings w k rb :=
  { cfg with divisorMask := BitVec.ofInt rb ((divisor : Int) - 1), selectionMask := BitVec.ofNat (2 ^ rb) mask }

/-- `setup_inverters`, on the settings of the Writer and the Reader. -/
def setupInverters (divisor mask : Nat) (writer : Settings w k rb) (reader : Settings w k' rb) :
    Py (Settings w k rb × Settings w k' rb) := do
  Py.check (Int.land divisor ((divisor : Int) - 1) = 0) (.assertionError "Divisor must be power of 2")
  return (writeInverter writer divisor mask, writeInverter reader divisor mask)

/-- A pattern word of a row, as documented for `inversion_divisor` and `inversion_mask`. -/
def lawData (divisor mask row : Nat) (d : BitVec w) : BitVec w := if mask.testBit (row % divisor) then ~~~d else d

/-- The window of `2 ^ rb` rows makes no difference to a row. -/
def Agrees (rb divisor mask row : Nat) : Prop :=
  divisor ≤ 2 ^ rb ∨ mask.testBit (row % divisor) = mask.testBit (row % 2 ^ rb)

theorem natCast_two_pow_sub_one (e : Nat) : ((2 ^ e : Nat) : Int) - 1 = ((2 ^ e - 1 : Nat) : Int) := by
  rw [Nat.cast_sub Nat.one_le_two_pow]
  rfl

theorem setupInverters_eq (e mask : Nat) (writer : Settings w k rb) (reader : Settings w k' rb) :
    setupInverters (2 ^ e) mask writer reader =
      .ok (writeInverter writer (2 ^ e) mask, writeInverter reader (2 ^ e) mask) := by
  have hland : Int.land ((2 ^ e : Nat) : Int) (((2 ^ e : Nat) : Int) - 1) = 0 := by
    rw [natCast_two_pow_sub_one]
    change (((2 ^ e &&& (2 ^ e - 1) : Nat) : Int)) = 0
    rw [Nat.and_two_pow_sub_one_eq_mod, Nat.mod_self]
    rfl
  rw [setupInverters, Py.check_of_pos hland]
  rfl

/-! ## What the registers select -/

section Selected
variable {c : DramAddressConverter} {cfg : Settings w k rb}

/-- The gateware reduces the row modulo the divisor and modulo `2 ^ rb`. -/
theorem inverted_eq (h : c.addressAlign ≤ c.bankbits + c.colbits) (hshift : cfg.rowShift = c.rowShift) (e mask : Nat)
    (a : BitVec c.addressWidth) :
    (writeInverter cfg (2 ^ e) mask).inverted a = mask.testBit (c.rowOf a % 2 ^ e % 2 ^ rb) := by
  have hindex : (a.extractLsb' cfg.rowShift rb &&& BitVec.ofInt rb (((2 ^ e : Nat) : Int) - 1)).toNat =
      c.rowOf a % 2 ^ e % 2 ^ rb := by
    rw [natCast_two_pow_sub_one, BitVec.ofInt_natCast, BitVec.toNat_and, BitVec.extractLsb'_toNat, BitVec.toNat_ofNat,
      ← Nat.and_mod_two_pow, Nat.and_two_pow_sub_one_eq_mod, Nat.shiftRight_eq_div_pow, hshift,
      DramAddressConverter.rowOf_eq h]
  have hlt : c.rowOf a % 2 ^ e % 2 ^ rb < 2 ^ rb := Nat.mod_lt _ (Nat.two_pow_pos rb)
  unfold Settings.inverted
  simp only [writeInverter]
  rw [hindex, BitVec.getLsbD_ofNat, decide_eq_true hlt, Bool.true_and]

/-- The bit that the gateware takes is the documented one. -/
theorem testBit_eq_iff_agrees (e mask row : Nat) :
    mask.testBit (row % 2 ^ e % 2 ^ rb) = mask.testBit (row % 2 ^ e) ↔ Agrees rb (2 ^ e) mask row := by
  unfold Agrees
  by_cases hle : 2 ^ e ≤ 2 ^ rb
  · have hlt : row % 2 ^ e < 2 ^ rb := Nat.lt_of_lt_of_le (Nat.mod_lt _ (Nat.two_pow_pos e)) hle
    rw [Nat.mod_eq_of_lt hlt]
    exact ⟨fun _ => Or.inl hle, fun _ => rfl⟩
  · have hrb : rb ≤ e := by
      by_contra hlt
      exact hle (Nat.pow_le_pow_right (by decide) (by omega))
    rw [Nat.mod_mod_of_dvd _ (pow_dvd_pow 2 hrb), eq_comm]
    exact ⟨Or.inr, fun h => h.resolve_left hle⟩

theorem not_ne_self (hw : 0 < w) (d : BitVec w) : ~~~d ≠ d := by
  intro h
  have hbit := congrArg (fun x => BitVec.getLsbD x 0) h
  simp [hw] at hbit

/-- **The data of a DMA word** is the documented one exactly where the window makes no difference. -/
theorem dataAt_eq_lawData_iff (h : c.addressAlign ≤ c.bankbits + c.colbits) (hshift : cfg.rowShift = c.rowShift)
    (hw : 0 < w) (e mask : Nat) (a : BitVec c.addressWidth) (d : BitVec w) :
    (writeInverter cfg (2 ^ e) mask).dataAt a d = lawData (2 ^ e) mask (c.rowOf a) d ↔
      Agrees rb (2 ^ e) mask (c.rowOf a) := by
  rw [← testBit_eq_iff_agrees, Settings.dataAt, inverted_eq h hshift, lawData]
  have hne := not_ne_self hw d
  cases mask.testBit (c.rowOf a % 2 ^ e % 2 ^ rb) <;> cases mask.testBit (c.rowOf a % 2 ^ e) <;>
    simp [hne, hne.symm]

end Selected

/-! ## The Writer and the Reader -/

theorem eq_of_prefix_map_range {α : Type} {f : Nat → α} {n i : Nat} {x : α} {l : List α}
    (h : l <+: (List.range n).map f) (hi : l[i]? = some x) : x = f i := by
  obtain ⟨rest, hrest⟩ := h
  obtain ⟨hlt, rfl⟩ := List.getElem?_eq_some_iff.mp hi
  have hat : ((List.range n).map f)[i]? = some l[i] := by
    rw [← hrest, List.getElem?_append_left hlt]
    exact hi
  obtain ⟨_, hat⟩ := List.getElem?_eq_some_iff.mp hat
  rw [List.getElem_map, List.getElem_range] at hat
  exact hat.symm

/-- **When the inversion follows its documentation.** With the divisor `2 ^ e`, every word that the Writer writes, and
every word that the Reader expects, is the pattern word inverted according to bit `row % 2 ^ e` of the mask if and only
if the divisor is within the window of `2 ^ rb` rows, or the mask has the same bit at `row % 2 ^ rb`. -/
theorem inversion_law_iff (c : DramAddressConverter) (halign : c.addressAlign ≤ c.bankbits + c.colbits) (hw : 0 < w)
    (e mask : Nat) (writer₀ : Settings w k rb) (reader₀ : Settings w k' rb) (hwriter : writer₀.rowShift = c.rowShift)
    (hreader : reader₀.rowShift = c.rowShift) :
    ∃ writer reader, setupInverters (2 ^ e) mask writer₀ reader₀ = .ok (writer, reader) ∧
      (∀ (s : Writer.State c.addressWidth w k rb) (inp : Nat → Writer.Input) (T : Nat), Writer.ready s = true →
        (inp 0).start = true → 1 ≤ T → Writer.BusyUntil writer s inp T → ∀ i a d,
        (events (Writer.step writer) s inp Writer.write T)[i]? = some (a, d) →
        (d = lawData (2 ^ e) mask (c.rowOf a) (writer.dataMem (writer.index i)) ↔
          Agrees rb (2 ^ e) mask (c.rowOf a))) ∧
      ∀ (F : Fifo (BitVec c.addressWidth)) (G : Fifo (Reader.ErrorRecord w)) (s : Reader.State F G k' rb)
        (inp : Nat → Reader.Input) (word : Nat → BitVec c.addressWidth → BitVec w) (T : Nat), Reader.Idle s →
        Reader.OneStart inp → ∀ i data expected,
        (events (Reader.step reader word) s inp (Reader.comparison word) T)[i]? = some (data, expected) →
        (expected = lawData (2 ^ e) mask (c.rowOf (reader.address c.addressWidth i))
            (reader.dataMem (reader.readIndex i)) ↔
          Agrees rb (2 ^ e) mask (c.rowOf (reader.address c.addressWidth i))) := by
  refine ⟨_, _, setupInverters_eq e mask writer₀ reader₀, ?_, ?_⟩
  · intro s inp T hready hstart hT hbusy i a d hi
    obtain ⟨T, rfl⟩ := Nat.exists_eq_add_of_le' hT
    have hinv := Writer.run_inv (beq_iff_eq.mp hready) hstart hbusy
    rw [hinv.writes] at hi
    have hat : (a, d) = Writer.writeAt _ _ i := eq_of_prefix_map_range (List.prefix_refl _) hi
    obtain ⟨rfl, rfl⟩ := Prod.mk.inj hat
    exact dataAt_eq_lawData_iff halign hwriter hw e mask _ _
  · intro F G s inp word T hidle hinp i data expected hi
    obtain ⟨-, hpre⟩ := @Reader.prefix_run _ _ _ _ (writeInverter reader₀ (2 ^ e) mask) word _ _ s inp hidle hinp T
    have hat : (data, expected) = (_, Reader.expected _ _ i) := eq_of_prefix_map_range hpre hi
    obtain ⟨-, rfl⟩ := Prod.mk.inj hat
    exact dataAt_eq_lawData_iff halign hreader hw e mask _ _

/-- One word to the start of row 32 of a DDR3 module, with a window of 32 rows. -/
def rowThirtyTwo : Settings 8 1 5 where
  addrMem _ := 32768
  dataMem _ := 0x0f
  modulo := false
  count := 1
  memMask := 0
  dataMask := 0
  dataDiv := 0
  divisorMask := 0
  selectionMask := 0
  rowShift := ddr3Converter.rowShift
  rowbits_le := by decide

/-- The start pulse, and a DMA that is always ready. -/
def atOnce (t : Nat) : Writer.Input := ⟨t == 0, true⟩

theorem inversion_law_iff_rowThirtyTwo : ∃ writer reader,
    setupInverters (2 ^ 5) 1 rowThirtyTwo rowThirtyTwo = .ok (writer, reader) ∧
    events (Writer.step writer) (Writer.reset : Writer.State ddr3Converter.addressWidth 8 1 5) atOnce Writer.write 8 =
      [(32768, 0xf0)] ∧ lawData 32 1 (ddr3Converter.rowOf 32768) (0x0f : BitVec 8) = 0xf0 := by
  obtain ⟨writer, reader, hok, hlaw, -⟩ :=
    inversion_law_iff ddr3Converter (by decide) (by decide) 5 1 rowThirtyTwo rowThirtyTwo rfl rfl
  obtain ⟨rfl, rfl⟩ := Prod.mk.inj (Except.ok.inj hok)
  have hev : events (Writer.step (writeInverter rowThirtyTwo (2 ^ 5) 1))
      (Writer.reset : Writer.State ddr3Converter.addressWidth 8 1 5) atOnce Writer.write 8 = [(32768, 0xf0)] := by
    decide +kernel
  have hbusy : Writer.BusyUntil (writeInverter rowThirtyTwo (2 ^ 5) 1)
      (Writer.reset : Writer.State ddr3Converter.addressWidth 8 1 5) atOnce 8 := by
    have hall : ∀ t < 8, 1 ≤ t → Writer.ready (run (Writer.step (writeInverter rowThirtyTwo (2 ^ 5) 1))
        (Writer.reset : Writer.State ddr3Converter.addressWidth 8 1 5) atOnce t) = false := by
      decide +kernel
    exact fun t ht hlt => hall t hlt ht
  refine ⟨_, _, hok, hev, ?_⟩
  have hat := hlaw _ _ 8 rfl rfl (by decide) hbusy 0 32768 0xf0 (by rw [hev]; rfl)
  exact (hat.mpr (Or.inl (by decide))).symm

/-- With the divisor 64 and bit 32 of the mask, row 32 is written as it is. -/
theorem row_beyond_window : ∃ writer reader,
    setupInverters 64 (2 ^ 32) rowThirtyTwo rowThirtyTwo = .ok (writer, reader) ∧
    events (Writer.step writer) (Writer.reset : Writer.State ddr3Converter.addressWidth 8 1 5) atOnce Writer.write 8 =
      [(32768, 0x0f)] ∧
    ddr3Converter.rowOf 32768 = 32 ∧ lawData 64 (2 ^ 32) 32 (0x0f : BitVec 8) = 0xf0 := by
  refine ⟨_, _, rfl, ?_, ?_, ?_⟩
  · decide +kernel
  · decide +kernel
  · decide +kernel

end RowhammerTester.Scripts
