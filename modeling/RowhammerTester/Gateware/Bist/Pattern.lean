import Mathlib.Data.Nat.Basic
import Mathlib.Tactic.Common
import Mathlib.Algebra.Group.Nat.Defs

/-!
# The access pattern of the BIST modules and the row inversion

* `Settings` : the pattern memory and the settings of a transfer;
* `index`, `address`, `readIndex` : the pattern word, the DMA address and the compared word of the `i`-th transfer;
* `computeMemAddr`, `advance` : how the FSMs step the pattern address (`computeMemAddr_eq`, `advance_index`);
* `RowDataInverter` : the registers of the inverter, three stages from the address to the data.
-/

namespace RowhammerTester.Gateware.Bist

/-- The pattern memory and the CSR settings, constant during a transfer. `w` is the data width, `k` the width of a
pattern address and `rb` the number of row bits, which `RowDataInverter` bounds. -/
structure Settings (w k rb : Nat) where
  addrMem : BitVec k → BitVec 32
  dataMem : BitVec k → BitVec w
  modulo : Bool
  count : BitVec 32
  memMask : BitVec 32
  dataMask : BitVec k
  dataDiv : BitVec k
  divisorMask : BitVec rb
  selectionMask : BitVec (2 ^ rb)
  rowShift : Nat
  rowbits_le : rb ≤ 6

variable {aw w k rb : Nat}

/-- A counter below a bound does not wrap. -/
theorem toNat_succ_of_lt {c b : BitVec 32} (h : c.toNat < b.toNat) : (c + 1).toNat = c.toNat + 1 := by
  have hlt := b.isLt
  exact BitVec.toNat_add_of_lt (show c.toNat + 1 < 2 ^ 32 by omega)

/-! ## Pattern addresses -/

namespace Settings
variable (cfg : Settings w k rb)

/-- The pattern address of the `i`-th transfer. -/
def index (i : Nat) : BitVec k :=
  if cfg.modulo then BitVec.ofNat k (i % (cfg.dataDiv.toNat + 1)) else BitVec.ofNat k i &&& cfg.dataMask

/-- The pattern address that the Reader compares the `i`-th word with: in modulo mode its pattern FSM stays at 0. -/
def readIndex (i : Nat) : BitVec k := if cfg.modulo then 0 else BitVec.ofNat k i &&& cfg.dataMask

/-- The DMA address of the `i`-th transfer, for an address of width `aw`. -/
def address (aw i : Nat) : BitVec aw :=
  BitVec.ofNat aw ((cfg.addrMem (cfg.index i)).toNat + (i &&& cfg.memMask.toNat))

/-- The row of an address is one of those selected for inversion. -/
def inverted (a : BitVec aw) : Bool :=
  cfg.selectionMask.getLsbD (a.extractLsb' cfg.rowShift rb &&& cfg.divisorMask).toNat

/-- A pattern word as it is written to, or expected from, an address. -/
def dataAt (a : BitVec aw) (d : BitVec w) : BitVec w := if cfg.inverted a then ~~~d else d

/-- The pattern address in COMPUTE_MEM_ADDR. -/
def computeMemAddr (counter : BitVec 32) (memAddr : BitVec k) : BitVec k :=
  if !cfg.modulo then counter.setWidth k &&& cfg.dataMask else memAddr

/-- The pattern address after a transfer. -/
def advance (memAddr : BitVec k) : BitVec k :=
  if cfg.modulo && memAddr == cfg.dataDiv then 0
  else if cfg.modulo then memAddr + 1
  else memAddr

/-- The DMA address in COMPUTE_DRAM_ADDR, `datR` being the word at the read port. -/
def computeDramAddr (aw : Nat) (datR counter : BitVec 32) : BitVec aw :=
  BitVec.ofNat aw (datR.toNat + (counter &&& cfg.memMask).toNat)

/-- `n` transfers are done, another is due and `m` is its pattern address. -/
structure Due (n : Nat) (m : BitVec k) : Prop where
  lt : n < cfg.count.toNat
  memAddr : m = cfg.index n

theorem setWidth_eq_ofNat (counter : BitVec 32) : counter.setWidth k = BitVec.ofNat k counter.toNat := by
  apply BitVec.eq_of_toNat_eq
  simp

theorem computeMemAddr_eq {counter : BitVec 32} {memAddr : BitVec k}
    (h : cfg.modulo = true → memAddr = cfg.index counter.toNat) :
    cfg.computeMemAddr counter memAddr = cfg.index counter.toNat := by
  unfold computeMemAddr
  cases hm : cfg.modulo with
  | true => exact h hm
  | false =>
    rw [index, hm, setWidth_eq_ofNat]
    rfl

theorem computeMemAddr_eq_readIndex {counter : BitVec 32} {memAddr : BitVec k} (h : cfg.modulo = true → memAddr = 0) :
    cfg.computeMemAddr counter memAddr = cfg.readIndex counter.toNat := by
  unfold computeMemAddr
  cases hm : cfg.modulo with
  | true =>
    rw [readIndex, hm]
    exact h hm
  | false =>
    rw [readIndex, hm, setWidth_eq_ofNat]
    rfl

theorem index_zero (h : cfg.modulo = true) : cfg.index 0 = 0 := by
  rw [index, if_pos h, Nat.zero_mod]
  rfl

/-- In modulo mode a transfer steps the pattern address. -/
theorem advance_index (h : cfg.modulo = true) (i : Nat) : cfg.advance (cfg.index i) = cfg.index (i + 1) := by
  have hlt := cfg.dataDiv.isLt
  have hmod : i % (cfg.dataDiv.toNat + 1) < cfg.dataDiv.toNat + 1 := Nat.mod_lt i (Nat.succ_pos _)
  have hval : (cfg.index i).toNat = i % (cfg.dataDiv.toNat + 1) := by
    rw [index, if_pos h, BitVec.toNat_ofNat, Nat.mod_eq_of_lt (by omega)]
  have hsucc : (i + 1) % (cfg.dataDiv.toNat + 1) =
      if i % (cfg.dataDiv.toNat + 1) = cfg.dataDiv.toNat then 0 else i % (cfg.dataDiv.toNat + 1) + 1 := by
    rw [← Nat.mod_add_mod]
    split
    · next heq => rw [heq, Nat.mod_self]
    · next hne => rw [Nat.mod_eq_of_lt (by omega)]
  unfold advance
  rw [h, Bool.true_and]
  by_cases heq : cfg.index i = cfg.dataDiv
  · rw [if_pos (beq_iff_eq.mpr heq), index, if_pos h, hsucc, if_pos (by rw [← hval, heq])]
    rfl
  · have hne : i % (cfg.dataDiv.toNat + 1) ≠ cfg.dataDiv.toNat := by
      intro hv
      exact heq (BitVec.eq_of_toNat_eq (hval.trans hv))
    rw [if_neg (by rw [beq_iff_eq]; exact heq), if_pos rfl, index, if_pos h, index, if_pos h, hsucc, if_neg hne,
      BitVec.ofNat_add]
    rfl

theorem computeDramAddr_eq (counter : BitVec 32) :
    cfg.computeDramAddr aw (cfg.addrMem (cfg.index counter.toNat)) counter = cfg.address aw counter.toNat := by
  rw [computeDramAddr, address, BitVec.toNat_and]

/-- The row bits of the samples. -/
theorem one_le_six : 1 ≤ 6 := by decide

/-- Two transfers of two words; odd addresses are inverted. -/
def twoWords (modulo : Bool) : Settings 8 1 1 where
  addrMem m := if m = 0 then 2 else 4
  dataMem m := if m = 0 then 0x0f else 0x55
  modulo := modulo
  count := 2
  memMask := 1
  dataMask := 1
  dataDiv := 1
  divisorMask := 1
  selectionMask := 2
  rowShift := 0
  rowbits_le := one_le_six

end Settings

/-! ## Row inversion -/

/-- The output of `migen.genlib.coding.Decoder`. -/
def oneHot (i : BitVec rb) : BitVec (2 ^ rb) := BitVec.ofNat (2 ^ rb) (2 ^ i.toNat)

theorem and_oneHot_ne_zero (m : BitVec (2 ^ rb)) (i : BitVec rb) :
    (m &&& oneHot i != 0#(2 ^ rb)) = m.getLsbD i.toNat := by
  have hlt := i.isLt
  have hbit : ∀ j, (oneHot i).getLsbD j = decide (j = i.toNat) := by
    intro j
    by_cases hj : j < 2 ^ rb
    · rw [oneHot, BitVec.getLsbD_ofNat, Nat.testBit_two_pow, decide_eq_true hj, Bool.true_and]
      exact decide_eq_decide.mpr eq_comm
    · rw [BitVec.getLsbD_of_ge _ _ (by omega), eq_comm]
      exact decide_eq_false (by omega)
  cases hm : m.getLsbD i.toNat with
  | true =>
    rw [bne_iff_ne]
    intro hzero
    have := congrArg (fun v => v.getLsbD i.toNat) hzero
    simp only [BitVec.getLsbD_and, hm, hbit, decide_true, Bool.and_true, BitVec.getLsbD_zero] at this
    cases this
  | false =>
    rw [bne_eq_false_iff_eq]
    apply BitVec.eq_of_getLsbD_eq
    intro j _
    rw [BitVec.getLsbD_and, hbit, BitVec.getLsbD_zero]
    by_cases hj : j = i.toNat
    · rw [hj, hm]
      rfl
    · rw [decide_eq_false hj, Bool.and_false]

/-- The registers of `RowDataInverter` and its `AddressSelector`. -/
structure RowDataInverter (w rb : Nat) where
  decoderI : BitVec rb
  selected : Bool
  dataOut : BitVec w
deriving DecidableEq, Repr

namespace RowDataInverter
variable (cfg : Settings w k rb) (inv : RowDataInverter w rb)

/-- One clock edge. -/
def step (addr : BitVec aw) (dataIn : BitVec w) : RowDataInverter w rb :=
  { decoderI := addr.extractLsb' cfg.rowShift rb &&& cfg.divisorMask
    selected := cfg.selectionMask &&& oneHot inv.decoderI != 0#(2 ^ rb)
    dataOut := if inv.selected then ~~~dataIn else dataIn }

/-- The first stage holds the row of `a`. -/
def Decoded (a : BitVec aw) : Prop := inv.decoderI = a.extractLsb' cfg.rowShift rb &&& cfg.divisorMask

/-- The second stage tells whether the row of `a` is inverted. -/
def Selected (a : BitVec aw) : Prop := inv.selected = cfg.inverted a

theorem step_decoded (a : BitVec aw) (d : BitVec w) : (step cfg inv a d).Decoded cfg a := rfl

theorem step_selected {a : BitVec aw} (h : inv.Decoded cfg a) (a' : BitVec aw) (d : BitVec w) :
    (step cfg inv a' d).Selected cfg a := by
  unfold Selected step
  rw [and_oneHot_ne_zero, show inv.decoderI = _ from h]
  rfl

theorem step_dataOut {a : BitVec aw} (h : inv.Selected cfg a) (a' : BitVec aw) (d : BitVec w) :
    (step cfg inv a' d).dataOut = cfg.dataAt a d := by
  unfold step
  rw [show inv.selected = _ from h]
  rfl

end RowDataInverter

end RowhammerTester.Gateware.Bist
