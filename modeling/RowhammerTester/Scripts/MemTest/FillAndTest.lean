import RowhammerTester.Scripts.MemTest.Polling

/-!
# Filling and testing a range of the DRAM

* `InRange` : the ranges of DMA words; `FillsAndTests` : what `hw_memset` and `hw_memtest` are for;
* `fills_and_tests_iff` : they do it for every range but the empty one, whatever the stalls, the polling and the changes
  of the DRAM in between.
-/

namespace RowhammerTester.Scripts
open RowhammerTester.Hdl RowhammerTester.Gateware.Bist

section FillAndTest
variable {aw w k rb : Nat} {F : Fifo (BitVec aw)} {G : Fifo (Reader.ErrorRecord w)} {env : Nat → Stalls}
  {wait : Nat → Nat}

/-- The arguments name a range of DMA words, as many as the CSR `count` can say. -/
structure InRange (aw w offset size : Nat) : Prop where
  offset_dvd : w / 8 ∣ offset
  size_dvd : w / 8 ∣ size
  range : offset / (w / 8) + size / (w / 8) ≤ 2 ^ aw
  count : size / (w / 8) < 2 ^ 32

/-- `hw_memset` fills the range with the pattern and leaves the rest of the DRAM; `hw_memtest`, called after the DRAM
was changed, returns the words of the range that do not hold the pattern. -/
def FillsAndTests (env : Nat → Stalls) (wait : Nat → Nat) (c₀ : At (Board F G k rb)) (offset size p : Nat)
    (change : (BitVec aw → BitVec w) → BitVec aw → BitVec w) : Prop :=
  ∃ f c₁ c₂ errors,
    (∀ g, f ≤ g → runHost board env wait (hwMemset w g offset size [p]) c₀ = (.ok (), c₁)) ∧
    c₁.device.dram = filled c₀.device.csrs.writer (offset / (w / 8)) (size / (w / 8)) p c₀.device.dram ∧
    (∀ g, f ≤ g → runHost board env wait (hwMemtest w g offset size [p])
      ⟨c₁.time, { c₁.device with dram := change c₁.device.dram }⟩ = (.ok errors, c₂)) ∧
    errors = changedWords c₀.device.csrs.reader (offset / (w / 8)) (size / (w / 8)) p (change c₁.device.dram)

/-- For an empty range the progress bar of `hw_memset` divides by zero. -/
theorem hwMemset_fails {size : Nat} (hcount : size / (w / 8) = 0) (g offset p : Nat) :
    Fails (board : Device (Board F G k rb) Stalls Access Nat) env wait (hwMemset w g offset size [p]) := by
  unfold hwMemset
  refine Fails.bind _ fun _ => Fails.bind _ fun _ => Fails.bind _ fun _ => Fails.bind _ fun _ => Fails.bind _ fun _ =>
    Fails.bind _ fun _ => Fails.bind _ fun _ => Fails.bind _ fun _ => Fails.bind _ fun _ => Fails.bind _ fun _ =>
    Fails.bind _ fun done => ?_
  rw [_progress, Host.check, if_neg (not_not_intro hcount)]
  exact Fails.fail board env wait _

theorem patternAt_mask (cfg : Settings w k rb) (p : Nat) :
    (patternAt cfg (p &&& 0xffffffff) : BitVec aw → BitVec w) = patternAt cfg p := by
  have hmask : BitVec.ofNat 32 (p &&& 0xffffffff) = BitVec.ofNat 32 p := by
    rw [show p &&& 0xffffffff = p % 2 ^ 32 from Nat.and_two_pow_sub_one_eq_mod p 32]
    apply BitVec.eq_of_toNat_eq
    rw [BitVec.toNat_ofNat, BitVec.toNat_ofNat, Nat.mod_mod]
  funext a
  rw [patternAt, patternWord, hmask]
  rfl

/-- **Filling and testing a range.** The host runs `hw_memset` and later `hw_memtest` beside the idle modules; between
the calls the DRAM may change, the DMAs stall as they like but not forever, and the accesses of the host are at least
eight cycles apart. The range is filled and the changed words are returned iff the range is not empty. -/
theorem fills_and_tests_iff (hw : 0 < w) (hlanes : 32 ∣ w) (haw : aw ≤ 32) (hlag : ∀ q, G.lag q ≤ 3)
    (env : Nat → Stalls) (hfair : FairStalls env) (wait : Nat → Nat) (hwait : ∀ t, 7 ≤ wait t)
    (c₀ : At (Board F G k rb)) (hready : Writer.ready c₀.device.writer = true) (hidle : Reader.Idle c₀.device.reader)
    (hwriter : c₀.device.csrs.writer.modulo = false) (hreader : c₀.device.csrs.reader.modulo = false)
    (offset size p : Nat) (hrange : InRange aw w offset size)
    (change : (BitVec aw → BitVec w) → BitVec aw → BitVec w) :
    FillsAndTests env wait c₀ offset size p change ↔ 0 < size := by
  constructor
  · rintro ⟨f, c₁, c₂, errors, hset, -⟩
    apply Nat.pos_of_ne_zero
    rintro rfl
    exact hwMemset_fails (Nat.zero_div _) f offset p c₀ () c₁ (hset f (Nat.le_refl f))
  · intro hpos
    have hbytes : 0 < w / 8 := by omega
    have hsize : size % (w / 8) = 0 := Nat.mod_eq_zero_of_dvd hrange.size_dvd
    have hcount : size / (w / 8) ≠ 0 := Nat.ne_of_gt (Nat.div_pos (Nat.le_of_dvd hpos hrange.size_dvd) hbytes)
    have hpow : 2 ^ aw ≤ 2 ^ 32 := Nat.pow_le_pow_right (by decide) haw
    have hbase : offset / (w / 8) < 2 ^ 32 :=
      Nat.lt_of_lt_of_le (Nat.lt_add_of_pos_right (Nat.pos_of_ne_zero hcount)) (Nat.le_trans hrange.range hpow)
    have htoNat : (BitVec.ofNat 32 (size / (w / 8))).toNat = size / (w / 8) :=
      (BitVec.toNat_ofNat ..).trans (Nat.mod_eq_of_lt hrange.count)
    have hrest : Rest c₀.device.csrs c₀.device.dram c₀ := ⟨rfl, beq_iff_eq.mp hready, hidle, rfl⟩
    obtain ⟨f₁, _, c₁, hset, hrest₁⟩ := hwMemset_spec hfair hsize hcount c₀ hrest
    have hrest₂ : Rest c₁.device.csrs (change c₁.device.dram)
        ⟨c₁.time, { c₁.device with dram := change c₁.device.dram }⟩ := ⟨rfl, hrest₁.writer, hrest₁.reader, rfl⟩
    obtain ⟨f₂, errors, c₂, htest, herrors⟩ := hwMemtest_spec hwait hlag hfair hsize hcount _ hrest₂
    refine ⟨max f₁ f₂, c₁, c₂, errors, fun g hg => hset g (by omega), ?_, fun g hg => htest g (by omega), ?_⟩
    · rw [hrest₁.dram, htoNat, store_covering hlanes hwriter hbase _ hrange.count hrange.range]
      funext a
      rw [filled, filled, patternAt_mask]
    · have hmodulo : c₁.device.csrs.reader.modulo = false := by
        rw [hrest₁.csrs]
        exact hreader
      rw [herrors, htoNat, errors_covering hlanes hmodulo hbase hrange.count hrange.range haw, changedWords,
        changedWords, patternAt_mask, hrest₁.csrs]
      rfl

end FillAndTest

/-- A DMA of one 32-bit word; odd addresses are inverted. -/
def sampleSettings : Settings 32 1 1 where
  addrMem _ := 0
  dataMem _ := 0
  modulo := false
  count := 0
  memMask := 0
  dataMask := 1
  dataDiv := 1
  divisorMask := 1
  selectionMask := 2
  rowShift := 0
  rowbits_le := Settings.one_le_six

/-- The modules after reset, with 16 words of DRAM. -/
def sampleBoard : Board (Fifo.fallThrough 3 : Fifo (BitVec 4))
    (Fifo.buffered 1 : Fifo (Reader.ErrorRecord 32)) 1 1 where
  csrs := ⟨sampleSettings, sampleSettings, false⟩
  writer := Writer.reset
  reader := Reader.reset
  dram a := a.setWidth 32

def sampleStalls (t : Nat) : Stalls := ⟨t % 3 == 0, t % 2 == 0, t % 5 == 0⟩

theorem sampleStalls_fair : FairStalls sampleStalls where
  writerReady t := ⟨3 * t, by omega, by simp [sampleStalls]⟩
  readerReady t := ⟨2 * t, by omega, by simp [sampleStalls]⟩
  answered t := ⟨5 * t, by omega, by simp [sampleStalls]⟩

theorem buffered_lag_le (q : (Fifo.buffered 1 : Fifo (Reader.ErrorRecord 32)).State) :
    (Fifo.buffered 1 : Fifo (Reader.ErrorRecord 32)).lag q ≤ 3 := by
  show (if q.2.isSome then 0 else 1) ≤ 3
  split <;> decide

theorem fills_and_tests_sample :
    FillsAndTests sampleStalls (fun t => 7 + t % 3) ⟨0, sampleBoard⟩ 8 24 0x1234
      (fun mem => Function.update (Function.update mem 3 7) 4 5) ∧
    changedWords sampleSettings 2 6 0x1234 (Function.update (Function.update
      (filled sampleSettings 2 6 0x1234 sampleBoard.dram) 3 7) 4 5) = [⟨3, 7, 0xffffedcb⟩, ⟨4, 5, 0x1234⟩] := by
  refine ⟨(fills_and_tests_iff (by decide) (by decide) (by decide) buffered_lag_le sampleStalls sampleStalls_fair _
    (fun t => by omega) ⟨0, sampleBoard⟩ rfl Reader.reset_idle rfl rfl 8 24 0x1234 ?_ _).mpr (by decide), ?_⟩
  · exact ⟨by decide, by decide, by decide, by decide⟩
  · decide +kernel

/-- The empty range is a range, but `hw_memset` raises. -/
theorem empty_range_raises :
    InRange 4 32 8 0 ∧ Writer.ready sampleBoard.writer = true ∧ Reader.Idle sampleBoard.reader ∧
      (runHost board sampleStalls (fun _ => 7) (hwMemset 32 1 8 0 [0x1234]) ⟨0, sampleBoard⟩).1 =
        .error (.raised .zeroDivisionError) ∧
      ¬ FillsAndTests sampleStalls (fun _ => 7) ⟨0, sampleBoard⟩ 8 0 0x1234 id := by
  refine ⟨⟨by decide, by decide, by decide, by decide⟩, rfl, Reader.reset_idle, by decide +kernel, ?_⟩
  rintro ⟨f, c₁, c₂, errors, hset, -⟩
  exact hwMemset_fails (by decide) f 8 0x1234 _ () c₁ (hset f (Nat.le_refl f))

end RowhammerTester.Scripts
