import RowhammerTester.Hdl.Part
import RowhammerTester.Scripts.MemTest.FillAndTest

/-!
# Filling and testing round after round

`hw_memset` and `hw_memtest` leave the modules ready for each other: they set the pattern, the range and the masks, and
leave the inverters as they are.

* `Keeps` : the settings that no script changes; `Testable` : the ranges that can be filled and tested;
* `hwMemset_fills`, `hwMemtest_finds` : the scripts from idle modules to idle modules;
* `extends_hwMemset`, `extends_hwMemtest` : more rounds of the polls only go on further.
-/

namespace RowhammerTester.Scripts
open RowhammerTester.Hdl RowhammerTester.Gateware.Bist

variable {aw w k rb : Nat}

/-- The settings of both modules that the scripts do not change. -/
structure Keeps (aw : Nat) (cs cs' : Csrs w k rb) : Prop where
  writer_modulo : cs'.writer.modulo = cs.writer.modulo
  reader_modulo : cs'.reader.modulo = cs.reader.modulo
  writer_inverted : ∀ a : BitVec aw, cs'.writer.inverted a = cs.writer.inverted a
  reader_inverted : ∀ a : BitVec aw, cs'.reader.inverted a = cs.reader.inverted a

theorem Keeps.trans {cs₁ cs₂ cs₃ : Csrs w k rb} (h : Keeps aw cs₁ cs₂) (h' : Keeps aw cs₂ cs₃) : Keeps aw cs₁ cs₃ where
  writer_modulo := h'.writer_modulo.trans h.writer_modulo
  reader_modulo := h'.reader_modulo.trans h.reader_modulo
  writer_inverted a := (h'.writer_inverted a).trans (h.writer_inverted a)
  reader_inverted a := (h'.reader_inverted a).trans (h.reader_inverted a)

/-- A range of the DRAM, not empty, of whole DMA words that are 32-bit words side by side. -/
structure Testable (aw w offset size : Nat) : Prop where
  lanes : 32 ∣ w
  narrow : aw ≤ 32
  range : InRange aw w offset size
  pos : 0 < size

namespace Testable
variable {offset size : Nat} (h : Testable aw w offset size)
include h

theorem size_mod : size % (w / 8) = 0 := Nat.mod_eq_zero_of_dvd h.range.size_dvd

theorem count_ne_zero : size / (w / 8) ≠ 0 := by
  have hbytes : 0 < w / 8 := by
    apply Nat.pos_of_ne_zero
    intro hzero
    have hdvd := h.range.size_dvd
    rw [hzero, Nat.zero_dvd] at hdvd
    exact Nat.ne_of_gt h.pos hdvd
  exact Nat.ne_of_gt (Nat.div_pos (Nat.le_of_dvd h.pos h.range.size_dvd) hbytes)

theorem base_lt : offset / (w / 8) < 2 ^ 32 := by
  have hpow : 2 ^ aw ≤ 2 ^ 32 := Nat.pow_le_pow_right (by decide) h.narrow
  have hrange := h.range.range
  have hcount := Nat.pos_of_ne_zero h.count_ne_zero
  omega

theorem toNat_count : (BitVec.ofNat 32 (size / (w / 8))).toNat = size / (w / 8) :=
  (BitVec.toNat_ofNat ..).trans (Nat.mod_eq_of_lt h.range.count)

end Testable

/-! ## The pattern -/

theorem patternAt_congr {cfg cfg' : Settings w k rb} (h : ∀ a : BitVec aw, cfg.inverted a = cfg'.inverted a) (p : Nat) :
    (patternAt cfg p : BitVec aw → BitVec w) = patternAt cfg' p := by
  funext a
  rw [patternAt, patternAt, Settings.dataAt, Settings.dataAt, h a]

theorem filled_congr {cfg cfg' : Settings w k rb} (h : ∀ a : BitVec aw, cfg.inverted a = cfg'.inverted a)
    (base n p : Nat) (mem : BitVec aw → BitVec w) : filled cfg base n p mem = filled cfg' base n p mem := by
  funext a
  rw [filled, filled, patternAt_congr h]

/-- The words that are found hold something else than the pattern. -/
theorem changedWords_congr {cfg cfg' : Settings w k rb} (h : ∀ a : BitVec aw, cfg.inverted a = cfg'.inverted a)
    (base n p : Nat) (mem : BitVec aw → BitVec w) : changedWords cfg base n p mem = changedWords cfg' base n p mem := by
  rw [changedWords, changedWords, patternAt_congr h]

theorem filled_mask (cfg : Settings w k rb) (base n p : Nat) (mem : BitVec aw → BitVec w) :
    filled cfg base n (p &&& 0xffffffff) mem = filled cfg base n p mem := by
  funext a
  rw [filled, filled, patternAt_mask]

theorem changedWords_mask (cfg : Settings w k rb) (base n p : Nat) (mem : BitVec aw → BitVec w) :
    changedWords cfg base n (p &&& 0xffffffff) mem = changedWords cfg base n p mem := by
  rw [changedWords, changedWords, patternAt_mask]

/-! ## The scripts -/

section Rounds
variable {F : Fifo (BitVec aw)} {G : Fifo (Reader.ErrorRecord w)} {cs : Csrs w k rb} {mem : BitVec aw → BitVec w}
  {env : Nat → Stalls} {wait : Nat → Nat} {offset size : Nat}

/-- `hw_memset` fills the range. -/
theorem hwMemset_fills (hfair : FairStalls env) (hrange : Testable aw w offset size) (hmodulo : cs.writer.modulo = false)
    (p : Nat) : Triple board env wait (Rest (F := F) (G := G) cs mem) (fun g => hwMemset w g offset size [p]) fun _ c =>
      ∃ cs', Keeps aw cs cs' ∧ Rest cs' (filled cs.writer (offset / (w / 8)) (size / (w / 8)) p mem) c := by
  apply (hwMemset_spec hfair hrange.size_mod hrange.count_ne_zero).conseq (fun _ h => h)
  intro _ c hrest
  rw [hrange.toNat_count, store_covering hrange.lanes hmodulo hrange.base_lt _ hrange.range.count hrange.range.range,
    filled_mask] at hrest
  refine ⟨_, ?_, hrest⟩
  exact ⟨rfl, rfl, fun _ => rfl, fun _ => rfl⟩

/-- `hw_memtest` finds the words of the range that do not hold the pattern. -/
theorem hwMemtest_finds (hwait : ∀ t, 7 ≤ wait t) (hlag : ∀ q, G.lag q ≤ 3) (hfair : FairStalls env)
    (hrange : Testable aw w offset size) (hmodulo : cs.reader.modulo = false) (p : Nat) :
    Triple board env wait (Rest (F := F) (G := G) cs mem) (fun g => hwMemtest w g offset size [p]) fun errors c =>
      errors = changedWords cs.reader (offset / (w / 8)) (size / (w / 8)) p mem ∧
        ∃ cs', Keeps aw cs cs' ∧ Rest cs' mem c := by
  apply (hwMemtest_rest hwait hlag hfair hrange.size_mod hrange.count_ne_zero).conseq (fun _ h => h)
  intro errors c hdone
  obtain ⟨rfl, hrest⟩ := hdone
  refine ⟨?_, _, ?_, hrest⟩
  · rw [hrange.toNat_count, errors_covering hrange.lanes hmodulo hrange.base_lt hrange.range.count hrange.range.range
      hrange.narrow, changedWords_mask]
  · exact ⟨rfl, rfl, fun _ => rfl, fun _ => rfl⟩

end Rounds

/-! ## More rounds -/

section Extends
open Host
variable {m n : Nat} (hle : m ≤ n)
include hle

theorem extends_hwMemset (w offset size : Nat) (patterns : List Nat) :
    Extends .outOfRounds (hwMemset w m offset size patterns) (hwMemset w n offset size patterns) := by
  unfold hwMemset
  iterate 9 refine Extends.seq _ fun _ => ?_
  apply Extends.bind
  · exact Extends.loop (fun _ => Extends.refl _) hle ()
  · exact fun _ => Extends.refl _

theorem extends_appendErrors (count : Nat) (err : List BistError) :
    Extends .outOfRounds (appendErrors m count err) (appendErrors n count err) :=
  Extends.loop (fun _ => Extends.refl _) hle err

theorem extends_waitReader (count : Nat) (errors : List BistError) :
    Extends .outOfRounds (waitReader m count errors) (waitReader n count errors) := by
  apply Extends.loop _ hle
  intro errors
  apply Extends.seq
  intro ready
  split
  · exact Extends.refl _
  · exact (extends_appendErrors hle count errors).bind fun _ => Extends.refl _

theorem extends_hwMemtest (w offset size : Nat) (patterns : List Nat) :
    Extends .outOfRounds (hwMemtest w m offset size patterns) (hwMemtest w n offset size patterns) := by
  unfold hwMemtest
  iterate 11 refine Extends.seq _ fun _ => ?_
  apply (extends_waitReader hle _ _).bind
  intro errors
  apply Extends.seq
  intro _
  exact (extends_appendErrors hle _ _).bind fun _ => Extends.refl _

end Extends

end RowhammerTester.Scripts
