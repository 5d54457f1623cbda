import RowhammerTester.Gateware.Refinement
import Mathlib.Data.Finset.Card
import Mathlib.Data.Finset.Prod

/-!
# `rddata_en` along a run

The outputs of `DFIExecutor` are registers, and the inactive branch of a phase leaves `rddata_en` as it is.

* `DfiExecutor.Input` : the signals that `DFIExecutor` reads; `phaseRun` : the registers of a phase from reset;
* `lastSent` : the last command sent on a phase; `phaseRun_rddataEn` : `rddata_en` tells whether that one is a READ;
* `Sticks` : the cycles in which `rddata_en` outlives its READ;
* `PayloadExecutor.enables`, `PayloadExecutor.reads` : what a run of the payload executor enables and reads.
-/

namespace RowhammerTester.Gateware
open RowhammerTester.Hdl

namespace DfiExecutor

/-- What `DFIExecutor` reads in one cycle. -/
structure Input where
  exec : Bool
  phase : Nat
  decoder : Decoder

/-- The command of the cycle goes to phase `i`. -/
def Selected (i : Nat) (inp : Input) : Prop := inp.phase = i ∧ inp.exec = true

/-- A READ goes to phase `i`. -/
def SendsRead (i : Nat) (inp : Input) : Prop := Selected i inp ∧ inp.decoder.opCode = OpCode.READ.value

instance (i : Nat) (inp : Input) : Decidable (Selected i inp) := inferInstanceAs (Decidable (_ ∧ _))

instance (i : Nat) (inp : Input) : Decidable (SendsRead i inp) := inferInstanceAs (Decidable (_ ∧ _))

/-- Phase `i` after `t` clock edges from reset. -/
def phaseRun (nranks i : Nat) (inp : Nat → Input) (t : Nat) : DfiPhase :=
  run (fun p x => step nranks x.decoder x.exec x.phase i p) (DfiPhase.reset nranks) inp t

/-- The last command sent on phase `i` before cycle `t`. -/
def lastSent (i : Nat) (inp : Nat → Input) : Nat → Option Decoder
  | 0 => none
  | t + 1 => if Selected i (inp t) then some (inp t).decoder else lastSent i inp t

/-- Nothing is sent on phase `i` in cycle `t`, and the last command it carried is a READ. -/
def Sticks (i : Nat) (inp : Nat → Input) (t : Nat) : Prop :=
  ¬ Selected i (inp t) ∧ ∃ d ∈ lastSent i inp t, d.opCode = OpCode.READ.value

instance (i : Nat) (inp : Nat → Input) (t : Nat) : Decidable (Sticks i inp t) := inferInstanceAs (Decidable (_ ∧ _))

theorem step_rddataEn (nranks : Nat) (decoder : Decoder) (exec : Bool) (phase i : Nat) (p : DfiPhase) :
    (step nranks decoder exec phase i p).rddataEn =
      if phase = i ∧ exec then decoder.opCode == OpCode.READ.value else p.rddataEn := by
  unfold step
  split <;> rfl

section Run
variable (nranks i : Nat) (inp : Nat → Input)

/-- `rddata_en` follows the last command of its phase. -/
theorem phaseRun_rddataEn (t : Nat) : (phaseRun nranks i inp t).rddataEn = true ↔
    ∃ d ∈ lastSent i inp t, d.opCode = OpCode.READ.value := by
  induction t with
  | zero => simp [phaseRun, DfiPhase.reset, lastSent]
  | succ t ih =>
    rw [phaseRun, run_succ, ← phaseRun, step_rddataEn, lastSent]
    by_cases h : Selected i (inp t)
    · rw [if_pos h, if_pos (show (inp t).phase = i ∧ (inp t).exec = true from h)]
      simp
    · rw [if_neg h, if_neg (show ¬ ((inp t).phase = i ∧ (inp t).exec = true) from h)]
      exact ih

/-- A phase on which nothing is sent is deselected in the next cycle. -/
theorem phaseRun_deselected {t : Nat} (h : ¬ Selected i (inp t)) :
    (phaseRun nranks i inp (t + 1)).Deselected nranks :=
  step_inactive _ h

/-- `rddata_en` shows a READ of the previous cycle, except where it sticks. -/
theorem phaseRun_rddataEn_succ (t : Nat) :
    (phaseRun nranks i inp (t + 1)).rddataEn = true ↔ SendsRead i (inp t) ∨ Sticks i inp t := by
  rw [phaseRun_rddataEn, lastSent, SendsRead, Sticks]
  by_cases h : Selected i (inp t)
  · rw [if_pos h]
    simp [h]
  · rw [if_neg h]
    simp [h]

/-- What the outputs of a phase should show of the previous cycle, and when they do. -/
theorem phaseRun_reflects_iff (t : Nat) :
    (((phaseRun nranks i inp (t + 1)).rddataEn = true ↔ SendsRead i (inp t)) ∧
      (¬ Selected i (inp t) → (phaseRun nranks i inp (t + 1)).Deselected nranks)) ↔ ¬ Sticks i inp t := by
  rw [phaseRun_rddataEn_succ]
  constructor
  · rintro ⟨h, -⟩ hstick
    exact hstick.1 (h.mp (Or.inr hstick)).1
  · intro hno
    exact ⟨⟨fun h => h.resolve_right hno, Or.inl⟩, phaseRun_deselected nranks i inp⟩

end Run

end DfiExecutor

/-! ## The payload executor -/

namespace PayloadExecutor

/-- What the executor hands to `DFIExecutor`. -/
def signals (p : Params) (s : State) : DfiExecutor.Input := ⟨exec p s, phase p s, decoder p s⟩

section Run
variable (p : Params) (mem : Nat → BitVec 32) (inp : Nat → Input)

/-- The signals of cycle `t` of a run from reset. -/
def signalsAt (t : Nat) : DfiExecutor.Input := signals p (run (step p mem) (reset p mem) inp t)

/-- The phases of the executor are those of `DFIExecutor` on its signals. -/
theorem run_phases (t i : Nat) : (run (step p mem) (reset p mem) inp t).phases i =
    DfiExecutor.phaseRun p.nranks i (signalsAt p mem inp) t := by
  induction t with
  | zero => rfl
  | succ t ih =>
    rw [run_succ, step_phases, ih]
    rfl

/-- The (cycle, phase) pairs of the first `t` clock edges after which `rddata_en` is 1. -/
def enables (t : Nat) : Finset (Nat × Nat) :=
  (Finset.range t ×ˢ Finset.range p.nphases).filter fun x =>
    ((run (step p mem) (reset p mem) inp (x.1 + 1)).phases x.2).rddataEn = true

/-- The cycles before `t` that execute a READ. -/
def reads (t : Nat) : Finset Nat :=
  (Finset.range t).filter fun u => (signalsAt p mem inp u).exec = true ∧
    (signalsAt p mem inp u).decoder.opCode = OpCode.READ.value

theorem commandPhase_lt {p : Params} (h : p.rdphase < p.nphases) (d : Decoder) : commandPhase p d < p.nphases := by
  unfold commandPhase
  split
  · exact lt_of_le_of_lt (Nat.mod_le _ _) h
  · omega

theorem phase_lt {p : Params} (h : p.rdphase < p.nphases) (s : State) : phase p s < p.nphases := by
  unfold phase
  split
  · exact commandPhase_lt h _
  · omega

/-- The pairs that show a READ: one for every READ. -/
theorem card_image_reads (t : Nat) :
    ((reads p mem inp t).image fun u => (u, (signalsAt p mem inp u).phase)).card = (reads p mem inp t).card :=
  Finset.card_image_of_injective _ fun _ _ h => congrArg Prod.fst h

theorem mem_enables {p : Params} {mem : Nat → BitVec 32} {inp : Nat → Input} {t u i : Nat} :
    (u, i) ∈ enables p mem inp t ↔ u < t ∧ i < p.nphases ∧
      (DfiExecutor.SendsRead i (signalsAt p mem inp u) ∨ DfiExecutor.Sticks i (signalsAt p mem inp) u) := by
  rw [enables, Finset.mem_filter, Finset.mem_product, Finset.mem_range, Finset.mem_range, run_phases,
    DfiExecutor.phaseRun_rddataEn_succ, and_assoc]

theorem image_reads_subset (h : p.rdphase < p.nphases) (t : Nat) :
    (reads p mem inp t).image (fun u => (u, (signalsAt p mem inp u).phase)) ⊆ enables p mem inp t := by
  intro x hx
  obtain ⟨u, hu, rfl⟩ := Finset.mem_image.mp hx
  obtain ⟨hut, hexec, hop⟩ := Finset.mem_filter.mp hu
  exact mem_enables.mpr ⟨Finset.mem_range.mp hut, phase_lt h _, Or.inl ⟨⟨rfl, hexec⟩, hop⟩⟩

/-- As many pairs as READs: exactly when `rddata_en` sticks nowhere. -/
theorem card_enables_eq_iff (h : p.rdphase < p.nphases) (t : Nat) :
    (enables p mem inp t).card = (reads p mem inp t).card ↔
      ∀ u < t, ∀ i < p.nphases, ¬ DfiExecutor.Sticks i (signalsAt p mem inp) u := by
  rw [← card_image_reads]
  constructor
  · intro hcard u hu i hi hstick
    have heq := Finset.eq_of_subset_of_card_le (image_reads_subset p mem inp h t) (le_of_eq hcard)
    have hmem : (u, i) ∈ enables p mem inp t := mem_enables.mpr ⟨hu, hi, Or.inr hstick⟩
    rw [← heq] at hmem
    obtain ⟨v, hv, hvu⟩ := Finset.mem_image.mp hmem
    obtain ⟨rfl, rfl⟩ := Prod.mk.inj hvu
    exact hstick.1 ⟨rfl, (Finset.mem_filter.mp hv).2.1⟩
  · intro hno
    congr 1
    refine Finset.Subset.antisymm ?_ (image_reads_subset p mem inp h t)
    rintro ⟨u, i⟩ hx
    obtain ⟨hu, hi, hr | hs⟩ := mem_enables.mp hx
    · refine Finset.mem_image.mpr ⟨u, Finset.mem_filter.mpr ⟨Finset.mem_range.mpr hu, hr.1.2, hr.2⟩, ?_⟩
      rw [hr.1.1]
    · exact absurd hs (hno u hu i hi)

/-- **Read enable.** A phase shows in cycle `t + 1` what was sent on it in cycle `t`, exactly when `rddata_en` does not
stick; over a run of the payload executor there are as many enabled (cycle, phase) pairs as READs exactly when it sticks
nowhere. -/
theorem rddata_en_reflects_iff (h : p.rdphase < p.nphases) :
    (∀ (nranks i : Nat) (sig : Nat → DfiExecutor.Input) (t : Nat),
      (((DfiExecutor.phaseRun nranks i sig (t + 1)).rddataEn = true ↔ DfiExecutor.SendsRead i (sig t)) ∧
        (¬ DfiExecutor.Selected i (sig t) → (DfiExecutor.phaseRun nranks i sig (t + 1)).Deselected nranks)) ↔
        ¬ DfiExecutor.Sticks i sig t) ∧
    ∀ t, (enables p mem inp t).card = (reads p mem inp t).card ↔
      ∀ u < t, ∀ i < p.nphases, ¬ DfiExecutor.Sticks i (signalsAt p mem inp) u :=
  ⟨DfiExecutor.phaseRun_reflects_iff, card_enables_eq_iff p mem inp h⟩

end Run

/-- Up to its first READ the run of `readTwice` enables one pair. -/
theorem rddata_en_reflects_first_read :
    (enables smallParams readTwice (fun _ => ⟨true, true⟩) 3).card = 1 := by
  refine (((rddata_en_reflects_iff smallParams readTwice (fun _ => ⟨true, true⟩) (by decide)).2 3).mpr ?_).trans ?_
  · decide +kernel
  · decide +kernel

/-- One cycle later `rddata_en` sticks: two pairs for one READ. -/
theorem rddata_en_sticks : (enables smallParams readTwice (fun _ => ⟨true, true⟩) 4).card = 2 ∧
    (reads smallParams readTwice (fun _ => ⟨true, true⟩) 4).card = 1 ∧
    ((run (step smallParams readTwice) (reset smallParams readTwice) (fun _ => ⟨true, true⟩) 4).phases 2).rddataEn =
      true ∧
    ¬ DfiExecutor.SendsRead 2 (signalsAt smallParams readTwice (fun _ => ⟨true, true⟩) 3) := by
  decide +kernel

end PayloadExecutor

end RowhammerTester.Gateware
