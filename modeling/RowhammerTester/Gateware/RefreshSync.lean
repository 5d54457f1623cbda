import RowhammerTester.Gateware.Dfi
import Mathlib.Data.Nat.Count

/-!
# Hand-over of the DFI at a refresh

The DFI switch from reset, for every sequence of requests and of commands on the DFI master.

* `Cycle` : what the switch sees in a cycle; `cycle inp t` : its registers in cycle `t`; `refreshes inp t` : the refresh
  commands of the first `t` cycles;
* `HandsOver inp t`, `Returns inp t` : the switch changes its state at the end of cycle `t`; `handsOver_cases`;
* `counter_eq` : the refresh counter; `Synchronised` : what the switch promises about its changes of state.
-/

namespace RowhammerTester.Gateware.DfiSwitch
open RowhammerTester.Hdl

/-- What the switch sees in one cycle: the request of the executor and the rest. -/
structure Cycle where
  wantsDfi : Bool
  input : Input

section Run
variable (ddr5 : Bool) (inp : Nat → Cycle)

/-- The registers in cycle `t` of a run from reset. -/
def cycle (t : Nat) : State := run (fun s x => step ddr5 x.wantsDfi s x.input) reset inp t

/-- A refresh command is on the DFI master. -/
def Refreshes (t : Nat) : Prop := refresh ddr5 (inp t).input.master = true

instance : DecidablePred (Refreshes ddr5 inp) := fun _ => inferInstanceAs (Decidable (_ = _))

/-- The refresh commands since reset, those of the first `t` cycles. -/
def refreshes (t : Nat) : Nat := Nat.count (Refreshes ddr5 inp) t

/-- The last cycle in MEMORY-CONTROLLER before the payload executor has the DFI. -/
def HandsOver (t : Nat) : Prop :=
  (cycle ddr5 inp t).fsm = .MEMORY_CONTROLLER ∧ (cycle ddr5 inp (t + 1)).fsm = .PAYLOAD_EXECUTION

/-- The last cycle in PAYLOAD-EXECUTION. -/
def Returns (t : Nat) : Prop :=
  (cycle ddr5 inp t).fsm = .PAYLOAD_EXECUTION ∧ (cycle ddr5 inp (t + 1)).fsm = .MEMORY_CONTROLLER

instance (t : Nat) : Decidable (HandsOver ddr5 inp t) := inferInstanceAs (Decidable (_ ∧ _))

instance (t : Nat) : Decidable (Returns ddr5 inp t) := inferInstanceAs (Decidable (_ ∧ _))

/-- `refresher_reset` in cycle `t`. -/
def resets (t : Nat) : Bool := refresherReset (cycle ddr5 inp t) (inp t).wantsDfi

/-- Every hand-over follows a refresh command, at the count asked for; the `refresh_count` CSR then has the refresh
commands since reset, and the refresher is reset once for every return. -/
structure Synchronised : Prop where
  afterRefresh : ∀ t, HandsOver ddr5 inp t → Refreshes ddr5 inp t
  atRefresh : ∀ t, HandsOver ddr5 inp t → (inp t).input.atRefresh ≠ 0 →
    (cycle ddr5 inp (t + 1)).counter = (inp t).input.atRefresh ∧
      ((inp (t + 1)).wantsDfi = true → (cycle ddr5 inp (t + 1)).counter = (inp (t + 1)).input.atRefresh)
  latched : ∀ t, HandsOver ddr5 inp t →
    (cycle ddr5 inp (t + 2)).refreshCount = refreshes ddr5 inp (t + 1) % 2 ^ 32 ∧
      refreshes ddr5 inp (t + 1) = refreshes ddr5 inp t + 1
  returned : ∀ t, resets ddr5 inp t = true ↔ Returns ddr5 inp t

end Run

section Step
variable {ddr5 : Bool} {inp : Nat → Cycle} {t : Nat}

theorem cycle_succ (t : Nat) :
    cycle ddr5 inp (t + 1) = step ddr5 (inp t).wantsDfi (cycle ddr5 inp t) (inp t).input := rfl

/-- The refresh counter is updated one cycle after the refresh. -/
theorem counter_eq (t : Nat) : (cycle ddr5 inp t).counter = refreshes ddr5 inp t % 2 ^ 32 := by
  induction t with
  | zero => rfl
  | succ t ih =>
    have hstep : (cycle ddr5 inp (t + 1)).counter =
        if Refreshes ddr5 inp t then ((cycle ddr5 inp t).counter + 1) % 2 ^ 32 else (cycle ddr5 inp t).counter := rfl
    rw [hstep, refreshes, Nat.count_succ]
    split
    · rw [ih, Nat.mod_add_mod]
      rfl
    · exact ih

/-- What has happened in the last cycle of the memory controller. -/
theorem handsOver_cases (h : HandsOver ddr5 inp t) : (inp t).wantsDfi = true ∧
    ((inp t).input.withRefresh = true → Refreshes ddr5 inp t ∧
      ((inp t).input.atRefresh = 0 ∨ (inp t).input.atRefresh = (cycle ddr5 inp t).counter + 1)) := by
  obtain ⟨hmc, hpe⟩ := h
  rw [cycle_succ] at hpe
  simp only [step, nextFsm, hmc] at hpe
  split at hpe
  · next hw =>
    refine ⟨hw, fun hr => ?_⟩
    rw [if_pos hr] at hpe
    split at hpe
    · next hm =>
      rw [Bool.and_eq_true, refreshMatches, Bool.or_eq_true, beq_iff_eq, beq_iff_eq] at hm
      exact hm
    · cases hpe
  · cases hpe

/-- The CSR is latched at the end of the first cycle in PAYLOAD-EXECUTION. -/
theorem refreshCount_of_handsOver (h : HandsOver ddr5 inp t) :
    (cycle ddr5 inp (t + 2)).refreshCount = (cycle ddr5 inp (t + 1)).counter := by
  have hd : (cycle ddr5 inp (t + 1)).mcOngoingD = true := by
    rw [cycle_succ, step, h.1]
    rfl
  rw [cycle_succ, step]
  simp only [hd, h.2, beq_self_eq_true, Bool.and_self, Bool.true_or, if_true]

theorem resets_iff (t : Nat) : resets ddr5 inp t = true ↔ Returns ddr5 inp t := by
  unfold resets refresherReset Returns
  rw [cycle_succ, Bool.and_eq_true, beq_iff_eq, Bool.not_eq_true']
  refine and_congr_right fun hpe => ?_
  simp only [step, nextFsm, hpe]
  cases (inp t).wantsDfi <;> simp

end Step

/-- **Refresh synchronisation.** In every run with refreshes, whatever the requests and the commands on the DFI master,
the switch is synchronised to the refresh commands. -/
theorem switch_synchronised (ddr5 : Bool) (inp : Nat → Cycle) (hwith : ∀ t, (inp t).input.withRefresh = true)
    (hwidth : ∀ t, (inp t).input.atRefresh < 2 ^ 32)
    (hconst : ∀ t, (inp t).wantsDfi = true → (inp (t + 1)).wantsDfi = true →
      (inp (t + 1)).input.atRefresh = (inp t).input.atRefresh) : Synchronised ddr5 inp := by
  have hcount : ∀ t, HandsOver ddr5 inp t → refreshes ddr5 inp (t + 1) = refreshes ddr5 inp t + 1 := by
    intro t h
    rw [refreshes, Nat.count_succ, if_pos ((handsOver_cases h).2 (hwith t)).1]
    rfl
  refine ⟨fun t h => ((handsOver_cases h).2 (hwith t)).1, fun t h hne => ?_, fun t h => ⟨?_, hcount t h⟩, resets_iff⟩
  · obtain ⟨hw, hcases⟩ := handsOver_cases h
    have heq := (hcases (hwith t)).2.resolve_left hne
    have hcounter : (cycle ddr5 inp (t + 1)).counter = (inp t).input.atRefresh := by
      rw [counter_eq, hcount t h, ← Nat.mod_add_mod, ← counter_eq, ← heq]
      exact Nat.mod_eq_of_lt (hwidth t)
    exact ⟨hcounter, fun hw' => hcounter.trans (hconst t hw hw').symm⟩
  · rw [refreshCount_of_handsOver h, counter_eq]

/-- A refresh in every third cycle, and a request for the DFI at the second one. -/
def secondRefresh (t : Nat) : Cycle :=
  { wantsDfi := decide (t < 7)
    input :=
      { master := if t % 3 = 2 then { DfiPhase.reset 1 with csN := 0, casN := false, rasN := false }
          else DfiPhase.reset 1
        withRefresh := true
        atRefresh := 2
        refreshUpdate := false } }

theorem switch_synchronised_secondRefresh : HandsOver false secondRefresh 5 ∧
    (cycle false secondRefresh 6).counter = 2 ∧ (cycle false secondRefresh 7).refreshCount = 2 ∧
    resets false secondRefresh 7 = true := by
  have hsync : Synchronised false secondRefresh :=
    switch_synchronised false secondRefresh (fun _ => rfl) (fun _ => show 2 < 2 ^ 32 by decide) fun _ _ _ => rfl
  have hover : HandsOver false secondRefresh 5 := by decide +kernel
  refine ⟨hover, (hsync.atRefresh 5 hover (by decide)).1, ?_, (hsync.returned 7).mpr (by decide +kernel)⟩
  rw [(hsync.latched 5 hover).1]
  decide +kernel

end RowhammerTester.Gateware.DfiSwitch
