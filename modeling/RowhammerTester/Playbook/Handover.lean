import RowhammerTester.Gateware.Handover
import RowhammerTester.Playbook.Delays
import RowhammerTester.Playbook.RefreshInterval

/-!
# Refresh continuity at the hand-over

The leading NOOP of a payload is meant to bring its first REF tREFI after the refresh of the memory controller on which
the DFI is handed over. The switch, the start of the executor and the registers of the DFI take three cycles, of which
the generator takes two off the timeslice.

* `ContinuesRefresh` : the first REF of the payload is between tRFC and tREFI after the hand-over;
* `firstRef_generated` : it is in the cycle tREFI + 1 after it, unless the timeslice does not fit its field;
* `refresh_continuity_iff` : hence the refresh continues only where the timeslice wraps around.
-/

namespace RowhammerTester.Playbook
open RowhammerTester.Gateware RowhammerTester.Gateware.PayloadExecutor RowhammerTester.Gateware.Handover RowListArgs

/-- After the hand-over in cycle `t` the first REF of the payload is on the DFI master no earlier than tRFC and no later
than tREFI. -/
def ContinuesRefresh (timings : Timings) (p : Params) (ddr5 : Bool) (mem : Nat → BitVec 32) (out : Nat → Outside)
    (t : Nat) : Prop :=
  ∃ u, FirstRef p ddr5 mem out t u ∧ t + timings.tRFC ≤ u ∧ u ≤ t + timings.tREFI

/-- The timeslice of the leading NOOP, as it is in its field of 29 bits. -/
def Timings.leadField (timings : Timings) : Nat := (timings.tREFI - 2) % 2 ^ 29

section Payload
variable {args : RowListArgs} {words : List Nat} {p : Params} {ddr5 : Bool} {mem : Nat → BitVec 32}
  {out : Nat → Outside} {t : Nat}

theorem lead_eq {n₁ n₂ : Nat} (hgen : Generated args words n₁ n₂) (hrefi : 4 ≤ args.timings.tREFI) :
    args.lead = args.timings.tREFI - 2 := by
  have hfits := hgen.fits
  unfold lead
  omega

/-- The first two instructions of a payload with refreshes. -/
theorem fetch_start (hok : generatePayloadFromRowList args = .ok words) (hr : args.refresh = true)
    (hcount : 1 ≤ args.readCount) (hrefi : 4 ≤ args.timings.tREFI) (hmem : Loads mem words) (g : Geometry) :
    Gateware.fetch g mem 0 = Decoder.ofSpec g (Encoder.I.noop (args.timings.tREFI - 2)) ∧
      (Gateware.fetch g mem 1).Is .REF ∧ 5 ≤ args.payloadMemSize / 4 := by
  obtain ⟨n₁, n₂, hgen⟩ := generated_of_ok hok
  have hne : args.loops n₁ n₂ ≠ [] := fun h => by
    have := hgen.loops_eq_nil_iff.mp h
    omega
  refine ⟨?_, ?_, Nat.le_trans (hgen.five_le_length hne) (length_le_of_ok hok)⟩
  · rw [fetch_lead hgen hmem, lead_eq hgen hrefi]
  · rw [show 1 = 0 + 1 from rfl, fetch_ref hgen hmem hne]
    exact is_ref hr

section Run
variable (hok : generatePayloadFromRowList args = .ok words) (hr : args.refresh = true)
  (hcount : 1 ≤ args.readCount) (hrefi : 4 ≤ args.timings.tREFI) (hmem : Loads mem words)
  (hover : HandsOver p ddr5 mem out t)
include hok hr hcount hrefi hmem hover

/-- A timeslice that is cut to 0 makes the leading NOOP a STOP. -/
theorem not_firstRef_generated (hlead : args.timings.leadField = 0) (u : Nat) : ¬ FirstRef p ddr5 mem out t u := by
  obtain ⟨hnoop, -, -⟩ := fetch_start hok hr hcount hrefi hmem p.geometry
  refine not_firstRef_of_stop hover ?_ u
  rw [show fetch p mem 0 = _ from hnoop]
  exact stop_noop p.geometry hlead

variable (hdepth : p.depth = args.payloadMemSize / 4)
include hdepth

/-- The first REF of the payload is three cycles and the timeslice after the hand-over. -/
theorem firstRef_generated (hlead : args.timings.leadField ≠ 0) :
    FirstRef p ddr5 mem out t (t + 3 + args.timings.leadField) := by
  obtain ⟨hnoop, href, hlen⟩ := fetch_start hok hr hcount hrefi hmem p.geometry
  have hcycles : (fetch p mem 0).cycles = args.timings.leadField := by
    have h : (fetch p mem 0).cycles = max 1 args.timings.leadField := by
      rw [show fetch p mem 0 = _ from hnoop]
      exact cycles_noop p.geometry _
    omega
  rw [← hcycles]
  refine firstRef_of_noop (by omega) hover ?_ ?_ href
  · rw [show fetch p mem 0 = _ from hnoop]
    exact is_noop p.geometry _
  · rw [show fetch p mem 0 = _ from hnoop]
    exact (plain_noop p.geometry hlead).2

/-- **Refresh continuity.** For every payload with refreshes and every hand-over, whenever the execution was requested,
the first REF of the payload is in time exactly when the timeslice of the leading NOOP exceeds its field and what is
left of it is neither 0 nor too short for tRFC. -/
theorem refresh_continuity_iff : ContinuesRefresh args.timings p ddr5 mem out t ↔
    2 ^ 29 ≤ args.timings.tREFI - 2 ∧ args.timings.leadField ≠ 0 ∧ args.timings.tRFC ≤ args.timings.leadField + 3 := by
  have hmod : args.timings.leadField = (args.timings.tREFI - 2) % 2 ^ 29 := rfl
  by_cases hlead : args.timings.leadField = 0
  · constructor
    · rintro ⟨u, hu, -, -⟩
      exact absurd hu (not_firstRef_generated hok hr hcount hrefi hmem hover hlead u)
    · rintro ⟨-, hne, -⟩
      exact absurd hlead hne
  · have hfirst := firstRef_generated hok hr hcount hrefi hmem hover hdepth hlead
    constructor
    · rintro ⟨u, hu, hlo, hhi⟩
      have := hu.unique hfirst
      refine ⟨?_, hlead, by omega⟩
      by_contra hlt
      rw [Nat.mod_eq_of_lt (by omega)] at hmod
      omega
    · rintro ⟨hwrap, -, hrfc⟩
      refine ⟨_, hfirst, by omega, ?_⟩
      have := Nat.mod_lt (args.timings.tREFI - 2) (show 0 < 2 ^ 29 by decide)
      omega

end Run

end Payload

/-- A payload memory of 256 words. -/
def handoverParams : Params := { depth := 256, geometry := smallGeometry, nphases := 4, rdphase := 2 }

/-- The execution is requested at once, and the memory controller refreshes in every cycle. -/
def requestAtOnce (t : Nat) : Outside :=
  { start := t == 0
    controller := { DfiPhase.reset 1 with csN := 0, casN := false, rasN := false }
    atRefresh := 0
    refreshUpdate := false }

theorem handsOver_atOnce (mem : Nat → BitVec 32) : HandsOver handoverParams false mem requestAtOnce 1 :=
  ⟨nofun, rfl⟩

theorem refresh_continuity_iff_tenRows : ∃ words, generatePayloadFromRowList (tenRows true 31) = .ok words ∧
    ¬ ContinuesRefresh (tenRows true 31).timings handoverParams false (loadWords words) requestAtOnce 1 := by
  obtain ⟨words, hok⟩ := Py.exists_ok (x := generatePayloadFromRowList (tenRows true 31)) (by decide +kernel)
  refine ⟨words, hok, fun h => ?_⟩
  have := (refresh_continuity_iff hok rfl (by decide) (by decide) (loads_loadWords words) (handsOver_atOnce _)
    rfl).mp h
  exact absurd this.1 (by decide)

/-- With tREFI = 27 the first REF comes 28 cycles after the refresh of the memory controller. -/
theorem first_refresh_late : ∃ words, generatePayloadFromRowList (threeRows 27) = .ok words ∧
    HandsOver handoverParams false (loadWords words) requestAtOnce 1 ∧
    FirstRef handoverParams false (loadWords words) requestAtOnce 1 (1 + 28) ∧
    ¬ ContinuesRefresh (threeRows 27).timings handoverParams false (loadWords words) requestAtOnce 1 := by
  obtain ⟨words, hok⟩ := Py.exists_ok (x := generatePayloadFromRowList (threeRows 27)) (by decide +kernel)
  have hover := handsOver_atOnce (loadWords words)
  have hfirst : FirstRef handoverParams false (loadWords words) requestAtOnce 1 (1 + 28) :=
    firstRef_generated hok rfl (by decide) (by decide) (loads_loadWords words) hover rfl (by decide)
  refine ⟨words, hok, hover, hfirst, ?_⟩
  rintro ⟨u, hu, -, hle⟩
  rw [hu.unique hfirst] at hle
  exact absurd hle (by decide)

end RowhammerTester.Playbook
