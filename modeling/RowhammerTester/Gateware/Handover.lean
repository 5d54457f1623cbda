import RowhammerTester.Gateware.Independence
import RowhammerTester.Gateware.Ownership

/-!
# From a refresh of the memory controller to the first refresh of the payload

The payload executor and the DFI switch with the DFI injector, which connects the selected source to the DFI master
combinationally.

* `Outside` : what the three read in a cycle; `master` : phase 0 of the DFI master; `cycle out t` : the registers in
  cycle `t` of a run from reset;
* `HandsOver t` : the switch hands the DFI over on what it sees in cycle `t`; `Waits` : a request that is not granted
  waits, so that the executor starts two cycles later (`handsOver_sim`);
* `FirstRef t u` : the first REF after the hand-over is on the DFI master in cycle `u`;
* `firstRef_of_noop` : the latencies of a leading NOOP add up to its timeslice and 3; `not_firstRef_of_stop`.
-/

namespace RowhammerTester.Gateware
open RowhammerTester.Hdl PayloadExecutor

namespace PayloadExecutor
variable {p : Params} {mem : Nat → BitVec 32} {s : State} {i : Input}

/-- The DFI is requested by a start pulse only. -/
theorem wantsDfi_of_step (h : (step p mem s i).wantsDfi = true) :
    s.wantsDfi = true ∨ s.fsm = .READY ∧ (step p mem s i).fsm = .WAIT_DFI := by
  cases hf : s.fsm with
  | READY =>
    cases hst : i.start with
    | false => exact Or.inl ((step_ready p mem i hf hst).2.1 ▸ h)
    | true => exact Or.inr ⟨rfl, (step_start p mem i hf hst).1⟩
  | WAIT_DFI =>
    cases hd : i.dfiReady with
    | false => exact Or.inl ((step_wait p mem i hf hd).2.1 ▸ h)
    | true => exact Or.inl ((step_dfiReady p mem i hf hd).2.1 ▸ h)
  | RUN =>
    left
    by_cases ht : (decoder p s).IsLoop ∨ (decoder p s).timeslice = 0 ∨ (decoder p s).timeslice = 1
    · rw [(step_run_exit p mem i hf ht).2] at h
      split at h
      · cases h
      · exact h
    · rw [not_or] at ht
      rw [(step_run_long p mem i hf ht.1 (by omega)).2.2.2.2] at h
      split at h
      · cases h
      · exact h
  | IDLE =>
    left
    by_cases hc : s.idleCounter = 0
    · exact (step_idle_done p mem i hf hc).2.2.2.1 ▸ h
    · exact (step_idle_wait p mem i hf hc).2.2.2.2 ▸ h

theorem Sim.exec {st : Interp.State} (h : Sim p mem st s) (hl : ¬ (fetch p mem st.pc).IsLoop) :
    exec p s = true := by
  have hissue := h.issue
  rw [if_neg hl] at hissue
  by_contra hne
  rw [PayloadExecutor.issue, if_neg hne] at hissue
  cases hissue

end PayloadExecutor

namespace Handover

/-- What the executor, the switch and the injector read from outside in one cycle. -/
structure Outside where
  start : Bool
  /-- Phase 0 of the memory controller. -/
  controller : DfiPhase
  atRefresh : Nat
  refreshUpdate : Bool

/-- Phase 0 of the DFI master: `ext_dfi_sel` selects the executor. -/
def master (s : System) (controller : DfiPhase) : DfiPhase :=
  if DfiSwitch.dfiReady s.switch then s.executor.phases 0 else controller

/-- The inputs of executor and switch, with refreshes enabled. -/
def input (s : System) (x : Outside) : System.Input :=
  ⟨x.start, ⟨master s x.controller, true, x.atRefresh, x.refreshUpdate⟩⟩

section Run
variable (p : Params) (ddr5 : Bool) (mem : Nat → BitVec 32) (out : Nat → Outside)

/-- The registers in cycle `t` of a run from reset. -/
def cycle (t : Nat) : System := run (fun s x => System.step p ddr5 mem s (input s x)) (System.reset p mem) out t

/-- The executor has the DFI in cycle `t`. -/
def Owned (t : Nat) : Prop := (cycle p ddr5 mem out t).switch.fsm = .PAYLOAD_EXECUTION

/-- The switch sees a refresh of the memory controller in cycle `t` and hands the DFI over. -/
def HandsOver (t : Nat) : Prop := ¬ Owned p ddr5 mem out t ∧ Owned p ddr5 mem out (t + 1)

/-- Phase 0 of the DFI master has a REF in cycle `t`. -/
def ShowsRef (t : Nat) : Prop :=
  DfiSwitch.refresh false (master (cycle p ddr5 mem out t) (out t).controller) = true

/-- The first REF of the executor after the hand-over in cycle `t` is on the DFI master in cycle `u`. -/
structure FirstRef (t u : Nat) : Prop where
  after : t < u
  owned : ∀ v, t < v → v ≤ u → Owned p ddr5 mem out v
  shows : ShowsRef p ddr5 mem out u
  first : ∀ v, t < v → v < u → ¬ ShowsRef p ddr5 mem out v

end Run

section Lemmas
variable {p : Params} {ddr5 : Bool} {mem : Nat → BitVec 32} {out : Nat → Outside} {t : Nat}

theorem FirstRef.unique {u u' : Nat} (h : FirstRef p ddr5 mem out t u) (h' : FirstRef p ddr5 mem out t u') :
    u = u' := by
  rcases Nat.lt_trichotomy u u' with hlt | rfl | hlt
  · exact absurd h.shows (h'.first u h.after hlt)
  · rfl
  · exact absurd h'.shows (h.first u' h'.after hlt)

theorem cycle_succ (t : Nat) : cycle p ddr5 mem out (t + 1) =
    System.step p ddr5 mem (cycle p ddr5 mem out t) (input (cycle p ddr5 mem out t) (out t)) := rfl

/-- What the executor reads in cycle `t`. -/
def executorInputs (p : Params) (ddr5 : Bool) (mem : Nat → BitVec 32) (out : Nat → Outside) (t : Nat) :
    PayloadExecutor.Input :=
  ⟨(out t).start, DfiSwitch.dfiReady (cycle p ddr5 mem out t).switch⟩

theorem executor_succ (t : Nat) : (cycle p ddr5 mem out (t + 1)).executor =
    PayloadExecutor.step p mem (cycle p ddr5 mem out t).executor (executorInputs p ddr5 mem out t) := rfl

/-- The executor in a run of all three. -/
theorem executor_add (t k : Nat) : (cycle p ddr5 mem out (t + k)).executor =
    run (PayloadExecutor.step p mem) (cycle p ddr5 mem out t).executor
      (fun j => executorInputs p ddr5 mem out (t + j)) k := by
  induction k with
  | zero => rfl
  | succ k ih => rw [← Nat.add_assoc, executor_succ, run_succ, ← ih]

theorem loopCounter_lt (t : Nat) : (cycle p ddr5 mem out t).executor.loopCounter < 2 ^ 12 := by
  have h : (cycle p ddr5 mem out (0 + t)).executor = _ := executor_add 0 t
  rw [Nat.zero_add] at h
  rw [h]
  exact run_loopCounter_lt p mem _ t

/-- The DFI stays with the executor as long as it is wanted. -/
theorem owned_succ (h : Owned p ddr5 mem out t) (hw : (cycle p ddr5 mem out t).executor.wantsDfi = true) :
    Owned p ddr5 mem out (t + 1) := System.step_switch_owned p ddr5 mem _ hw h

theorem not_owned_succ (h : Owned p ddr5 mem out t) (hw : (cycle p ddr5 mem out t).executor.wantsDfi = false) :
    ¬ Owned p ddr5 mem out (t + 1) := by
  unfold Owned at h ⊢
  simp [cycle_succ, System.step, DfiSwitch.step, DfiSwitch.nextFsm, h, hw]

theorem dfiReady_iff (t : Nat) : DfiSwitch.dfiReady (cycle p ddr5 mem out t).switch = true ↔ Owned p ddr5 mem out t :=
  beq_iff_eq

/-- A request for the DFI waits until it is granted. -/
def Waits (s : System) : Prop :=
  s.executor.wantsDfi = true → s.executor.fsm = .WAIT_DFI ∨ s.switch.fsm = .PAYLOAD_EXECUTION

theorem waits_cycle (t : Nat) : Waits (cycle p ddr5 mem out t) := by
  refine run_induction (P := Waits) _ _ _ (fun h => by cases h) (fun t ih => ?_) t
  intro hw
  rcases wantsDfi_of_step hw with hw' | ⟨-, hwait⟩
  · by_cases ho : Owned p ddr5 mem out t
    · exact Or.inr (owned_succ ho hw')
    · have hd : DfiSwitch.dfiReady (cycle p ddr5 mem out t).switch = false := by
        rw [← Bool.not_eq_true, dfiReady_iff]
        exact ho
      exact Or.inl (step_wait p mem (executorInputs p ddr5 mem out t) ((ih hw').resolve_right ho) hd).1
  · exact Or.inl hwait

/-! ## The first cycles after a hand-over -/

theorem fsm_of_not_owned (h : ¬ Owned p ddr5 mem out t) :
    (cycle p ddr5 mem out t).switch.fsm = .MEMORY_CONTROLLER := by
  unfold Owned at h
  cases hf : (cycle p ddr5 mem out t).switch.fsm with
  | MEMORY_CONTROLLER => rfl
  | PAYLOAD_EXECUTION => exact absurd hf h

/-- The DFI is handed over on a request and a refresh. -/
theorem HandsOver.refresh (h : HandsOver p ddr5 mem out t) : (cycle p ddr5 mem out t).executor.wantsDfi = true ∧
    DfiSwitch.refresh ddr5 (out t).controller = true := by
  have hmc := fsm_of_not_owned h.1
  have hpe := h.2
  have hmaster : master (cycle p ddr5 mem out t) (out t).controller = (out t).controller :=
    if_neg fun hd => h.1 ((dfiReady_iff t).mp hd)
  unfold Owned at hpe
  rw [cycle_succ] at hpe
  simp only [System.step, DfiSwitch.step, DfiSwitch.nextFsm, hmc, input, hmaster, if_true] at hpe
  split at hpe
  · next hw =>
    split at hpe
    · next hm =>
      rw [Bool.and_eq_true] at hm
      exact ⟨hw, hm.1⟩
    · cases hpe
  · cases hpe

/-- The executor waits in the cycle of the hand-over and in the next one. -/
theorem HandsOver.waits (h : HandsOver p ddr5 mem out t) : (cycle p ddr5 mem out t).executor.fsm = .WAIT_DFI ∧
    (cycle p ddr5 mem out (t + 1)).executor.fsm = .WAIT_DFI ∧
    (cycle p ddr5 mem out (t + 1)).executor.wantsDfi = true := by
  obtain ⟨hw, -⟩ := h.refresh
  have hwait := (waits_cycle t hw).resolve_right h.1
  have hd : DfiSwitch.dfiReady (cycle p ddr5 mem out t).switch = false := by
    rw [← Bool.not_eq_true, dfiReady_iff]
    exact h.1
  obtain ⟨h1, h2, -⟩ := step_wait p mem (executorInputs p ddr5 mem out t) hwait hd
  exact ⟨hwait, h1, h2.trans hw⟩

/-- Two cycles after the hand-over the executor starts at address 0. -/
theorem handsOver_sim (h : HandsOver p ddr5 mem out t) :
    Sim p mem ⟨0, (cycle p ddr5 mem out (t + 2)).executor.loopCounter⟩ (cycle p ddr5 mem out (t + 2)).executor := by
  obtain ⟨-, hwait, hw⟩ := h.waits
  obtain ⟨h1, h2, -, h4, h5⟩ := step_dfiReady p mem (executorInputs p ddr5 mem out (t + 1)) hwait
    ((dfiReady_iff (t + 1)).mpr h.2)
  exact ⟨h1, h4, rfl, h5, h2.trans hw⟩

/-! ## What is on the master -/

theorem showsRef_iff (h : Owned p ddr5 mem out t) : ShowsRef p ddr5 mem out t ↔
    DfiSwitch.refresh false ((cycle p ddr5 mem out t).executor.phases 0) = true := by
  unfold ShowsRef master
  rw [if_pos ((dfiReady_iff t).mpr h)]

/-- A deselected phase is no REF. -/
theorem not_showsRef (h : Owned p ddr5 mem out t)
    (hd : ((cycle p ddr5 mem out t).executor.phases 0).Deselected p.nranks) : ¬ ShowsRef p ddr5 mem out t := by
  rw [showsRef_iff h]
  simp [DfiSwitch.refresh, hd.2.1]

/-- After a REF. -/
theorem showsRef_succ (h : Owned p ddr5 mem out (t + 1)) (he : exec p (cycle p ddr5 mem out t).executor = true)
    (hop : (decoder p (cycle p ddr5 mem out t).executor).opCode = OpCode.REF.value) :
    ShowsRef p ddr5 mem out (t + 1) := by
  rw [showsRef_iff h]
  obtain ⟨hcas, hras, hwe⟩ := Decoder.strobes_decode p.geometry (cycle p ddr5 mem out t).executor.instruction
  have hstrobes : (decoder p (cycle p ddr5 mem out t).executor).cas = true ∧
      (decoder p (cycle p ddr5 mem out t).executor).ras = true ∧
      (decoder p (cycle p ddr5 mem out t).executor).we = false := by
    have hop' : (Decoder.decode p.geometry (cycle p ddr5 mem out t).executor.instruction).opCode =
        OpCode.REF.value := hop
    rw [hop'] at hcas hras hwe
    exact ⟨hcas.trans (by decide), hras.trans (by decide), hwe.trans (by decide)⟩
  have hphase : commandPhase p (decoder p (cycle p ddr5 mem out t).executor) = 0 := by
    rw [commandPhase, hstrobes.2.1]
    simp
  have hshows := step_shows p mem (executorInputs p ddr5 mem out t) he
  rw [hphase, ← executor_succ] at hshows
  obtain ⟨h1, h2, h3, h4, -, -⟩ := hshows
  rw [hstrobes.1] at h1
  rw [hstrobes.2.1] at h2
  rw [hstrobes.2.2] at h3
  rw [DfiExecutor.csN, hop, if_neg (by decide), if_pos rfl] at h4
  simp [DfiSwitch.refresh, h1, h2, h3, h4]

/-! ## The leading instruction -/

/-- The two cycles before the executor runs show nothing. -/
theorem HandsOver.quiet (h : HandsOver p ddr5 mem out t) : Owned p ddr5 mem out (t + 2) ∧
    ¬ ShowsRef p ddr5 mem out (t + 1) ∧ ¬ ShowsRef p ddr5 mem out (t + 2) := by
  obtain ⟨hwait, hwait', hw⟩ := h.waits
  have ho := owned_succ h.2 hw
  refine ⟨ho, not_showsRef h.2 ?_, not_showsRef ho ?_⟩
  · rw [executor_succ]
    exact step_deselected p mem _ (exec_of_not_run p (by rw [hwait]; decide)) 0
  · rw [executor_succ]
    exact step_deselected p mem _ (exec_of_not_run p (by rw [hwait']; decide)) 0

/-- A request that lasts to the end of some cycles of execution was there all the time. -/
theorem wantsDfi_of_executing {n : Nat}
    (hbusy : ∀ k < n, executing (cycle p ddr5 mem out (t + k)).executor = true)
    (hw : (cycle p ddr5 mem out (t + n)).executor.wantsDfi = true) :
    ∀ k ≤ n, (cycle p ddr5 mem out (t + k)).executor.wantsDfi = true := by
  induction n with
  | zero =>
    intro k hk
    rwa [Nat.le_zero.mp hk]
  | succ n ih =>
    have hn : (cycle p ddr5 mem out (t + n)).executor.wantsDfi = true := by
      rw [← Nat.add_assoc, executor_succ] at hw
      rcases wantsDfi_of_step hw with h | ⟨hready, -⟩
      · exact h
      · have := hbusy n (Nat.lt_succ_self n)
        rw [executing, hready] at this
        cases this
    intro k hk
    rcases Nat.lt_or_ge k (n + 1) with hlt | hge
    · exact ih (fun j hj => hbusy j (by omega)) hn k (by omega)
    · rwa [show k = n + 1 by omega]

/-- **Latency of a leading NOOP.** The REF behind it is on the DFI master its cycles and 3 after the hand-over. -/
theorem firstRef_of_noop (hdepth : 2 < p.depth - 1) (h : HandsOver p ddr5 mem out t)
    (hnoop : (PayloadExecutor.fetch p mem 0).opCode = OpCode.NOOP.value)
    (hstop : (PayloadExecutor.fetch p mem 0).stop = false)
    (href : (PayloadExecutor.fetch p mem 1).opCode = OpCode.REF.value) :
    FirstRef p ddr5 mem out t (t + 3 + (PayloadExecutor.fetch p mem 0).cycles) := by
  have hl : ¬ (PayloadExecutor.fetch p mem 0).IsLoop := by
    rw [Decoder.IsLoop, hnoop]
    decide
  have hl' : ¬ (PayloadExecutor.fetch p mem 1).IsLoop := by
    rw [Decoder.IsLoop, href]
    decide
  obtain ⟨ho, hq₁, hq₂⟩ := h.quiet
  have hnext : Interp.next (PayloadExecutor.fetch p mem 0) ⟨0, (cycle p ddr5 mem out (t + 2)).executor.loopCounter⟩ =
      some ⟨1, (cycle p ddr5 mem out (t + 2)).executor.loopCounter⟩ := if_neg hl
  obtain ⟨hbusy, hsim⟩ := sim_next (fun j => executorInputs p ddr5 mem out (t + 2 + j)) (handsOver_sim h) hstop
    hnext (by simp only; omega) (by simp only; omega) (loopCounter_lt (t + 2))
  simp only [← executor_add] at hbusy hsim
  have hcycles := (PayloadExecutor.fetch p mem 0).cycles_pos
  have hwants := wantsDfi_of_executing (fun k hk => (hbusy k hk).1) hsim.wantsDfi
  have howned : ∀ k ≤ (PayloadExecutor.fetch p mem 0).cycles + 1, Owned p ddr5 mem out (t + 2 + k) := by
    intro k
    induction k with
    | zero => exact fun _ => ho
    | succ k ih => exact fun hk => owned_succ (ih (by omega)) (hwants k (by omega))
  refine ⟨by omega, fun v hv hv' => ?_, ?_, fun v hv hv' => ?_⟩
  · rcases Nat.lt_or_ge v (t + 2) with hlt | hge
    · rw [show v = t + 1 by omega]
      exact h.2
    · obtain ⟨k, rfl⟩ := Nat.exists_eq_add_of_le hge
      exact howned k (by omega)
  · rw [show t + 3 + (PayloadExecutor.fetch p mem 0).cycles =
      t + 2 + (PayloadExecutor.fetch p mem 0).cycles + 1 by omega]
    exact showsRef_succ (howned _ (Nat.le_refl _)) (hsim.exec hl') (by rw [hsim.decoder]; exact href)
  · -- before that, the NOOP and the cycles that it waits
    rcases Nat.lt_or_ge v (t + 3) with hlt | hge
    · rcases (show v = t + 1 ∨ v = t + 2 by omega) with rfl | rfl
      · exact hq₁
      · exact hq₂
    · obtain ⟨k, rfl⟩ := Nat.exists_eq_add_of_le hge
      have hk : k < (PayloadExecutor.fetch p mem 0).cycles := by omega
      rw [show t + 3 + k = t + 2 + (k + 1) by omega]
      refine not_showsRef (howned (k + 1) (by omega)) ?_
      rw [← Nat.add_assoc, executor_succ]
      have hik := (hbusy k hk).2
      by_cases he : exec p (cycle p ddr5 mem out (t + 2 + k)).executor = true
      · refine step_noop he ?_ 0
        rw [issue, if_pos he, if_neg hl] at hik
        split at hik
        · rw [Option.some.inj hik]
          exact hnoop
        · cases hik
      · exact step_deselected p mem _ (by simpa using he) 0

/-- A leading STOP returns the DFI before any REF. -/
theorem not_firstRef_of_stop (h : HandsOver p ddr5 mem out t)
    (hstop : (PayloadExecutor.fetch p mem 0).stop = true) (u : Nat) :
    ¬ FirstRef p ddr5 mem out t u := by
  intro hfirst
  have hafter := hfirst.after
  obtain ⟨ho, hq₁, hq₂⟩ := h.quiet
  have hsim := handsOver_sim h
  have ho₃ := owned_succ ho hsim.wantsDfi
  obtain ⟨-, hw⟩ := sim_stop (executorInputs p ddr5 mem out (t + 2)) hsim hstop
  have hno := not_owned_succ ho₃ hw
  have hq₃ : ¬ ShowsRef p ddr5 mem out (t + 3) := by
    refine not_showsRef ho₃ ?_
    have hop : (decoder p (cycle p ddr5 mem out (t + 2)).executor).opCode = OpCode.NOOP.value := by
      rw [hsim.decoder]
      exact (Decoder.stop_decode hstop).1
    exact step_noop (hsim.exec (Decoder.not_isLoop_of_stop hstop)) hop 0
  rcases Nat.lt_or_ge u (t + 4) with hlt | hge
  · rcases (show u = t + 1 ∨ u = t + 2 ∨ u = t + 3 by omega) with rfl | rfl | rfl
    · exact hq₁ hfirst.shows
    · exact hq₂ hfirst.shows
    · exact hq₃ hfirst.shows
  · exact hno (hfirst.owned (t + 4) (by omega) hge)

end Lemmas

end Handover

end RowhammerTester.Gateware
