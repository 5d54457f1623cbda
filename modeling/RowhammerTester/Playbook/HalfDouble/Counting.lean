import RowhammerTester.Playbook.HalfDouble.Phases
import RowhammerTester.Hdl.Machine
import Mathlib.Data.Prod.Lex
import Mathlib.Data.List.Perm.Subperm
import Mathlib.Data.Int.ConditionallyCompleteOrder
import Mathlib.Order.ConditionallyCompleteLattice.Basic

/-!
# The half-double analysis ends and counts every victim once

* `Config.Valid` : the configurations of the analysis;
* `rank` : what an iteration lowers, whatever the errors: the victims and stages left, then the hammers, then the
  dilutions left; `exists_done` : hence the analysis ends;
* `Tried m key` : the current victim may be counted under `key` already; no phase comes back to such a key;
* `Counted` : the invariant of the histograms, `counted_state`.
-/

namespace RowhammerTester.Playbook.HalfDouble

/-- The configurations of the analysis. -/
structure Config.Valid (cfg : Config) : Prop where
  initialDilution : 1 ≤ cfg.initialDilution
  dilutionMultiplier : 2 ≤ cfg.dilutionMultiplier
  readCountSteps : 1 ≤ cfg.readCountSteps
  maxTotalReadCount : cfg.readCountSteps ≤ cfg.maxTotalReadCount
  maxAttackRowIdx : 5 ≤ cfg.maxAttackRowIdx

section Reached
variable {cfg : Config} {f : Bool} {m m' : Machine} (hvalid : cfg.Valid)
include hvalid

/-- The number of hammers falls by at least one. -/
theorem Config.Valid.one_le_step : 1 ≤ cfg.maxTotalReadCount.fdiv cfg.readCountSteps := by
  have hsteps : 0 < cfg.readCountSteps := hvalid.readCountSteps
  rw [Int.fdiv_eq_ediv_of_nonneg _ hsteps.le]
  exact Int.le_ediv_of_mul_le hsteps (by rw [one_mul]; exact hvalid.maxTotalReadCount)

theorem Config.Valid.lt_mul (hm : 1 ≤ m.dilution) : m.dilution < m.dilution * cfg.dilutionMultiplier := by
  have hmult : 1 < cfg.dilutionMultiplier := hvalid.dilutionMultiplier
  calc m.dilution = m.dilution * 1 := (Int.mul_one _).symm
    _ < m.dilution * cfg.dilutionMultiplier := Int.mul_lt_mul_of_pos_left hmult hm

omit hvalid in
/-- What holds of the state machine in every state. -/
structure Sound (cfg : Config) (m : Machine) : Prop where
  dilution : 1 ≤ m.dilution
  attackRowsStart : m.rowGenerator.attackRowsStart = cfg.attackRowsStart
  maxAttackRowIdx : m.rowGenerator.maxAttackRowIdx = cfg.maxAttackRowIdx

theorem Sound.advances (hm : Sound cfg m) (h : Advances cfg f m m') : Sound cfg m' := by
  have hlt := hvalid.lt_mul hm.dilution
  have hdilution : 1 ≤ m.dilution * cfg.dilutionMultiplier := hm.dilution.trans hlt.le
  cases h with
  | noflipOne _ => exact ⟨hm.dilution, hm.attackRowsStart, hm.maxAttackRowIdx⟩
  | noflipTwo _ => exact ⟨hm.dilution, hm.attackRowsStart, hm.maxAttackRowIdx⟩
  | dilute _ _ _ => exact ⟨hdilution, hm.attackRowsStart, hm.maxAttackRowIdx⟩
  | inflate _ _ _ _ => exact ⟨hdilution, hm.attackRowsStart, hm.maxAttackRowIdx⟩
  | more _ _ _ => exact ⟨hdilution, hm.attackRowsStart, hm.maxAttackRowIdx⟩
  | lower _ _ _ _ _ => exact ⟨hvalid.initialDilution, hm.attackRowsStart, hm.maxAttackRowIdx⟩
  | nextRow _ _ => exact ⟨hvalid.initialDilution, hm.attackRowsStart, hm.maxAttackRowIdx⟩

theorem sound_state {errs : Nat → RowErrors} {t : Nat} {s : State} (h : state cfg errs t = .ok s) :
    Sound cfg s.machine := by
  refine state_induction (P := fun s => Sound cfg s.machine) ?_ ?_ h
  · intro s h0
    obtain ⟨-, rfl⟩ := state_zero_iff.mp h0
    exact ⟨hvalid.initialDilution, rfl, rfl⟩
  · intro u _ s s' printed _ hm hr
    exact hm.advances hvalid (processErrors_ok hr).1

theorem Sound.getLogicalVictim (hm : Sound cfg m) : m.rowGenerator.getLogicalVictim m.iteration =
    .ok (cfg.attackRowsStart + (m.iteration + 2 : Int).fmod (cfg.maxAttackRowIdx - 2)) := by
  have hne : cfg.maxAttackRowIdx - 2 ≠ 0 := by
    have := hvalid.maxAttackRowIdx
    omega
  unfold RowGenerator.getLogicalVictim
  rw [hm.attackRowsStart, hm.maxAttackRowIdx]
  exact Py.bind_eq_ok.mpr ⟨_, Py.mod_eq_ok.mpr ⟨hne, rfl⟩, rfl⟩

/-- The analysis never raises. -/
theorem exists_state (errs : Nat → RowErrors) (t : Nat) : ∃ s, state cfg errs t = .ok s := by
  have hinit : cfg.initialDilution ≠ 0 := by
    have := hvalid.initialDilution
    omega
  have hsteps : cfg.readCountSteps ≠ 0 := by
    have := hvalid.readCountSteps
    omega
  induction t with
  | zero => exact ⟨_, state_zero_iff.mpr ⟨hinit, rfl⟩⟩
  | succ t ih =>
    obtain ⟨s, hs⟩ := ih
    have hsound := sound_state hvalid hs
    have hlt := hvalid.lt_mul hsound.dilution
    have hne : s.machine.dilution * cfg.dilutionMultiplier ≠ 0 := by
      have := hsound.dilution
      omega
    obtain ⟨m, hm⟩ := exists_advance (f := victimFlipped cfg s.machine (errs t)) hinit hsteps hne
    obtain ⟨s', printed, hr, -⟩ := exists_processErrors (hsound.getLogicalVictim hvalid) hm
    exact ⟨s', state_succ_iff.mpr ⟨s, printed, hs, hr⟩⟩

end Reached

/-! ## The analysis ends -/

/-- The steps of a victim before its measurements. -/
def Phase.stage : Phase → Nat
  | .NOFLIP_DISTANCE_ONE => 2
  | .NOFLIP_DISTANCE_TWO => 1
  | .HAMMER_TOLERANCE => 0
  | .MAX_DILUTION => 0

/-- The dilutions left with this number of hammers. -/
def dilutionsLeft (cfg : Config) (m : Machine) : Nat :=
  if m.phase = .HAMMER_TOLERANCE then cfg.maxDilution.toNat + 1 else (cfg.maxDilution - m.dilution).toNat

/-- The victims and stages, the hammers and the dilutions left. -/
def rank (cfg : Config) (m : Machine) : Nat ×ₗ Nat ×ₗ Nat :=
  toLex (3 * (cfg.maxAttackRowIdx - 4 - m.iteration).toNat + m.phase.stage,
    toLex (m.totalReadCount.toNat, dilutionsLeft cfg m))

section Rank
variable {cfg : Config} {f : Bool} {m m' : Machine}

theorem rank_lt_of_stage (hiter : m'.iteration = m.iteration) (hstage : m'.phase.stage < m.phase.stage) :
    rank cfg m' < rank cfg m := by
  refine Prod.Lex.toLex_lt_toLex.mpr (Or.inl ?_)
  dsimp only
  rw [hiter]
  omega

theorem rank_lt_of_hammers (hiter : m'.iteration = m.iteration) (hstage : m'.phase.stage = m.phase.stage)
    (hlt : m'.totalReadCount < m.totalReadCount) (hpos : 0 < m.totalReadCount) : rank cfg m' < rank cfg m := by
  refine Prod.Lex.toLex_lt_toLex.mpr (Or.inr ⟨?_, Prod.Lex.toLex_lt_toLex.mpr (Or.inl ?_)⟩)
  · dsimp only
    rw [hiter, hstage]
  · dsimp only
    omega

theorem rank_lt_of_dilutions (hiter : m'.iteration = m.iteration) (hstage : m'.phase.stage = m.phase.stage)
    (htotal : m'.totalReadCount = m.totalReadCount) (hlt : dilutionsLeft cfg m' < dilutionsLeft cfg m) :
    rank cfg m' < rank cfg m := by
  refine Prod.Lex.toLex_lt_toLex.mpr (Or.inr ⟨?_, Prod.Lex.toLex_lt_toLex.mpr (Or.inr ⟨?_, hlt⟩)⟩)
  · dsimp only
    rw [hiter, hstage]
  · dsimp only
    rw [htotal]

theorem rank_lt_of_restarted (hdone : ¬ m.done cfg) : rank cfg (m.restarted cfg) < rank cfg m := by
  refine Prod.Lex.toLex_lt_toLex.mpr (Or.inl ?_)
  unfold Machine.done at hdone
  dsimp only [Machine.restarted, Phase.stage]
  omega

/-- Inflating within the limit uses up a dilution. -/
theorem dilutionsLeft_inflated (hvalid : cfg.Valid) (hphase : m.phase ≠ .HAMMER_TOLERANCE) (hm : 1 ≤ m.dilution)
    (hle : m.dilution * cfg.dilutionMultiplier ≤ cfg.maxDilution) :
    dilutionsLeft cfg (m.inflated cfg) < dilutionsLeft cfg m := by
  have hlt := hvalid.lt_mul hm
  have hphase' : (m.inflated cfg).phase ≠ .HAMMER_TOLERANCE := hphase
  unfold dilutionsLeft
  rw [if_neg hphase, if_neg hphase']
  dsimp only [Machine.inflated]
  omega

theorem rank_lt_of_advances (hvalid : cfg.Valid) (hdone : ¬ m.done cfg) (hm : 1 ≤ m.dilution)
    (h : Advances cfg f m m') : rank cfg m' < rank cfg m := by
  cases h with
  | noflipOne hphase =>
    refine rank_lt_of_stage rfl ?_
    rw [hphase]
    exact Nat.lt_succ_self 1
  | noflipTwo hphase =>
    refine rank_lt_of_stage rfl ?_
    rw [hphase]
    exact Nat.lt_succ_self 0
  | dilute hphase hle _ =>
    refine rank_lt_of_dilutions rfl rfl rfl (dilutionsLeft_inflated hvalid ?_ hm hle)
    rw [hphase]
    decide
  | more hphase hle _ =>
    refine rank_lt_of_dilutions rfl rfl rfl (dilutionsLeft_inflated hvalid ?_ hm hle)
    rw [hphase]
    decide
  | inflate hphase _ _ _ =>
    refine rank_lt_of_dilutions rfl ?_ rfl ?_
    · rw [hphase]
      rfl
    · have hlt := hvalid.lt_mul hm
      unfold dilutionsLeft
      rw [if_pos hphase, if_neg Phase.noConfusion]
      dsimp only [Machine.inflated]
      omega
  | lower hphase _ _ hpos _ =>
    have hstep := hvalid.one_le_step
    refine rank_lt_of_hammers rfl ?_ ?_ (by omega)
    · rw [hphase]
      rfl
    · dsimp only [Machine.lowered]
      omega
  | nextRow _ _ => exact rank_lt_of_restarted hdone

end Rank

theorem exists_done {cfg : Config} (hvalid : cfg.Valid) (errs : Nat → RowErrors) :
    ∃ t s, state cfg errs t = .ok s ∧ s.machine.done cfg := by
  choose σ hσ using exists_state hvalid errs
  have hfall : ∀ t, ¬ (σ t).machine.done cfg →
      ∃ u, t < u ∧ ((σ u).machine.done cfg ∨ rank cfg (σ u).machine < rank cfg (σ t).machine) := by
    intro t hdone
    refine ⟨t + 1, Nat.lt_succ_self t, Or.inr ?_⟩
    obtain ⟨s, printed, hs, hr⟩ := state_succ_iff.mp (hσ (t + 1))
    obtain rfl : s = σ t := Except.ok.inj (hs.symm.trans (hσ t))
    exact rank_lt_of_advances hvalid hdone (sound_state hvalid hs).dilution (processErrors_ok hr).1
  obtain ⟨t, -, ht⟩ := Hdl.eventually_of_rank hfall 0
  exact ⟨t, σ t, hσ t, ht⟩

/-! ## Every victim is counted once -/

/-- The current victim may be counted under `key`. -/
def Tried (m : Machine) (key : Key) : Prop :=
  match m.phase with
  | .NOFLIP_DISTANCE_ONE => False
  | .NOFLIP_DISTANCE_TWO => False
  | .HAMMER_TOLERANCE => m.totalReadCount < key.2
  | .MAX_DILUTION => m.totalReadCount < key.2 ∨ key.2 = m.totalReadCount ∧ key.1 < (m.dilution : WithTop Int)

/-- After an iteration the victim is another one, or `key` is still behind. -/
def Passed (m m' : Machine) (key : Key) : Prop :=
  m.iteration < m'.iteration ∨ m'.iteration = m.iteration ∧ Tried m' key

section Tried
variable {cfg : Config} {f : Bool} {m m' : Machine} {key : Key}

theorem tried_of_hammer (hphase : m.phase = .HAMMER_TOLERANCE) : Tried m key ↔ m.totalReadCount < key.2 := by
  unfold Tried
  rw [hphase]

theorem tried_of_max (hphase : m.phase = .MAX_DILUTION) : Tried m key ↔
    m.totalReadCount < key.2 ∨ key.2 = m.totalReadCount ∧ key.1 < (m.dilution : WithTop Int) := by
  unfold Tried
  rw [hphase]

/-- Before the measurements the victim is not counted. -/
theorem not_tried_of_stage (hstage : m.phase.stage ≠ 0) : ¬ Tried m key := by
  intro h
  unfold Tried at h
  split at h
  · exact h
  · exact h
  · next hphase => exact hstage (by rw [hphase]; rfl)
  · next hphase => exact hstage (by rw [hphase]; rfl)

theorem key_of_ne (hphase : m.phase ≠ .NOFLIP_DISTANCE_TWO) :
    m.key = ((m.dilution : WithTop Int), m.totalReadCount) := by
  unfold Machine.key
  rw [if_neg hphase]

/-- The key of the next measurement is new. -/
theorem not_tried_key : ¬ Tried m m.key := by
  intro h
  unfold Tried at h
  split at h
  · exact h
  · exact h
  · exact absurd h (Int.lt_irrefl _)
  · next hphase =>
    rw [key_of_ne (by rw [hphase]; decide)] at h
    obtain hlt | ⟨-, hlt⟩ := h
    · exact absurd hlt (Int.lt_irrefl _)
    · exact absurd hlt (lt_irrefl _)

theorem iteration_le_of_advances (h : Advances cfg f m m') : m.iteration ≤ m'.iteration := by
  cases h with
  | noflipOne _ => exact Nat.le_refl _
  | noflipTwo _ => exact Nat.le_refl _
  | dilute _ _ _ => exact Nat.le_refl _
  | inflate _ _ _ _ => exact Nat.le_refl _
  | lower _ _ _ _ _ => exact Nat.le_refl _
  | more _ _ _ => exact Nat.le_refl _
  | nextRow _ _ => exact Nat.le_succ _

theorem Tried.advances (hvalid : cfg.Valid) (hm : 1 ≤ m.dilution) (htried : Tried m key) (h : Advances cfg f m m') :
    Passed m m' key := by
  cases h with
  | noflipOne hphase => exact absurd htried (not_tried_of_stage (by rw [hphase]; decide))
  | dilute hphase _ _ => exact absurd htried (not_tried_of_stage (by rw [hphase]; decide))
  | noflipTwo hphase => exact absurd htried (not_tried_of_stage (by rw [hphase]; decide))
  | inflate hphase _ _ _ =>
    have hlt := (tried_of_hammer hphase).mp htried
    exact Or.inr ⟨rfl, (tried_of_max rfl).mpr (Or.inl hlt)⟩
  | lower hphase _ _ _ _ =>
    have hstep := hvalid.one_le_step
    refine Or.inr ⟨rfl, (tried_of_hammer rfl).mpr ?_⟩
    dsimp only [Machine.lowered]
    obtain hlt | ⟨heq, -⟩ := (tried_of_max hphase).mp htried
    · omega
    · omega
  | more hphase _ _ =>
    have hphase' : (m.inflated cfg).phase = .MAX_DILUTION := hphase
    refine Or.inr ⟨rfl, (tried_of_max hphase').mpr ?_⟩
    obtain hlt | ⟨heq, hlt⟩ := (tried_of_max hphase).mp htried
    · exact Or.inl hlt
    · exact Or.inr ⟨heq, hlt.trans (WithTop.coe_lt_coe.mpr (hvalid.lt_mul hm))⟩
  | nextRow _ _ => exact Or.inl (Nat.lt_succ_self _)

/-- The key of a measurement is behind afterwards. -/
theorem passed_key (hvalid : cfg.Valid) (hm : 1 ≤ m.dilution) (hne : m.phase ≠ .NOFLIP_DISTANCE_ONE)
    (h : Advances cfg true m m') : Passed m m' m.key := by
  cases h with
  | dilute hphase _ _ => exact absurd hphase hne
  | inflate hphase _ _ _ =>
    rw [key_of_ne (by rw [hphase]; decide)]
    exact Or.inr ⟨rfl, (tried_of_max rfl).mpr (Or.inr ⟨rfl, WithTop.coe_lt_coe.mpr (hvalid.lt_mul hm)⟩)⟩
  | lower hphase _ _ _ _ =>
    have hstep := hvalid.one_le_step
    refine Or.inr ⟨rfl, (tried_of_hammer rfl).mpr ?_⟩
    dsimp only [Machine.lowered, Machine.key]
    omega
  | more hphase _ _ =>
    have hphase' : (m.inflated cfg).phase = .MAX_DILUTION := hphase
    rw [key_of_ne (by rw [hphase]; decide)]
    exact Or.inr ⟨rfl, (tried_of_max hphase').mpr (Or.inr ⟨rfl, WithTop.coe_lt_coe.mpr (hvalid.lt_mul hm)⟩)⟩
  | nextRow _ _ => exact Or.inl (Nat.lt_succ_self _)

end Tried

/-- The victim of an iteration. -/
def victimOf (cfg : Config) (iteration : Nat) : Int := cfg.attackRowsStart + (iteration + 2)

/-- The invariant of the histograms. -/
structure Counted (cfg : Config) (s : State) : Prop where
  rowCount : ∀ key, s.counts.rowCount key = (s.counts.victimList key).length
  nodup : ∀ key, (s.counts.victimList key).Nodup
  victims : ∀ key, ∀ victim ∈ s.counts.victimList key, ∃ j : Nat, victim = victimOf cfg j ∧
    (j : Int) < cfg.maxAttackRowIdx - 4 ∧ (j < s.machine.iteration ∨ j = s.machine.iteration ∧ Tried s.machine key)

section Counted
variable {cfg : Config} {s s' : State}

theorem victimOf_injective : Function.Injective (victimOf cfg) := by
  intro i j h
  unfold victimOf at h
  omega

theorem Counts.mem_record {c : Counts} {key key' : Key} {n : Nat} {victim logicalVictim : Int} :
    victim ∈ (c.record key n logicalVictim).victimList key' ↔
      victim ∈ c.victimList key' ∨ key' = key ∧ victim = logicalVictim := by
  unfold Counts.record
  dsimp only
  rw [Function.update_apply]
  split
  · next heq => simp [heq]
  · next hne => simp [hne]

/-- The current victim is not counted under the key of the measurement. -/
theorem Counted.victim_notMem (h : Counted cfg s) :
    victimOf cfg s.machine.iteration ∉ s.counts.victimList s.machine.key := by
  intro hmem
  obtain ⟨j, hj, -, hlt | ⟨-, htried⟩⟩ := h.victims _ _ hmem
  · exact absurd (victimOf_injective hj) (Nat.ne_of_gt hlt)
  · exact not_tried_key htried

/-- The victims counted so far, seen after an iteration. -/
theorem Counted.passed (h : Counted cfg s) (hvalid : cfg.Valid) (hm : 1 ≤ s.machine.dilution) {f : Bool} {m' : Machine}
    (hadv : Advances cfg f s.machine m') {key : Key} {victim : Int} (hmem : victim ∈ s.counts.victimList key) :
    ∃ j : Nat, victim = victimOf cfg j ∧ (j : Int) < cfg.maxAttackRowIdx - 4 ∧
      (j < m'.iteration ∨ j = m'.iteration ∧ Tried m' key) := by
  obtain ⟨j, hj, hlt, hbefore⟩ := h.victims key victim hmem
  refine ⟨j, hj, hlt, ?_⟩
  obtain hbefore | ⟨rfl, htried⟩ := hbefore
  · exact Or.inl (Nat.lt_of_lt_of_le hbefore (iteration_le_of_advances hadv))
  · obtain hnext | ⟨hsame, htried'⟩ := htried.advances hvalid hm hadv
    · exact Or.inl hnext
    · exact Or.inr ⟨hsame.symm, htried'⟩

/-- A measurement of the current victim. -/
theorem Counted.record (h : Counted cfg s) (hvalid : cfg.Valid) (hm : 1 ≤ s.machine.dilution)
    (hdone : ¬ s.machine.done cfg) (hphase : s.machine.phase ≠ .NOFLIP_DISTANCE_ONE) {m' : Machine}
    (hadv : Advances cfg true s.machine m') (n : Nat) :
    Counted cfg ⟨m', s.counts.record s.machine.key n (victimOf cfg s.machine.iteration)⟩ where
  rowCount key := by
    dsimp only [Counts.record]
    rw [Function.update_apply, Function.update_apply]
    split
    · rw [List.length_append, h.rowCount]
      rfl
    · exact h.rowCount key
  nodup key := by
    dsimp only [Counts.record]
    rw [Function.update_apply]
    split
    · refine List.nodup_append.mpr ⟨h.nodup _, List.nodup_singleton _, ?_⟩
      intro victim hmem victim' hmem' heq
      obtain rfl : victim' = victimOf cfg s.machine.iteration := List.mem_singleton.mp hmem'
      exact h.victim_notMem (heq ▸ hmem)
    · exact h.nodup key
  victims key victim hmem := by
    obtain hold | ⟨rfl, rfl⟩ := Counts.mem_record.mp hmem
    · exact h.passed hvalid hm hadv hold
    · refine ⟨s.machine.iteration, rfl, Int.not_le.mp hdone, ?_⟩
      obtain hnext | ⟨hsame, htried⟩ := passed_key hvalid hm hphase hadv
      · exact Or.inl hnext
      · exact Or.inr ⟨hsame.symm, htried⟩

theorem Sound.victimOf {m : Machine} (hm : Sound cfg m) (hvalid : cfg.Valid) (hdone : ¬ m.done cfg) :
    m.rowGenerator.getLogicalVictim m.iteration = .ok (victimOf cfg m.iteration) := by
  have hlt : (m.iteration : Int) < cfg.maxAttackRowIdx - 4 := Int.not_le.mp hdone
  rw [hm.getLogicalVictim hvalid, Int.fmod_eq_emod_of_nonneg _ (by omega), Int.emod_eq_of_lt (by omega) (by omega)]
  rfl

theorem Counted.processErrors (h : Counted cfg s) (hvalid : cfg.Valid) (hm : Sound cfg s.machine)
    (hdone : ¬ s.machine.done cfg) {rowErrors : RowErrors} {printed : List (Nat × Nat)}
    (hr : processErrors cfg s rowErrors = .ok (s', printed)) : Counted cfg s' := by
  obtain ⟨hadv, logicalVictim, n, hvictim, hcounts⟩ := processErrors_ok hr
  obtain rfl : victimOf cfg s.machine.iteration = logicalVictim :=
    Except.ok.inj ((hm.victimOf hvalid hdone).symm.trans hvictim)
  obtain ⟨m', counts'⟩ := s'
  dsimp only at hcounts
  subst hcounts
  split
  · next hrec =>
    rw [hrec.2] at hadv
    exact h.record hvalid hm.dilution hdone hrec.1 hadv n
  · exact ⟨h.rowCount, h.nodup, fun key victim hmem => h.passed hvalid hm.dilution hadv hmem⟩

theorem counted_state (hvalid : cfg.Valid) {errs : Nat → RowErrors} {t : Nat} (h : state cfg errs t = .ok s)
    (hdone : ∀ u < t, ∀ s, state cfg errs u = .ok s → ¬ s.machine.done cfg) : Counted cfg s := by
  refine state_induction (P := Counted cfg) ?_ ?_ h
  · intro s h0
    obtain ⟨-, rfl⟩ := state_zero_iff.mp h0
    refine ⟨fun _ => rfl, fun _ => List.nodup_nil, ?_⟩
    intro key victim hmem
    exact absurd hmem List.not_mem_nil
  · intro u hu s s' printed hs hcounted hr
    exact hcounted.processErrors hvalid (sound_state hvalid hs) (hdone u hu s hs) hr

theorem Counted.length_le (h : Counted cfg s) (hvalid : cfg.Valid) (key : Key) :
    ((s.counts.victimList key).length : Int) ≤ cfg.maxAttackRowIdx - 4 := by
  have hsub : s.counts.victimList key ⊆ (List.range (cfg.maxAttackRowIdx - 4).toNat).map (victimOf cfg) := by
    intro victim hmem
    obtain ⟨j, rfl, hlt, -⟩ := h.victims key victim hmem
    exact List.mem_map_of_mem (List.mem_range.mpr (by omega))
  have hle := ((h.nodup key).subperm hsub).length_le
  rw [List.length_map, List.length_range] at hle
  have := hvalid.maxAttackRowIdx
  omega

end Counted

/-- Whatever errors are found, the analysis ends, and until then no victim is counted twice under a key. -/
theorem ends_and_counts_once (cfg : Config) (hinit : 1 ≤ cfg.initialDilution) (hmult : 2 ≤ cfg.dilutionMultiplier)
    (hsteps : 1 ≤ cfg.readCountSteps) (htotal : cfg.readCountSteps ≤ cfg.maxTotalReadCount)
    (hidx : 5 ≤ cfg.maxAttackRowIdx) (errs : Nat → RowErrors) :
    (∃ t s, state cfg errs t = .ok s ∧ s.machine.done cfg) ∧
    ∀ t s, state cfg errs t = .ok s → (∀ u < t, ∀ s, state cfg errs u = .ok s → ¬ s.machine.done cfg) →
      ∀ key, (s.counts.victimList key).Nodup ∧ s.counts.rowCount key = (s.counts.victimList key).length ∧
        (s.counts.rowCount key : Int) ≤ cfg.maxAttackRowIdx - 4 := by
  have hvalid : cfg.Valid := ⟨hinit, hmult, hsteps, htotal, hidx⟩
  refine ⟨exists_done hvalid errs, ?_⟩
  intro t s hs hdone key
  have hcounted := counted_state hvalid hs hdone
  refine ⟨hcounted.nodup key, hcounted.rowCount key, ?_⟩
  rw [hcounted.rowCount]
  exact hcounted.length_le hvalid key

theorem ends_and_counts_once_example :
    ∃ t s, state exampleConfig lateFlip t = .ok s ∧ s.machine.done exampleConfig :=
  (ends_and_counts_once exampleConfig (by decide) (by decide) (by decide) (by decide) (by decide) lateFlip).1

end RowhammerTester.Playbook.HalfDouble
