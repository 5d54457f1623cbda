import RowhammerTester.Playbook.HalfDouble.Iterations

/-!
# The phases, the row generator and the dilution limit

* `Adjusted m` : the row generator has as many rows as the dilution says, the reads are divided among them;
* `Matches m` : the row generator attacks as the phase says, too;
  `matches_iff` : it does as long as no victim flips with the rows at distance two alone, since `next_row` does not
  turn the rows at distance one on again;
* `dilution_le_iff` : the dilution keeps below its limit as long as `find_hammer_tolerance` does not inflate it beyond,
  the one place of the three that does not look.
-/

namespace RowhammerTester.Playbook.HalfDouble

/-- The half-double analysis of 32 victims that the playbook comes with. -/
def exampleConfig : Config :=
  { rowMapping := .TypeARowMapping
    maxTotalReadCount := 950272
    readCountSteps := 16
    initialDilution := 116
    dilutionMultiplier := 2
    maxDilution := 59392
    attackRowsStart := 0
    maxAttackRowIdx := 36
    decoyRowsStart := 36 }

section Runs
variable {cfg : Config} {errs : Nat → RowErrors} {t : Nat} {s : State}

theorem initialDilution_ne_zero (h : state cfg errs t = .ok s) : cfg.initialDilution ≠ 0 := by
  obtain ⟨s₀, hs₀⟩ := exists_state_of_le h (Nat.zero_le t)
  exact (state_zero_iff.mp hs₀).1

theorem exists_victim_of_flipped {m : Machine} {rowErrors : RowErrors} (h : victimFlipped cfg m rowErrors = true) :
    ∃ logicalVictim, m.rowGenerator.getLogicalVictim m.iteration = .ok logicalVictim := by
  obtain ⟨item, -, hitem⟩ := List.any_eq_true.mp h
  exact ⟨_, of_decide_eq_true hitem⟩

/-- An iteration with a flipped victim ends where its phase does. -/
theorem exists_state_succ_of_flipped (h : state cfg errs t = .ok s)
    (hflipped : victimFlipped cfg s.machine (errs t) = true) {m : Machine} (hm : advance cfg true s.machine = .ok m) :
    ∃ s', state cfg errs (t + 1) = .ok s' ∧ s'.machine = m := by
  obtain ⟨logicalVictim, hvictim⟩ := exists_victim_of_flipped hflipped
  rw [← hflipped] at hm
  obtain ⟨s', printed, hr, hm'⟩ := exists_processErrors hvictim hm
  exact ⟨s', state_succ_iff.mpr ⟨s, printed, h, hr⟩, hm'⟩

end Runs

/-! ## The settings of a phase -/

/-- `distance_one` and `distance_two` in a phase. -/
def Phase.distances : Phase → Bool × Bool
  | .NOFLIP_DISTANCE_ONE => (true, false)
  | .NOFLIP_DISTANCE_TWO => (false, true)
  | .HAMMER_TOLERANCE => (true, true)
  | .MAX_DILUTION => (true, true)

/-- The row generator and the number of reads fit the phase and the dilution. -/
structure Matches (m : Machine) : Prop where
  distances : (m.rowGenerator.distanceOne, m.rowGenerator.distanceTwo) = m.phase.distances
  nrRows : m.rowGenerator.nrRows = m.dilution
  readCount : m.readCount = m.totalReadCount.fdiv m.dilution

/-- The rows and the reads are those of the dilution, in whatever phase. -/
structure Adjusted (m : Machine) : Prop where
  nrRows : m.rowGenerator.nrRows = m.dilution
  readCount : m.readCount = m.totalReadCount.fdiv m.dilution
  dilution : m.dilution ≠ 0

section Settings
variable {cfg : Config} {f : Bool} {m m' : Machine}

theorem Adjusted.advances (hm : Adjusted m) (h : Advances cfg f m m') : Adjusted m' := by
  cases h with
  | noflipOne _ => exact ⟨hm.nrRows, hm.readCount, hm.dilution⟩
  | noflipTwo _ => exact ⟨hm.nrRows, hm.readCount, hm.dilution⟩
  | dilute _ _ hne => exact ⟨rfl, rfl, hne⟩
  | inflate _ _ _ hne => exact ⟨rfl, rfl, hne⟩
  | lower _ _ _ _ hne => exact ⟨rfl, rfl, hne⟩
  | more _ _ hne => exact ⟨rfl, rfl, hne⟩
  | nextRow _ hne => exact ⟨rfl, rfl, hne⟩

/-- A victim that is given up leaves `distance_one` on unless it flipped with the rows at distance two alone. -/
theorem distanceOne_of_leaves (h : Leaves cfg f m)
    (hdist : (m.rowGenerator.distanceOne, m.rowGenerator.distanceTwo) = m.phase.distances)
    (hok : m.phase = .NOFLIP_DISTANCE_TWO → f = false) : m.rowGenerator.distanceOne = true := by
  have hfst := congrArg Prod.fst hdist
  cases h with
  | diluted hphase _ => rw [hphase] at hfst; exact hfst
  | flipped hphase => cases hok hphase
  | tolerant hphase => rw [hphase] at hfst; exact hfst
  | least hphase _ _ => rw [hphase] at hfst; exact hfst
  | exhausted hphase _ _ _ => rw [hphase] at hfst; exact hfst

theorem distances_of_advances (h : Advances cfg f m m')
    (hdist : (m.rowGenerator.distanceOne, m.rowGenerator.distanceTwo) = m.phase.distances)
    (hok : m.phase = .NOFLIP_DISTANCE_TWO → f = false) :
    (m'.rowGenerator.distanceOne, m'.rowGenerator.distanceTwo) = m'.phase.distances := by
  cases h with
  | noflipOne _ => rfl
  | dilute hphase _ _ =>
    rw [hphase] at hdist
    exact hdist.trans (congrArg Phase.distances hphase.symm)
  | noflipTwo hphase =>
    rw [hphase] at hdist
    have htwo : m.rowGenerator.distanceTwo = true := congrArg Prod.snd hdist
    exact Prod.ext rfl htwo
  | inflate hphase _ _ _ =>
    rw [hphase] at hdist
    exact hdist
  | lower hphase _ _ _ _ =>
    rw [hphase] at hdist
    exact hdist
  | more hphase _ _ =>
    rw [hphase] at hdist
    exact hdist.trans (congrArg Phase.distances hphase.symm)
  | nextRow hleaves _ =>
    have hone : m.rowGenerator.distanceOne = true := distanceOne_of_leaves hleaves hdist hok
    exact Prod.ext hone rfl

/-- A victim that flips with the rows at distance two alone leaves `distance_one` off. -/
theorem not_matches_of_flipped (hm : Matches m) (hphase : m.phase = .NOFLIP_DISTANCE_TWO) :
    ¬ Matches (m.restarted cfg) := by
  intro hm'
  have hoff : m.rowGenerator.distanceOne = false := by
    have hfst := congrArg Prod.fst hm.distances
    rw [hphase] at hfst
    exact hfst
  have hon : m.rowGenerator.distanceOne = true := congrArg Prod.fst hm'.distances
  rw [hoff] at hon
  cases hon

end Settings

/-- The rows and the reads follow the dilution in every state of a run. -/
theorem adjusted {cfg : Config} {errs : Nat → RowErrors} {t : Nat} {s : State} (h : state cfg errs t = .ok s) :
    Adjusted s.machine := by
  refine state_induction (P := fun s => Adjusted s.machine) ?_ ?_ h
  · intro s h0
    obtain ⟨hne, rfl⟩ := state_zero_iff.mp h0
    exact ⟨rfl, rfl, hne⟩
  · intro u _ s s' printed _ hm hr
    exact hm.advances (processErrors_ok hr).1

/-- The settings match the phase in all states of a run exactly if no victim of the run has flipped with the rows at
distance two alone. -/
theorem matches_iff (cfg : Config) (errs : Nat → RowErrors) (n : Nat) :
    (∀ t ≤ n, ∀ s, state cfg errs t = .ok s → Matches s.machine) ↔
      ∀ t < n, ∀ s, state cfg errs t = .ok s → s.machine.phase = .NOFLIP_DISTANCE_TWO →
        victimFlipped cfg s.machine (errs t) = false := by
  constructor
  · intro hall t ht s hs hphase
    rw [← Bool.not_eq_true]
    intro hflipped
    have hadvance : advance cfg true s.machine = .ok (s.machine.restarted cfg) := by
      unfold advance
      rw [hphase]
      exact nextRow_iff.mpr ⟨initialDilution_ne_zero hs, rfl⟩
    obtain ⟨s', hs', hm'⟩ := exists_state_succ_of_flipped hs hflipped hadvance
    apply not_matches_of_flipped (hall t (Nat.le_of_lt ht) s hs) hphase
    rw [← hm']
    exact hall (t + 1) ht s' hs'
  · intro hok t ht s hs
    refine ⟨?_, (adjusted hs).nrRows, (adjusted hs).readCount⟩
    refine state_induction (P := fun s =>
      (s.machine.rowGenerator.distanceOne, s.machine.rowGenerator.distanceTwo) = s.machine.phase.distances) ?_ ?_ hs
    · intro s h0
      obtain ⟨-, rfl⟩ := state_zero_iff.mp h0
      rfl
    · intro u hu s s' printed hs hdist hr
      exact distances_of_advances (processErrors_ok hr).1 hdist (hok u (by omega) s hs)

/-- The second iteration finds an error in the first victim, with the rows at distance two alone. -/
theorem distance_one_stays_off :
    ∃ s, state exampleConfig (fun t => if t = 1 then [(2, [⟨0, 1, 0⟩])] else []) 2 = .ok s ∧
      s.machine.phase = .NOFLIP_DISTANCE_ONE ∧ s.machine.rowGenerator.distanceOne = false ∧ ¬ Matches s.machine := by
  refine ⟨_, rfl, rfl, rfl, ?_⟩
  intro hm
  exact absurd (congrArg Prod.fst hm.distances) (by decide)

/-! ## The dilution limit -/

section Limit
variable {cfg : Config} {f : Bool} {m m' : Machine}

theorem dilution_le_of_advances (hinit : cfg.initialDilution ≤ cfg.maxDilution) (h : Advances cfg f m m')
    (hm : m.dilution ≤ cfg.maxDilution)
    (hok : m.phase = .HAMMER_TOLERANCE → f = true → toleranceFound cfg true m = .ok false →
      m.dilution * cfg.dilutionMultiplier ≤ cfg.maxDilution) : m'.dilution ≤ cfg.maxDilution := by
  cases h with
  | noflipOne _ => exact hm
  | noflipTwo _ => exact hm
  | dilute _ hle _ => exact hle
  | inflate hphase hsteps hlt _ =>
    refine hok hphase rfl (toleranceFound_true.mpr ⟨hsteps, ?_⟩)
    exact (decide_eq_false (Int.not_le.mpr hlt)).symm
  | lower _ _ _ _ _ => exact hinit
  | more _ hle _ => exact hle
  | nextRow _ _ => exact hinit

end Limit

/-- The dilution and the number of rows keep within the limit in all states of a run exactly if every inflation by
`find_hammer_tolerance` in the run does. -/
theorem dilution_le_iff (cfg : Config) (hinit : cfg.initialDilution ≤ cfg.maxDilution)
    (hmult : 2 ≤ cfg.dilutionMultiplier) (errs : Nat → RowErrors) (n : Nat) :
    (∀ t ≤ n, ∀ s, state cfg errs t = .ok s →
      s.machine.dilution ≤ cfg.maxDilution ∧ s.machine.rowGenerator.nrRows ≤ cfg.maxDilution) ↔
      ∀ t < n, ∀ s, state cfg errs t = .ok s → s.machine.phase = .HAMMER_TOLERANCE →
        victimFlipped cfg s.machine (errs t) = true → toleranceFound cfg true s.machine = .ok false →
        s.machine.dilution * cfg.dilutionMultiplier ≤ cfg.maxDilution := by
  constructor
  · intro hall t ht s hs hphase hflipped hfound
    have hne : s.machine.dilution * cfg.dilutionMultiplier ≠ 0 :=
      Int.mul_ne_zero (adjusted hs).dilution (by omega)
    have hadvance : advance cfg true s.machine = .ok { s.machine.inflated cfg with phase := .MAX_DILUTION } := by
      unfold advance
      rw [hphase]
      refine Py.bind_eq_ok.mpr ⟨false, hfound, ?_⟩
      exact Py.bind_eq_ok.mpr ⟨_, Machine.setReadCount_iff.mpr ⟨hne, rfl⟩, rfl⟩
    obtain ⟨s', hs', hm'⟩ := exists_state_succ_of_flipped hs hflipped hadvance
    have hle := (hall (t + 1) ht s' hs').1
    rwa [hm'] at hle
  · intro hok t ht s hs
    rw [(adjusted hs).nrRows, and_self]
    refine state_induction (P := fun s => s.machine.dilution ≤ cfg.maxDilution) ?_ ?_ hs
    · intro s h0
      obtain ⟨-, rfl⟩ := state_zero_iff.mp h0
      exact hinit
    · intro u hu s s' printed hs hm hr
      exact dilution_le_of_advances hinit (processErrors_ok hr).1 hm (hok u (by omega) s hs)

/-- The first victim flips nine times with the rows at distance one, until the dilution has reached its limit, then
twice not, and then with the rows at both distances. -/
def lateFlip : Nat → RowErrors := fun t => if t < 9 ∨ t = 11 then [(2, [⟨0, 1, 0⟩])] else []

theorem dilution_le_iff_nineFlips :
    (∀ t ≤ 11, ∀ s, state exampleConfig lateFlip t = .ok s →
      s.machine.dilution ≤ 59392 ∧ s.machine.rowGenerator.nrRows ≤ 59392) ↔
      ∀ t < 11, ∀ s, state exampleConfig lateFlip t = .ok s → s.machine.phase = .HAMMER_TOLERANCE →
        victimFlipped exampleConfig s.machine (lateFlip t) = true →
        toleranceFound exampleConfig true s.machine = .ok false → s.machine.dilution * 2 ≤ 59392 :=
  dilution_le_iff exampleConfig (by decide) (by decide) lateFlip 11

theorem dilution_beyond_limit :
    ∃ s, state exampleConfig lateFlip 12 = .ok s ∧ s.machine.dilution = 118784 ∧
      exampleConfig.maxDilution < s.machine.dilution := by
  refine ⟨_, rfl, rfl, ?_⟩
  decide

end RowhammerTester.Playbook.HalfDouble
