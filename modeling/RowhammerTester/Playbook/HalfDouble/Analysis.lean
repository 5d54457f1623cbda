import RowhammerTester.Python
import RowhammerTester.Playbook.RowMapping

/-!
# The phases of `HalfDoubleAnalysisPayloadGenerator`

For every victim row the half-double analysis looks for a dilution at which the rows at distance one alone and the
rows at distance two alone flip nothing, and then measures how many hammers and which dilution both together need.

* `Config` : the configuration; `RowGenerator`, `updateParam` : the parameters of `HalfDoubleRowGenerator`;
* `Machine` : the variables that the phase functions use; `noflipDistanceOne`, `noflipDistanceTwo`,
  `findHammerTolerance`, `findMaxDilution`, `nextRow`, `advance` : the functions;
* `Leaves`, `Advances` : the ways a phase goes on (`advances_of_ok`, `exists_advance`).
-/

namespace RowhammerTester.Playbook.HalfDouble

/-- `HalfDoubleAnalysisState`. -/
inductive Phase where
  | NOFLIP_DISTANCE_ONE | NOFLIP_DISTANCE_TWO | HAMMER_TOLERANCE | MAX_DILUTION
deriving DecidableEq, Repr

/-- The module configuration. -/
structure Config where
  rowMapping : RowMapping
  maxTotalReadCount : Int
  readCountSteps : Int
  initialDilution : Int
  dilutionMultiplier : Int
  maxDilution : Int
  attackRowsStart : Int
  maxAttackRowIdx : Int
  decoyRowsStart : Int

/-! ## The row generator -/

/-- The parameters of `HalfDoubleRowGenerator`. -/
structure RowGenerator where
  nrRows : Int
  distanceOne : Bool
  doubleSided : Bool
  distanceTwo : Bool
  attackRowsStart : Int
  maxAttackRowIdx : Int
  decoyRowsStart : Int

/-- The keys that `update_param` accepts, with their values. -/
inductive Param where
  | nrRows (value : Int)
  | distanceOne (value : Bool)
  | doubleSided (value : Bool)
  | distanceTwo (value : Bool)

namespace RowGenerator

def updateParam (g : RowGenerator) : Param → RowGenerator
  | .nrRows value => { g with nrRows := value }
  | .distanceOne value => { g with distanceOne := value }
  | .doubleSided value => { g with doubleSided := value }
  | .distanceTwo value => { g with distanceTwo := value }

def getLogicalVictim (g : RowGenerator) (iteration : Nat) : Py Int := do
  let r ← Py.mod (iteration + 2) (g.maxAttackRowIdx - 2)
  return g.attackRowsStart + r

end RowGenerator

/-! ## The state machine -/

/-- The variables of the state machine. -/
structure Machine where
  rowGenerator : RowGenerator
  iteration : Nat
  totalReadCount : Int
  dilution : Int
  readCount : Int
  phase : Phase

namespace Machine

def updateParam (m : Machine) (param : Param) : Machine :=
  { m with rowGenerator := m.rowGenerator.updateParam param }

/-- `self.read_count = self.total_read_count // self.dilution`. -/
def setReadCount (m : Machine) : Py Machine := do
  let readCount ← Py.floordiv m.totalReadCount m.dilution
  return { m with readCount := readCount }

end Machine

section Functions
variable (cfg : Config)

/-- `initialize`. -/
def initializeMachine : Py Machine :=
  Machine.setReadCount
    { rowGenerator :=
        { nrRows := cfg.initialDilution
          distanceOne := true
          doubleSided := true
          distanceTwo := false
          attackRowsStart := cfg.attackRowsStart
          maxAttackRowIdx := cfg.maxAttackRowIdx
          decoyRowsStart := cfg.decoyRowsStart }
      iteration := 0
      totalReadCount := cfg.maxTotalReadCount
      dilution := cfg.initialDilution
      readCount := 0
      phase := .NOFLIP_DISTANCE_ONE }

def nextRow (m : Machine) : Py Machine := do
  let m ← Machine.setReadCount { m with
    phase := .NOFLIP_DISTANCE_ONE
    dilution := cfg.initialDilution
    totalReadCount := cfg.maxTotalReadCount }
  let m := (m.updateParam (.distanceTwo false)).updateParam (.nrRows m.dilution)
  return { m with iteration := m.iteration + 1 }

def noflipDistanceOne (victimFlipped : Bool) (m : Machine) : Py Machine :=
  if !victimFlipped then
    .ok (({ m with phase := .NOFLIP_DISTANCE_TWO }.updateParam (.distanceTwo true)).updateParam (.distanceOne false))
  else
    -- we must have too many hammers
    let m := { m with dilution := m.dilution * cfg.dilutionMultiplier }
    if m.dilution > cfg.maxDilution then nextRow cfg m
    else (m.updateParam (.nrRows m.dilution)).setReadCount

def noflipDistanceTwo (victimFlipped : Bool) (m : Machine) : Py Machine :=
  if !victimFlipped then .ok ({ m with phase := .HAMMER_TOLERANCE }.updateParam (.distanceOne true))
  else nextRow cfg m

/-- `not victim_flipped or total_read_count <= max_total_read_count // read_count_steps`. -/
def toleranceFound (victimFlipped : Bool) (m : Machine) : Py Bool :=
  if !victimFlipped then .ok true
  else do
    let least ← Py.floordiv cfg.maxTotalReadCount cfg.readCountSteps
    return decide (m.totalReadCount ≤ least)

def findHammerTolerance (victimFlipped : Bool) (m : Machine) : Py Machine := do
  if ← toleranceFound cfg victimFlipped m then nextRow cfg m
  else
    let m := { m with dilution := m.dilution * cfg.dilutionMultiplier }
    let m ← (m.updateParam (.nrRows m.dilution)).setReadCount
    return { m with phase := .MAX_DILUTION }

def findMaxDilution (victimFlipped : Bool) (m : Machine) : Py Machine :=
  if !victimFlipped || m.dilution * cfg.dilutionMultiplier > cfg.maxDilution then do
    let step ← Py.floordiv cfg.maxTotalReadCount cfg.readCountSteps
    let m := { m with dilution := cfg.initialDilution, totalReadCount := m.totalReadCount - step }
    if m.totalReadCount > 0 then
      let m ← (m.updateParam (.nrRows m.dilution)).setReadCount
      return { m with phase := .HAMMER_TOLERANCE }
    else nextRow cfg m
  else
    let m := { m with dilution := m.dilution * cfg.dilutionMultiplier }
    (m.updateParam (.nrRows m.dilution)).setReadCount

/-- The function of the phase. -/
def advance (victimFlipped : Bool) (m : Machine) : Py Machine :=
  match m.phase with
  | .NOFLIP_DISTANCE_ONE => noflipDistanceOne cfg victimFlipped m
  | .NOFLIP_DISTANCE_TWO => noflipDistanceTwo cfg victimFlipped m
  | .HAMMER_TOLERANCE => findHammerTolerance cfg victimFlipped m
  | .MAX_DILUTION => findMaxDilution cfg victimFlipped m

end Functions

/-- `done`. -/
def Machine.done (cfg : Config) (m : Machine) : Prop := (m.iteration : Int) ≥ cfg.maxAttackRowIdx - 4

instance (cfg : Config) (m : Machine) : Decidable (m.done cfg) := inferInstanceAs (Decidable (_ ≥ _))

/-! ## What a phase does -/

namespace Machine
variable (cfg : Config) (m : Machine)

/-- On to the next victim. -/
def restarted : Machine :=
  { rowGenerator := { m.rowGenerator with distanceTwo := false, nrRows := cfg.initialDilution }
    iteration := m.iteration + 1
    totalReadCount := cfg.maxTotalReadCount
    dilution := cfg.initialDilution
    readCount := cfg.maxTotalReadCount.fdiv cfg.initialDilution
    phase := .NOFLIP_DISTANCE_ONE }

/-- More rows with the same number of hammers. -/
def inflated : Machine :=
  { m with
    rowGenerator := { m.rowGenerator with nrRows := m.dilution * cfg.dilutionMultiplier }
    dilution := m.dilution * cfg.dilutionMultiplier
    readCount := m.totalReadCount.fdiv (m.dilution * cfg.dilutionMultiplier) }

/-- Fewer hammers with the initial number of rows. -/
def lowered : Machine :=
  { m with
    rowGenerator := { m.rowGenerator with nrRows := cfg.initialDilution }
    totalReadCount := m.totalReadCount - cfg.maxTotalReadCount.fdiv cfg.readCountSteps
    dilution := cfg.initialDilution
    readCount := (m.totalReadCount - cfg.maxTotalReadCount.fdiv cfg.readCountSteps).fdiv cfg.initialDilution
    phase := .HAMMER_TOLERANCE }

/-- The rows at distance two alone. -/
def distanceTwoOnly : Machine :=
  { m with
    rowGenerator := { m.rowGenerator with distanceOne := false, distanceTwo := true }
    phase := .NOFLIP_DISTANCE_TWO }

/-- The rows at both distances. -/
def bothDistances : Machine :=
  { m with rowGenerator := { m.rowGenerator with distanceOne := true }, phase := .HAMMER_TOLERANCE }

variable {m}

theorem setReadCount_iff {m' : Machine} : m.setReadCount = .ok m' ↔
    m.dilution ≠ 0 ∧ m' = { m with readCount := m.totalReadCount.fdiv m.dilution } := by
  unfold setReadCount
  rw [Py.bind_eq_ok]
  constructor
  · rintro ⟨q, hq, h⟩
    obtain ⟨hne, rfl⟩ := Py.floordiv_eq_ok.mp hq
    cases h
    exact ⟨hne, rfl⟩
  · rintro ⟨hne, rfl⟩
    exact ⟨_, Py.floordiv_eq_ok.mpr ⟨hne, rfl⟩, rfl⟩

end Machine

section Advance
variable (cfg : Config)

/-- The victim is given up. -/
inductive Leaves : Bool → Machine → Prop
  | diluted {m : Machine} (hphase : m.phase = .NOFLIP_DISTANCE_ONE)
      (hlt : cfg.maxDilution < m.dilution * cfg.dilutionMultiplier) : Leaves true m
  | flipped {m : Machine} (hphase : m.phase = .NOFLIP_DISTANCE_TWO) : Leaves true m
  | tolerant {m : Machine} (hphase : m.phase = .HAMMER_TOLERANCE) : Leaves false m
  | least {m : Machine} (hphase : m.phase = .HAMMER_TOLERANCE) (hsteps : cfg.readCountSteps ≠ 0)
      (hle : m.totalReadCount ≤ cfg.maxTotalReadCount.fdiv cfg.readCountSteps) : Leaves true m
  | exhausted {f : Bool} {m : Machine} (hphase : m.phase = .MAX_DILUTION)
      (hout : f = false ∨ cfg.maxDilution < m.dilution * cfg.dilutionMultiplier) (hsteps : cfg.readCountSteps ≠ 0)
      (hle : m.totalReadCount - cfg.maxTotalReadCount.fdiv cfg.readCountSteps ≤ 0) : Leaves f m

/-- An iteration takes the state machine from `m` to `m'`. -/
inductive Advances : Bool → Machine → Machine → Prop
  | noflipOne {m : Machine} (hphase : m.phase = .NOFLIP_DISTANCE_ONE) : Advances false m m.distanceTwoOnly
  | dilute {m : Machine} (hphase : m.phase = .NOFLIP_DISTANCE_ONE)
      (hle : m.dilution * cfg.dilutionMultiplier ≤ cfg.maxDilution)
      (hne : m.dilution * cfg.dilutionMultiplier ≠ 0) : Advances true m (m.inflated cfg)
  | noflipTwo {m : Machine} (hphase : m.phase = .NOFLIP_DISTANCE_TWO) : Advances false m m.bothDistances
  | inflate {m : Machine} (hphase : m.phase = .HAMMER_TOLERANCE) (hsteps : cfg.readCountSteps ≠ 0)
      (hlt : cfg.maxTotalReadCount.fdiv cfg.readCountSteps < m.totalReadCount)
      (hne : m.dilution * cfg.dilutionMultiplier ≠ 0) :
      Advances true m { m.inflated cfg with phase := .MAX_DILUTION }
  | lower {f : Bool} {m : Machine} (hphase : m.phase = .MAX_DILUTION)
      (hout : f = false ∨ cfg.maxDilution < m.dilution * cfg.dilutionMultiplier) (hsteps : cfg.readCountSteps ≠ 0)
      (hpos : 0 < m.totalReadCount - cfg.maxTotalReadCount.fdiv cfg.readCountSteps)
      (hne : cfg.initialDilution ≠ 0) : Advances f m (m.lowered cfg)
  | more {m : Machine} (hphase : m.phase = .MAX_DILUTION)
      (hle : m.dilution * cfg.dilutionMultiplier ≤ cfg.maxDilution)
      (hne : m.dilution * cfg.dilutionMultiplier ≠ 0) : Advances true m (m.inflated cfg)
  | nextRow {f : Bool} {m : Machine} (hleaves : Leaves cfg f m) (hne : cfg.initialDilution ≠ 0) :
      Advances f m (m.restarted cfg)

variable {cfg} {f : Bool} {m m' : Machine}

theorem nextRow_iff : nextRow cfg m = .ok m' ↔ cfg.initialDilution ≠ 0 ∧ m' = m.restarted cfg := by
  unfold nextRow
  rw [Py.bind_eq_ok]
  simp only [Machine.setReadCount_iff]
  constructor
  · rintro ⟨m₁, ⟨hne, rfl⟩, h⟩
    cases h
    exact ⟨hne, rfl⟩
  · rintro ⟨hne, rfl⟩
    exact ⟨_, ⟨hne, rfl⟩, rfl⟩

theorem toleranceFound_true {b : Bool} : toleranceFound cfg true m = .ok b ↔ cfg.readCountSteps ≠ 0 ∧
    b = decide (m.totalReadCount ≤ cfg.maxTotalReadCount.fdiv cfg.readCountSteps) := by
  unfold toleranceFound
  rw [if_neg (by decide), Py.bind_eq_ok]
  constructor
  · rintro ⟨q, hq, h⟩
    obtain ⟨hne, rfl⟩ := Py.floordiv_eq_ok.mp hq
    cases h
    exact ⟨hne, rfl⟩
  · rintro ⟨hne, rfl⟩
    exact ⟨_, Py.floordiv_eq_ok.mpr ⟨hne, rfl⟩, rfl⟩

theorem noflipDistanceOne_ok (hphase : m.phase = .NOFLIP_DISTANCE_ONE) (h : noflipDistanceOne cfg f m = .ok m') :
    Advances cfg f m m' := by
  unfold noflipDistanceOne at h
  cases f with
  | false =>
    cases h
    exact .noflipOne hphase
  | true =>
    rw [if_neg (by decide)] at h
    dsimp only at h
    split at h
    · next hlt =>
      obtain ⟨hne, rfl⟩ := nextRow_iff.mp h
      exact .nextRow (.diluted hphase hlt) hne
    · next hle =>
      obtain ⟨hne, rfl⟩ := Machine.setReadCount_iff.mp h
      exact .dilute hphase (Int.not_lt.mp hle) hne

theorem noflipDistanceTwo_ok (hphase : m.phase = .NOFLIP_DISTANCE_TWO) (h : noflipDistanceTwo cfg f m = .ok m') :
    Advances cfg f m m' := by
  unfold noflipDistanceTwo at h
  cases f with
  | false =>
    cases h
    exact .noflipTwo hphase
  | true =>
    obtain ⟨hne, rfl⟩ := nextRow_iff.mp h
    exact .nextRow (.flipped hphase) hne

theorem findHammerTolerance_ok (hphase : m.phase = .HAMMER_TOLERANCE) (h : findHammerTolerance cfg f m = .ok m') :
    Advances cfg f m m' := by
  obtain ⟨b, hb, h⟩ := Py.bind_eq_ok.mp h
  cases f with
  | false =>
    cases hb
    obtain ⟨hne, rfl⟩ := nextRow_iff.mp h
    exact .nextRow (.tolerant hphase) hne
  | true =>
    obtain ⟨hsteps, rfl⟩ := toleranceFound_true.mp hb
    split at h
    · next hle =>
      obtain ⟨hne, rfl⟩ := nextRow_iff.mp h
      exact .nextRow (.least hphase hsteps (of_decide_eq_true hle)) hne
    · next hlt =>
      obtain ⟨m₁, hm₁, h⟩ := Py.bind_eq_ok.mp h
      obtain ⟨hne, rfl⟩ := Machine.setReadCount_iff.mp hm₁
      cases h
      exact .inflate hphase hsteps (Int.not_le.mp fun hle => hlt (decide_eq_true hle)) hne

theorem findMaxDilution_ok (hphase : m.phase = .MAX_DILUTION) (h : findMaxDilution cfg f m = .ok m') :
    Advances cfg f m m' := by
  unfold findMaxDilution at h
  split at h
  · next hout =>
    rw [Bool.or_eq_true, Bool.not_eq_true', decide_eq_true_eq] at hout
    obtain ⟨step, hstep, h⟩ := Py.bind_eq_ok.mp h
    obtain ⟨hsteps, rfl⟩ := Py.floordiv_eq_ok.mp hstep
    dsimp only at h
    split at h
    · next hpos =>
      obtain ⟨m₁, hm₁, h⟩ := Py.bind_eq_ok.mp h
      obtain ⟨hne, rfl⟩ := Machine.setReadCount_iff.mp hm₁
      cases h
      exact .lower hphase hout hsteps hpos hne
    · next hle =>
      obtain ⟨hne, rfl⟩ := nextRow_iff.mp h
      exact .nextRow (.exhausted hphase hout hsteps (Int.not_lt.mp hle)) hne
  · next hin =>
    rw [Bool.or_eq_true, Bool.not_eq_true', decide_eq_true_eq, not_or, Bool.not_eq_false] at hin
    obtain ⟨rfl, hle⟩ := hin
    obtain ⟨hne, rfl⟩ := Machine.setReadCount_iff.mp h
    exact .more hphase (Int.not_lt.mp hle) hne

/-- What an iteration has done. -/
theorem advances_of_ok (h : advance cfg f m = .ok m') : Advances cfg f m m' := by
  unfold advance at h
  split at h
  · next hphase => exact noflipDistanceOne_ok hphase h
  · next hphase => exact noflipDistanceTwo_ok hphase h
  · next hphase => exact findHammerTolerance_ok hphase h
  · next hphase => exact findMaxDilution_ok hphase h

/-- An iteration does not raise unless it divides by zero. -/
theorem exists_advance (hinit : cfg.initialDilution ≠ 0) (hsteps : cfg.readCountSteps ≠ 0)
    (hne : m.dilution * cfg.dilutionMultiplier ≠ 0) : ∃ m', advance cfg f m = .ok m' := by
  have hnext : ∀ m, ∃ m', nextRow cfg m = .ok m' := fun m => ⟨_, nextRow_iff.mpr ⟨hinit, rfl⟩⟩
  unfold advance
  split
  · unfold noflipDistanceOne
    cases f with
    | false => exact ⟨_, rfl⟩
    | true =>
      rw [if_neg (by decide)]
      dsimp only
      split
      · exact hnext _
      · exact ⟨_, Machine.setReadCount_iff.mpr ⟨hne, rfl⟩⟩
  · unfold noflipDistanceTwo
    cases f with
    | false => exact ⟨_, rfl⟩
    | true => exact hnext _
  · unfold findHammerTolerance
    cases f with
    | false => exact hnext _
    | true =>
      refine Py.exists_bind (toleranceFound_true.mpr ⟨hsteps, rfl⟩) ?_
      split
      · exact hnext _
      · exact Py.exists_bind (Machine.setReadCount_iff.mpr ⟨hne, rfl⟩) ⟨_, rfl⟩
  · unfold findMaxDilution
    split
    · refine Py.exists_bind (Py.floordiv_eq_ok.mpr ⟨hsteps, rfl⟩) ?_
      dsimp only
      split
      · exact Py.exists_bind (Machine.setReadCount_iff.mpr ⟨hinit, rfl⟩) ⟨_, rfl⟩
      · exact hnext _
    · exact ⟨_, Machine.setReadCount_iff.mpr ⟨hne, rfl⟩⟩

end Advance

end RowhammerTester.Playbook.HalfDouble
