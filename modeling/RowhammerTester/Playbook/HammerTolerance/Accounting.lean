import RowhammerTester.Playbook.HammerTolerance.Adjacent
import RowhammerTester.Playbook.HammerTolerance.FlipTotals
import Mathlib.Tactic.Ring

/-!
# The hammer counts of the histograms

`get_payload` asks for a number of hammers, and `process_errors` computes the key of the histograms from the iteration.

* `stateAfter cfg errs t` : the generator after `t` payloads, `errs t` the errors found after payload `t`;
* `AddsAt key s s' n` : `n` flips are added under a key, and nothing elsewhere;
* `Accounted cfg` : in every run, flips are added under the hammer count that was asked for, without those of the
  baseline run before;
* `accounted_iff` : for which configurations this is so.
-/

namespace RowhammerTester.Playbook.HammerTolerance
open RowhammerTester.Hdl Py

/-! ## Runs -/

section Runs
variable (cfg : Config)

/-- The generator after `t` payloads. -/
def stateAfter (errs : Nat → RowErrors) : Nat → Py State
  | 0 => .ok (initialState cfg)
  | t + 1 => do
    let st ← stateAfter errs t
    processErrors cfg st (errs t)

/-- The flips found in the victim. -/
def victimFlips (st : State) (rowErrors : RowErrors) : Nat :=
  match getRowForIter cfg st cfg.distance with
  | .ok (_, rowNum) => flips ((errorsOf rowErrors rowNum).getD [])
  | .error _ => 0

/-- Flips are added under a key, and the histograms of all other keys stay. -/
structure AddsAt (key : Int) (s s' : Stats) (n : Nat) : Prop where
  bitErrors : s'.bitErrors = increase s.bitErrors key n
  rowErrors : ∀ key' ≠ key, s'.rowErrors key' = s.rowErrors key'
  beatErrors : ∀ key' ≠ key, ∀ k, s'.beatErrors (key', k) = s.beatErrors (key', k)
  chipErrorsPerRead : ∀ key' ≠ key, ∀ p, s'.chipErrorsPerRead (key', p) = s.chipErrorsPerRead (key', p)
  chipErrorsPerBeat : ∀ key' ≠ key, ∀ p, s'.chipErrorsPerBeat (key', p) = s.chipErrorsPerBeat (key', p)
  chipsWithErrorsPerBeat :
    ∀ key' ≠ key, ∀ k, s'.chipsWithErrorsPerBeat (key', k) = s.chipsWithErrorsPerBeat (key', k)

/-- The run before has been a baseline run for the victim with as many hammers, and `n` are its flips. -/
def BaselineBefore (errs : Nat → RowErrors) (t : Nat) (st : State) (readCount : Int) (n : Nat) : Prop :=
  ∃ u stb, t = u + 1 ∧ stateAfter cfg errs u = .ok stb ∧ stb.runBaseline = true ∧
    getRowForIter cfg stb cfg.distance = getRowForIter cfg st cfg.distance ∧
    (∀ timings bankbits bank size, ∃ r, payloadRequest cfg stb timings bankbits bank size = .ok r ∧
      r.readCount = readCount) ∧
    n = victimFlips cfg stb (errs u)

/-- What the errors of payload `t` do, if the payload has `readCount` hammers. -/
def AccountedAt (errs : Nat → RowErrors) (t : Nat) (st st' : State) (readCount : Int) : Prop :=
  if cfg.baseline = false then AddsAt readCount st.stats st'.stats (victimFlips cfg st (errs t))
  else if st.runBaseline = true then st'.stats = st.stats
  else ∃ n, BaselineBefore cfg errs t st readCount n ∧
    AddsAt readCount st.stats st'.stats (victimFlips cfg st (errs t) - n)

/-- In every run, the flips after a payload are added under the hammer count of the payload. -/
def Accounted : Prop :=
  ∀ (errs : Nat → RowErrors) (t : Nat) (st st' : State) (timings : Timings) (bankbits bank size : Nat)
    (r : RowListRequest), stateAfter cfg errs t = .ok st → payloadRequest cfg st timings bankbits bank size = .ok r →
      processErrors cfg st (errs t) = .ok st' → AccountedAt cfg errs t st st' r.readCount

end Runs

/-! ## Adding flips -/

namespace AddsAt
variable {key : Int} {s : Stats}

theorem refl (key : Int) (s : Stats) : AddsAt key s s 0 where
  bitErrors := (increase_zero _ key).symm
  rowErrors := fun _ _ => rfl
  beatErrors := fun _ _ _ => rfl
  chipErrorsPerRead := fun _ _ _ => rfl
  chipErrorsPerBeat := fun _ _ _ => rfl
  chipsWithErrorsPerBeat := fun _ _ _ => rfl

theorem addFlips (key : Int) (s : Stats) (n : Nat) : AddsAt key s (addFlips s key n) n := by
  unfold HammerTolerance.addFlips
  dsimp only
  split
  · exact ⟨rfl, fun _ h => increase_apply_of_ne _ _ h 1, fun _ _ _ => rfl, fun _ _ _ => rfl, fun _ _ _ => rfl,
      fun _ _ _ => rfl⟩
  · exact ⟨rfl, fun _ _ => rfl, fun _ _ _ => rfl, fun _ _ _ => rfl, fun _ _ _ => rfl, fun _ _ _ => rfl⟩

/-- Other keys are not among those of a step. -/
theorem tally_of_ne {ι : Type} [DecidableEq ι] (d : Int × ι → Nat) (keys : List ι) {key' : Int} (h : key' ≠ key)
    (i : ι) : tally d (keys.map (key, ·)) (key', i) = d (key', i) := by
  apply tally_apply_of_not_mem
  intro hmem
  obtain ⟨j, -, hj⟩ := List.mem_map.mp hmem
  exact h (congrArg Prod.fst hj).symm

theorem add (key : Int) (s : Stats) (f : Found) :
    AddsAt key s { s.add key f with rowErrors := increase s.rowErrors key 1 } f.bits where
  bitErrors := rfl
  rowErrors := fun _ h => increase_apply_of_ne _ _ h 1
  beatErrors := fun _ h => tally_of_ne _ _ h
  chipErrorsPerRead := fun _ h => tally_of_ne _ _ h
  chipErrorsPerBeat := fun _ h => tally_of_ne _ _ h
  chipsWithErrorsPerBeat := fun _ h => tally_of_ne _ _ h

end AddsAt

/-! ## One payload -/

section Account
variable {cfg : Config} {key : Int} {runBaseline : Bool} {st st' : State} {errors : Option (List RowError)}

/-- Nothing found, histograms of all errors, flips of a baseline run, or flips beyond those of the baseline. -/
theorem account_cases (h : account cfg key runBaseline st errors = .ok st') :
    (errors.getD [] = [] ∧ st' = st) ∨
    (cfg.baseline = false ∧ ∃ stats, gatherFullStats cfg key (errors.getD []) st.stats = .ok stats ∧
      st' = { st with stats := { stats with rowErrors := increase stats.rowErrors key 1 } }) ∨
    (cfg.baseline = true ∧ runBaseline = true ∧
      st' = { st with baselineFlips := st.baselineFlips + flips (errors.getD []) }) ∨
    (cfg.baseline = true ∧ runBaseline = false ∧
      st' = { st with stats := addFlips st.stats key (flips (errors.getD []) - st.baselineFlips) }) := by
  cases errors with
  | none => exact .inl ⟨rfl, (Except.ok.inj h).symm⟩
  | some l =>
    unfold account at h
    dsimp only at h
    split at h
    · cases hcfg : cfg.baseline with
      | false =>
        simp only [hcfg, Bool.not_false, if_true] at h
        obtain ⟨stats, hstats, hst⟩ := bind_eq_ok.mp h
        exact .inr (.inl ⟨rfl, stats, hstats, pure_eq_ok.mp hst⟩)
      | true =>
        cases runBaseline with
        | true =>
          simp only [hcfg, Bool.not_true, Bool.false_eq_true, if_false, if_true] at h
          exact .inr (.inr (.inl ⟨rfl, rfl, (Except.ok.inj h).symm⟩))
        | false =>
          simp only [hcfg, Bool.not_true, Bool.false_eq_true, if_false] at h
          exact .inr (.inr (.inr ⟨rfl, rfl, (Except.ok.inj h).symm⟩))
    · next hlen =>
      exact .inl ⟨List.eq_nil_of_length_eq_zero (Nat.le_zero.mp (not_lt.mp hlen)), (Except.ok.inj h).symm⟩

/-- The next run is not chosen here. -/
theorem account_frame (h : account cfg key runBaseline st errors = .ok st') :
    st'.iteration = st.iteration ∧ st'.runBaseline = st.runBaseline := by
  obtain ⟨-, rfl⟩ | ⟨-, _, -, rfl⟩ | ⟨-, -, rfl⟩ | ⟨-, -, rfl⟩ := account_cases h
  · exact ⟨rfl, rfl⟩
  · exact ⟨rfl, rfl⟩
  · exact ⟨rfl, rfl⟩
  · exact ⟨rfl, rfl⟩

theorem account_plain (hcfg : cfg.baseline = false) (h : account cfg key runBaseline st errors = .ok st') :
    AddsAt key st.stats st'.stats (flips (errors.getD [])) := by
  obtain ⟨hnil, rfl⟩ | ⟨-, stats, hstats, rfl⟩ | ⟨htrue, -⟩ | ⟨htrue, -⟩ := account_cases h
  · rw [hnil]
    exact AddsAt.refl key _
  · obtain ⟨-, hcount, rfl⟩ := (gatherFullStats_eq_ok cfg key _ _ _).mp hstats
    rw [← bits_errorsFound hcount]
    exact AddsAt.add key _ _
  · exact absurd (hcfg.symm.trans htrue) (by decide)
  · exact absurd (hcfg.symm.trans htrue) (by decide)

theorem account_baselineRun (hcfg : cfg.baseline = true) (h : account cfg key true st errors = .ok st') :
    st'.stats = st.stats ∧ st'.baselineFlips = st.baselineFlips + flips (errors.getD []) := by
  obtain ⟨hnil, rfl⟩ | ⟨hfalse, -⟩ | ⟨-, -, rfl⟩ | ⟨-, hfalse, -⟩ := account_cases h
  · rw [hnil]
    exact ⟨rfl, rfl⟩
  · exact absurd (hcfg.symm.trans hfalse) (by decide)
  · exact ⟨rfl, rfl⟩
  · exact absurd hfalse (by decide)

theorem account_run (hcfg : cfg.baseline = true) (h : account cfg key false st errors = .ok st') :
    AddsAt key st.stats st'.stats (flips (errors.getD []) - st.baselineFlips) := by
  obtain ⟨hnil, rfl⟩ | ⟨hfalse, -⟩ | ⟨-, hfalse, -⟩ | ⟨-, -, rfl⟩ := account_cases h
  · rw [hnil, flips, List.map_nil, List.sum_nil, Nat.zero_sub]
    exact AddsAt.refl key _
  · exact absurd (hcfg.symm.trans hfalse) (by decide)
  · exact absurd hfalse (by decide)
  · exact AddsAt.addFlips key _ _

end Account

section ProcessErrors
variable {cfg : Config} {st st' : State} {rowErrors : RowErrors}

/-- The errors of the victim are accounted for under the key of the iteration. -/
theorem processErrors_ok (h : processErrors cfg st rowErrors = .ok st') :
    ∃ key errors, stepOf cfg st = .ok key ∧ flips (errors.getD []) = victimFlips cfg st rowErrors ∧
      account cfg key st.runBaseline (nextRun cfg st) errors = .ok st' := by
  unfold processErrors at h
  obtain ⟨key, hkey, h⟩ := bind_eq_ok.mp h
  obtain ⟨⟨logical, rowNum⟩, hrow, h⟩ := bind_eq_ok.mp h
  refine ⟨key, errorsOf rowErrors rowNum, hkey, ?_, h⟩
  unfold victimFlips
  rw [hrow]

/-- The key and the number of hammers. -/
theorem stepOf_ok {key : Int} (h : stepOf cfg st = .ok key) {timings : Timings} {bankbits bank size : Nat}
    {r : RowListRequest} (hr : payloadRequest cfg st timings bankbits bank size = .ok r) :
    ∃ step, Py.mod st.iteration cfg.itersPerRow = .ok step ∧ key = (step + 1) * cfg.readCountStep ∧
      r.readCount = cfg.initialReadCount + cfg.readCountStep * step := by
  unfold stepOf at h
  obtain ⟨step, hstep, hkey⟩ := bind_eq_ok.mp h
  unfold payloadRequest at hr
  obtain ⟨row, -, hr⟩ := bind_eq_ok.mp hr
  obtain ⟨step', hstep', hr⟩ := bind_eq_ok.mp hr
  have heq : step' = step := Except.ok.inj (hstep'.symm.trans hstep)
  rw [pure_eq_ok.mp hr, heq]
  exact ⟨step, hstep, pure_eq_ok.mp hkey, rfl⟩

theorem nextRun_plain (hcfg : cfg.baseline = false) (hrun : st.runBaseline = false) :
    nextRun cfg st = { st with iteration := st.iteration + 1 } := by
  unfold nextRun
  simp [hcfg, hrun]

theorem nextRun_baselineRun (hcfg : cfg.baseline = true) (hrun : st.runBaseline = true) :
    nextRun cfg st = { st with baselineFlips := 0, runBaseline := false } := by
  unfold nextRun
  simp [hcfg, hrun]

theorem nextRun_run (hcfg : cfg.baseline = true) (hrun : st.runBaseline = false) :
    nextRun cfg st = { st with iteration := st.iteration + 1, runBaseline := true } := by
  unfold nextRun
  simp [hcfg, hrun]

end ProcessErrors

/-! ## Whole runs -/

section Whole
variable {cfg : Config} {errs : Nat → RowErrors}

theorem stateAfter_succ {t : Nat} {st' : State} (h : stateAfter cfg errs (t + 1) = .ok st') :
    ∃ st, stateAfter cfg errs t = .ok st ∧ processErrors cfg st (errs t) = .ok st' := bind_eq_ok.mp h

/-- Without a baseline there are no baseline runs. -/
theorem runBaseline_eq_false (hcfg : cfg.baseline = false) {t : Nat} :
    ∀ {st : State}, stateAfter cfg errs t = .ok st → st.runBaseline = false := by
  induction t with
  | zero =>
    intro st h
    rw [← Except.ok.inj h]
    exact hcfg
  | succ t ih =>
    intro st' h
    obtain ⟨st, hst, hstep⟩ := stateAfter_succ h
    obtain ⟨key, errors, -, -, hacc⟩ := processErrors_ok hstep
    have hrun := ih hst
    rw [(account_frame hacc).2, nextRun_plain hcfg hrun]
    exact hrun

/-- Before a run that is no baseline run, there has been a baseline run of the same iteration. -/
theorem baseline_before (hcfg : cfg.baseline = true) {t : Nat} {st : State} (h : stateAfter cfg errs t = .ok st)
    (hrun : st.runBaseline = false) :
    ∃ u stb, t = u + 1 ∧ stateAfter cfg errs u = .ok stb ∧ stb.runBaseline = true ∧
      stb.iteration = st.iteration ∧ st.baselineFlips = victimFlips cfg stb (errs u) := by
  cases t with
  | zero =>
    rw [← Except.ok.inj h] at hrun
    exact absurd (hrun.symm.trans hcfg) (by decide)
  | succ u =>
    obtain ⟨stb, hstb, hstep⟩ := stateAfter_succ h
    obtain ⟨key, errors, -, hflips, hacc⟩ := processErrors_ok hstep
    obtain ⟨hiter, hnext⟩ := account_frame hacc
    cases hb : stb.runBaseline with
    | false =>
      rw [nextRun_run hcfg hb, hrun] at hnext
      cases hnext
    | true =>
      rw [nextRun_baselineRun hcfg hb] at hiter hacc
      rw [hb] at hacc
      refine ⟨u, stb, rfl, hstb, hb, hiter.symm, ?_⟩
      rw [(account_baselineRun hcfg hacc).2, Nat.zero_add, hflips]

theorem getRowForIter_congr {st st' : State} (h : st.iteration = st'.iteration) (rowIdx : Nat) :
    getRowForIter cfg st rowIdx = getRowForIter cfg st' rowIdx := by
  unfold getRowForIter
  rw [h]

/-- A baseline run of an iteration has as many hammers as the run. -/
theorem payloadRequest_baselineRun (hcfg : cfg.baseline = true) {st stb : State} (hb : stb.runBaseline = true)
    (hiter : stb.iteration = st.iteration) {step : Int} (hstep : Py.mod st.iteration cfg.itersPerRow = .ok step)
    (timings : Timings) (bankbits bank size : Nat) :
    ∃ r, payloadRequest cfg stb timings bankbits bank size = .ok r ∧
      r.readCount = cfg.initialReadCount + cfg.readCountStep * step := by
  obtain ⟨row, hrow⟩ := Option.isSome_iff_exists.mp hcfg
  unfold payloadRequest hammeredRow
  rw [hb, hrow, hiter, hstep]
  exact ⟨_, rfl, rfl⟩

/-- With the number of hammers of the key, every run is accounted for. -/
theorem accounted_of_eq (heq : cfg.initialReadCount = cfg.readCountStep) : Accounted cfg := by
  intro errs t st st' timings bankbits bank size r hst hr hok
  obtain ⟨key, errors, hkey, hflips, hacc⟩ := processErrors_ok hok
  obtain ⟨step, hstep, hkeyEq, hcount⟩ := stepOf_ok hkey hr
  have hsame : key = r.readCount := by
    rw [hkeyEq, hcount, heq]
    ring
  rw [hsame] at hacc
  unfold AccountedAt
  cases hcfg : cfg.baseline with
  | false =>
    rw [if_pos rfl, ← hflips]
    rw [nextRun_plain hcfg (runBaseline_eq_false hcfg hst)] at hacc
    have hadds := account_plain hcfg hacc
    exact hadds
  | true =>
    rw [if_neg (by decide)]
    cases hrun : st.runBaseline with
    | true =>
      rw [if_pos rfl]
      rw [hrun, nextRun_baselineRun hcfg hrun] at hacc
      exact (account_baselineRun hcfg hacc).1
    | false =>
      rw [if_neg (by decide)]
      obtain ⟨u, stb, ht, hstb, hb, hiter, hbase⟩ := baseline_before hcfg hst hrun
      have hrequest : ∀ timings bankbits bank size, ∃ r', payloadRequest cfg stb timings bankbits bank size = .ok r' ∧
          r'.readCount = r.readCount := by
        intro timings bankbits bank size
        rw [hcount]
        exact payloadRequest_baselineRun hcfg hb hiter hstep timings bankbits bank size
      rw [hrun, nextRun_run hcfg hrun] at hacc
      refine ⟨victimFlips cfg stb (errs u), ⟨u, stb, ht, hstb, hb, getRowForIter_congr hiter _, hrequest, rfl⟩, ?_⟩
      rw [← hflips, ← hbase]
      have hadds := account_run hcfg hacc
      exact hadds

end Whole

/-! ## Other hammer counts -/

/-- A configuration with which errors of a victim are accounted for at all. -/
structure Usable (cfg : Config) : Prop where
  iters : cfg.itersPerRow ≠ 0
  rows : cfg.distance < cfg.nrRows
  chips : cfg.baseline = false → cfg.nrChips ≠ 0

def oneFlip : List RowError := [⟨0, 1, 0⟩]

theorem countable_oneFlip : ∀ e ∈ oneFlip, Countable (e.value ^^^ e.expected) := by
  intro e he
  rw [List.mem_singleton.mp he]
  refine ⟨bitLength_le_iff.mp (by decide), fun beat hbeat => ?_⟩
  revert beat
  decide +kernel

theorem getRowForIter_eq_mod {cfg : Config} (hu : Usable cfg) (st : State) :
    getRowForIter cfg st cfg.distance =
      .ok (((victimGroup cfg st + cfg.distance) % (cfg.nrRows - cfg.distance) : Nat),
        (cfg.rowMapping.logicalToPhysical ((victimGroup cfg st + cfg.distance) % (cfg.nrRows - cfg.distance)) : Nat)) :=
  getRowForIter_mod hu.iters (by omega) hu.rows

section First
variable {cfg : Config} (hu : Usable cfg) {st : State} (hiter : st.iteration = 0)
include hu hiter

theorem mod_first : Py.mod st.iteration cfg.itersPerRow = .ok 0 := by
  rw [hiter]
  exact Py.mod_eq_ok.mpr ⟨Int.natCast_ne_zero.mpr hu.iters, (Int.zero_fmod _).symm⟩

theorem stepOf_first : stepOf cfg st = .ok cfg.readCountStep := by
  unfold stepOf
  rw [mod_first hu hiter, ok_bind, Int.zero_add, Int.one_mul]
  rfl

variable (hrun : st.runBaseline = false)
include hrun

theorem payloadRequest_first (timings : Timings) (bankbits bank size : Nat) :
    ∃ r, payloadRequest cfg st timings bankbits bank size = .ok r ∧ r.readCount = cfg.initialReadCount := by
  have hpos : 0 < cfg.nrRows := Nat.lt_of_le_of_lt (Nat.zero_le _) hu.rows
  unfold payloadRequest hammeredRow
  rw [hrun, Bool.not_false, if_pos rfl, getRowForIter_mod hu.iters (Nat.zero_le _) hpos, ok_bind, mod_first hu hiter]
  exact ⟨_, rfl, by rw [Int.mul_zero, Int.add_zero]⟩

/-- A flip in the victim of the first run is added under `read_count_step`. -/
theorem processErrors_first (hbase : cfg.baseline = true → st.baselineFlips = 0) :
    ∃ rowErrors st', processErrors cfg st rowErrors = .ok st' ∧
      st'.stats.bitErrors cfg.readCountStep = st.stats.bitErrors cfg.readCountStep + 1 := by
  have hrow := getRowForIter_eq_mod hu st
  generalize cfg.rowMapping.logicalToPhysical ((victimGroup cfg st + cfg.distance) % (cfg.nrRows - cfg.distance)) =
    row at hrow
  have herrors : errorsOf [(row, oneFlip)] row = some oneFlip := by
    unfold errorsOf
    rw [if_pos (Int.natCast_nonneg row), Int.toNat_natCast, List.lookup_cons_self]
  refine ⟨[(row, oneFlip)], ?_⟩
  unfold processErrors
  rw [stepOf_first hu hiter, ok_bind, hrow, ok_bind]
  dsimp only
  rw [herrors, hrun]
  cases hcfg : cfg.baseline with
  | false =>
    have hgather := (gatherFullStats_eq_ok cfg cfg.readCountStep oneFlip st.stats _).mpr
      ⟨hu.chips hcfg, countable_oneFlip, rfl⟩
    have hbits : (errorsFound cfg.nrChips (64 / cfg.nrChips) oneFlip).bits = 1 := bits_errorsFound countable_oneFlip
    rw [nextRun_plain hcfg hrun]
    unfold account
    dsimp only
    rw [if_pos (by decide), hcfg, Bool.not_false, if_pos rfl, hgather]
    exact ⟨_, rfl, by rw [← hbits]; exact Function.update_self _ _ _⟩
  | true =>
    rw [nextRun_run hcfg hrun]
    unfold account
    dsimp only
    rw [if_pos (by decide), hcfg, Bool.not_true, if_neg (by decide), if_neg (by decide), hbase hcfg]
    exact ⟨_, rfl, Function.update_self _ _ _⟩

end First

/-! ## The configurations -/

section Configurations
variable {cfg : Config}

/-- The first run that is no baseline run, after errors that do not touch the baseline. -/
theorem exists_firstRun (hu : Usable cfg) :
    ∃ t st, (∀ errs, (∀ u < t, errs u = []) → stateAfter cfg errs t = .ok st) ∧
      st.iteration = 0 ∧ st.runBaseline = false ∧ (cfg.baseline = true → st.baselineFlips = 0) := by
  cases hcfg : cfg.baseline with
  | false => exact ⟨0, initialState cfg, fun _ _ => rfl, rfl, hcfg, fun h => absurd h (by decide)⟩
  | true =>
    have hrow := getRowForIter_eq_mod hu (initialState cfg)
    have hstep : stepOf cfg (initialState cfg) = .ok cfg.readCountStep := stepOf_first hu rfl
    refine ⟨1, { initialState cfg with baselineFlips := 0, runBaseline := false }, fun errs hnil => ?_, rfl, rfl,
      fun _ => rfl⟩
    have hnone : ∀ row : Int, errorsOf [] row = none := fun row => ite_self none
    unfold stateAfter stateAfter
    rw [ok_bind, hnil 0 (by decide), processErrors, hstep, ok_bind, hrow, ok_bind]
    dsimp only
    rw [hnone, nextRun_baselineRun hcfg hcfg]
    rfl

/-- Whatever is added is added under the hammer count of the payload. -/
theorem AccountedAt.adds {errs : Nat → RowErrors} {t : Nat} {st st' : State} {readCount : Int}
    (h : AccountedAt cfg errs t st st' readCount) (hrun : st.runBaseline = false) :
    ∃ n, AddsAt readCount st.stats st'.stats n := by
  unfold AccountedAt at h
  split at h
  · exact ⟨_, h⟩
  · rw [hrun, if_neg (by decide)] at h
    obtain ⟨n, -, hadds⟩ := h
    exact ⟨_, hadds⟩

/-- **Hammer counts.** With the default, the first hammer count being the step, all errors in all runs are accounted for
under the hammer count of their payload and without those of the baseline run before it. With every other first hammer
count they are not, in the first run of any configuration that gets so far. -/
theorem accounted_iff (cfg : Config) : (cfg.initialReadCount = cfg.readCountStep → Accounted cfg) ∧
    (Usable cfg → (Accounted cfg ↔ cfg.initialReadCount = cfg.readCountStep)) := by
  refine ⟨accounted_of_eq, fun hu => ⟨fun h => ?_, accounted_of_eq⟩⟩
  obtain ⟨t, st, hst, hiter, hrun, hbase⟩ := exists_firstRun hu
  obtain ⟨rowErrors, st', hok, hadded⟩ := processErrors_first hu hiter hrun hbase
  obtain ⟨r, hr, hcount⟩ := payloadRequest_first hu hiter hrun ⟨0, 0, 0, 0⟩ 0 0 0
  have herrs : ∀ u < t, Function.update (fun _ => []) t rowErrors u = [] :=
    fun u hlt => Function.update_of_ne (by omega) _ _
  have hok' : processErrors cfg st (Function.update (fun _ => []) t rowErrors t) = .ok st' := by
    rw [Function.update_self]
    exact hok
  obtain ⟨n, hadds⟩ := (h _ t st st' _ 0 0 0 r (hst _ herrs) hr hok').adds hrun
  by_contra hne
  rw [hcount] at hadds
  rw [hadds.bitErrors, increase_apply_of_ne _ _ (Ne.symm hne)] at hadded
  omega

/-- The minimal example leaves out the first hammer count. -/
theorem accounted_minimal : minimalConfig.initialReadCount = minimalConfig.readCountStep ∧ Usable minimalConfig ∧
    Accounted minimalConfig :=
  ⟨rfl, ⟨by decide, by decide, fun _ => by decide⟩, (accounted_iff minimalConfig).1 rfl⟩

/-- The example with distance two hammers 2000000 times first, and 500000 times more from payload to payload. -/
def distance2Config : Config :=
  { rowMapping := .TypeARowMapping, nrRows := 36, readCountStep := 500000, itersPerRow := 6, maxIteration := 192,
    nrChips := 4, fillLocal := true, initialReadCount := 2000000, distance := 2, firstDummyRow := some 38 }

/-- No errors in the baseline run, and then one flip in the first victim. -/
def flipAfterBaseline : Nat → RowErrors := fun t => if t = 1 then [(2, oneFlip)] else []

/-- A flip after 2000000 hammers is a flip after 500000 in the histograms. -/
theorem first_hammers_counted_as_step :
    ∃ st st' r, stateAfter distance2Config flipAfterBaseline 1 = .ok st ∧
      payloadRequest distance2Config st ⟨5, 3, 40, 10⟩ 3 0 1024 = .ok r ∧ r.readCount = 2000000 ∧
      processErrors distance2Config st (flipAfterBaseline 1) = .ok st' ∧
      st'.stats.bitErrors 500000 = 1 ∧ st'.stats.bitErrors 2000000 = 0 ∧ ¬ Accounted distance2Config := by
  refine ⟨_, _, _, rfl, rfl, rfl, rfl, rfl, rfl, fun h => ?_⟩
  obtain ⟨n, hadds⟩ := (h flipAfterBaseline 1 _ _ ⟨5, 3, 40, 10⟩ 3 0 1024 _ rfl rfl rfl).adds rfl
  have hkey := congrFun hadds.bitErrors 500000
  rw [increase_apply_of_ne _ _ (by decide)] at hkey
  exact absurd hkey (by decide)

end Configurations

end RowhammerTester.Playbook.HammerTolerance
