import RowhammerTester.Scripts.ReadLevel.FindBest

/-!
# Read leveling

`read_level` tries every bitslip and delay of a module on the PHY and leaves the module at the best ones.

* `Phy` : the bitslips and delays of all modules; what the PHY makes of an increment is a parameter (`Counts`), and so
  are the errors that `read_level_test` counts for a module at a bitslip and a delay (`eye`);
* `readBitslipSet`, `readDelaySet`, `measureDelays`, `measure`, `readLevelModule`, `readLevel`, `readLevelHardcoded` :
  the script;
* `measure_eq` : every setting is measured at that setting; `readLevelModule_spec` : one module, the others being left
  alone;
* `readLevel_levels` : the whole procedure, and that `read_level_hardcoded` repeats its result.
-/

namespace RowhammerTester.Scripts.ReadLevel
open RowhammerTester.Runs

/-! ## The PHY -/

/-- `ddrphy_dly_sel`, and the bitslip and the read delay of each module. -/
structure Phy where
  selected : Nat
  bitslip : Nat → Nat
  delay : Nat → Nat

/-- A change of the selected modules. -/
def onSelected (selected : Nat) (f : Nat → Nat) (values : Nat → Nat) : Nat → Nat := fun m =>
  if selected.testBit m then f (values m) else values m

def delaySelectModules (modules : List Nat) (s : Phy) : Py Phy :=
  match modules with
  | [] => .error .typeError
  | m :: modules => return { s with selected := modules.foldl (fun sel m => sel ||| 1 <<< m) (1 <<< m) }

section Script
-- an increment of a bitslip and of a delay
variable (nextBitslip nextDelay : Nat → Nat)

def readBitslipRst (s : Phy) : Phy := { s with bitslip := onSelected s.selected (fun _ => 0) s.bitslip }

def readBitslipInc (s : Phy) : Phy := { s with bitslip := onSelected s.selected nextBitslip s.bitslip }

def readBitslipSet (s : Phy) (value : Nat) : Phy :=
  (List.range value).foldl (fun s _ => readBitslipInc nextBitslip s) (readBitslipRst s)

def readDelayRst (s : Phy) : Phy := { s with delay := onSelected s.selected (fun _ => 0) s.delay }

def readDelayInc (s : Phy) : Phy := { s with delay := onSelected s.selected nextDelay s.delay }

def readDelaySet (s : Phy) (value : Nat) : Phy :=
  (List.range value).foldl (fun s _ => readDelayInc nextDelay s) (readDelayRst s)

variable (eye : Nat → Nat → Nat → Nat)

/-- The loop over the delays. -/
def measureDelays (module delays delaysStep bs : Nat) (s : Phy) (scores : Scores) : Phy × Scores :=
  (List.range delays).foldl (fun (s, scores) dly =>
    let scores :=
      if dly % delaysStep = 0 then
        Dictionary.set scores bs
          (Dictionary.set (Dictionary.get scores bs) dly (eye module (s.bitslip module) (s.delay module)))
      else scores
    (readDelayInc nextDelay s, scores)) (readDelayRst s, scores)

/-- The loop over the bitslips. -/
def measure (module bitslips delays delaysStep : Nat) (s : Phy) : Phy × Scores :=
  (List.range bitslips).foldl (fun (s, scores) bs =>
    let (s, scores) := measureDelays nextDelay eye module delays delaysStep bs s scores
    (readBitslipInc nextBitslip s, scores)) (readBitslipRst s, [])

def readLevelModule (module bitslips delays delaysStep : Nat) (s : Phy) : Py Phy := do
  let (s, scores) := measure nextBitslip nextDelay eye module bitslips delays delaysStep s
  match ← readLevelFindBest scores with
  | none => return s
  | some (bestBs, bestDly, _) => return readDelaySet nextDelay (readBitslipSet nextBitslip s bestBs) bestDly

/-- `read_level`, by a step of one. -/
def readLevel (nmodules bitslips delays : Nat) (s : Phy) : Py Phy :=
  (List.range nmodules).foldlM (fun s module => do
    let s ← delaySelectModules [module] s
    readLevelModule nextBitslip nextDelay eye module bitslips delays 1 s) s

def readLevelHardcoded (config : List (Nat × Nat)) (s : Phy) : Py Phy :=
  config.zipIdx.foldlM (fun s ((bitslip, delay), module) => do
    let s ← delaySelectModules [module] s
    return readDelaySet nextDelay (readBitslipSet nextBitslip s bitslip) delay) s

end Script

/-! ## Counting up -/

/-- The first `n` values are counted one after the other; what comes then is not said. -/
def Counts (next : Nat → Nat) (n : Nat) : Prop := ∀ k, k + 1 < n → next k = k + 1

theorem Counts.iterate {next : Nat → Nat} {n : Nat} (h : Counts next n) {k : Nat} (hk : k < n) : next^[k] 0 = k := by
  induction k with
  | zero => rfl
  | succ k ih => rw [Function.iterate_succ_apply', ih (by omega), h k hk]

theorem Counts.of_succ {next : Nat → Nat} {n : Nat} (h : Counts next (n + 1)) : Counts next n :=
  fun k hk => h k (Nat.lt_succ_of_lt hk)

theorem onSelected_onSelected (selected : Nat) (f g : Nat → Nat) (values : Nat → Nat) :
    onSelected selected g (onSelected selected f values) = onSelected selected (g ∘ f) values := by
  funext m
  unfold onSelected
  split <;> rfl

theorem onSelected_id (selected : Nat) (values : Nat → Nat) : onSelected selected id values = values := by
  funext m
  unfold onSelected
  split <;> rfl

section Set
variable (next : Nat → Nat) (s : Phy) (value : Nat)

theorem readBitslipSet_eq : readBitslipSet next s value =
    { s with bitslip := onSelected s.selected (fun _ => next^[value] 0) s.bitslip } := by
  unfold readBitslipSet
  induction value with
  | zero => rfl
  | succ value ih =>
    rw [List.range_succ, List.foldl_append, ih, List.foldl_cons, List.foldl_nil, readBitslipInc, onSelected_onSelected]
    simp only [Function.iterate_succ_apply']
    rfl

theorem readDelaySet_eq : readDelaySet next s value =
    { s with delay := onSelected s.selected (fun _ => next^[value] 0) s.delay } := by
  unfold readDelaySet
  induction value with
  | zero => rfl
  | succ value ih =>
    rw [List.range_succ, List.foldl_append, ih, List.foldl_cons, List.foldl_nil, readDelayInc, onSelected_onSelected]
    simp only [Function.iterate_succ_apply']
    rfl

end Set

/-! ## The measurement -/

section Measure
variable {nextBitslip nextDelay : Nat → Nat} (eye : Nat → Nat → Nat → Nat) {module bitslips delays : Nat}
  (delaysStep : Nat) {s : Phy}

/-- Every delay is measured at that delay. -/
theorem measureDelays_eq (hd : Counts nextDelay delays) (hsel : s.selected.testBit module = true) {bs : Nat}
    (hbs : s.bitslip module = bs) (scores : Scores) :
    measureDelays nextDelay eye module delays delaysStep bs s scores =
      ({ s with delay := onSelected s.selected (fun _ => nextDelay^[delays] 0) s.delay },
        levelDelays delays delaysStep (eye module) scores bs) := by
  induction delays with
  | zero => rfl
  | succ delays ih =>
    have hat : onSelected s.selected (fun _ => nextDelay^[delays] 0) s.delay module = delays := by
      rw [onSelected, if_pos hsel, hd.iterate delays.lt_succ_self]
    have ih := ih hd.of_succ
    unfold measureDelays levelDelays at ih ⊢
    rw [List.range_succ, List.foldl_append, List.foldl_append, ih, List.foldl_cons, List.foldl_nil, List.foldl_cons,
      List.foldl_nil]
    dsimp only
    rw [hat, hbs, readDelayInc, onSelected_onSelected]
    simp only [Function.iterate_succ_apply']
    rfl

/-- Every bitslip and delay is measured at that bitslip and delay. -/
theorem measure_eq (hb : Counts nextBitslip bitslips) (hd : Counts nextDelay delays)
    (hsel : s.selected.testBit module = true) : ∃ g,
    measure nextBitslip nextDelay eye module bitslips delays delaysStep s =
      (⟨s.selected, onSelected s.selected (fun _ => nextBitslip^[bitslips] 0) s.bitslip, onSelected s.selected g s.delay⟩,
        levelScores bitslips delays delaysStep (eye module)) := by
  induction bitslips with
  | zero =>
    use id
    rw [onSelected_id]
    rfl
  | succ bitslips ih =>
    obtain ⟨g, ih⟩ := ih hb.of_succ
    have hat : onSelected s.selected (fun _ => nextBitslip^[bitslips] 0) s.bitslip module = bitslips := by
      rw [onSelected, if_pos hsel, hb.iterate bitslips.lt_succ_self]
    have hdelays := measureDelays_eq eye delaysStep (s := ⟨s.selected,
      onSelected s.selected (fun _ => nextBitslip^[bitslips] 0) s.bitslip, onSelected s.selected g s.delay⟩) hd hsel hat
      (levelScores bitslips delays delaysStep (eye module))
    use (fun _ => nextDelay^[delays] 0) ∘ g
    unfold measure levelScores at ih ⊢
    rw [List.range_succ, List.foldl_append, List.foldl_append, ih, List.foldl_cons, List.foldl_nil, List.foldl_cons,
      List.foldl_nil]
    dsimp only
    rw [← levelScores, hdelays, readBitslipInc, onSelected_onSelected, onSelected_onSelected]
    simp only [Function.iterate_succ_apply']
    rfl

end Measure

/-! ## One module -/

/-- The middle of a run of delays without errors; a run that lasts to the last delay counts one less, and none counts
more. -/
structure Chosen (bitslips delays : Nat) (errors : Nat → Nat → Nat) (bs dly : Nat) : Prop where
  lt : bs < bitslips
  run : ∃ a b, IsRun (Clean (errors bs)) delays a b ∧ dly = (a + min b (delays - 1)) / 2 ∧
    ∀ bs' < bitslips, ∀ a' b', IsRun (Clean (errors bs')) delays a' b' →
      min b' (delays - 1) - a' ≤ min b (delays - 1) - a

section Chosen
variable {bitslips delays : Nat} {errors : Nat → Nat → Nat} {bs dly : Nat}

theorem Chosen.mem_run (h : Chosen bitslips delays errors bs dly) :
    ∃ a b, IsRun (Clean (errors bs)) delays a b ∧ a ≤ dly ∧ dly < b := by
  obtain ⟨a, b, hrun, rfl, -⟩ := h.run
  have hab := hrun.lt
  have hle := hrun.le
  exact ⟨a, b, hrun, by omega, by omega⟩

theorem Chosen.delay_lt (h : Chosen bitslips delays errors bs dly) : dly < delays := by
  obtain ⟨a, b, hrun, -, hlt⟩ := h.mem_run
  exact lt_of_lt_of_le hlt hrun.le

/-- The module is left at a setting without errors. -/
theorem Chosen.clean (h : Chosen bitslips delays errors bs dly) : errors bs dly = 0 := by
  obtain ⟨a, b, hrun, hle, hlt⟩ := h.mem_run
  exact hrun.holds dly hlt hle

/-- A setting is found if there is one without errors. -/
theorem chosen_of_findBest (delays : Nat) (errors : Nat → Nat → Nat) (hb : 0 < bitslips) : ∃ r,
    readLevelFindBest (scoreTable delays (List.range bitslips) errors) = .ok r ∧
      (∀ bs dly length, r = some (bs, dly, length) → Chosen bitslips delays errors bs dly) ∧
      (r = none → ∀ bs < bitslips, ∀ dly < delays, errors bs dly ≠ 0) := by
  have hnodup : (List.range bitslips).Nodup := List.nodup_range
  cases hbs : Py.maxBy (cmpBsWindows (bsWindows (scoreTable delays (List.range bitslips) errors)))
    (List.range bitslips) with
  | none =>
    rw [Py.maxBy_eq_none, List.range_eq_nil] at hbs
    omega
  | some bs =>
    refine ⟨_, readLevelFindBest_eq hnodup hbs, ?_, ?_⟩
    · intro bs' dly length hr
      obtain ⟨w, hw, heq⟩ := Option.map_eq_some_iff.mp hr
      obtain ⟨b, hchosen⟩ := chosenBitslip_of_maxBy hnodup hbs hw
      cases heq
      refine ⟨List.mem_range.mp hchosen.mem, w.1, b, hchosen.window.run, ?_, ?_⟩
      · rw [hchosen.window.snd_eq]
      · intro bs' hbs' a' b' hrun
        rw [← hchosen.window.snd_eq]
        exact hchosen.longest bs' (List.mem_range.mpr hbs') a' b' hrun
    · intro hr bs' hbs'
      exact errors_of_none hnodup hbs (Option.map_eq_none_iff.mp hr) bs' (List.mem_range.mpr hbs')

end Chosen

/-- The settings of a module. -/
def Phy.at (s : Phy) (module : Nat) : Nat × Nat := (s.bitslip module, s.delay module)

theorem at_of_not_selected {selected m : Nat} (hm : selected.testBit m = false) {f g bitslip delay : Nat → Nat} :
    Phy.at ⟨selected, onSelected selected f bitslip, onSelected selected g delay⟩ m = (bitslip m, delay m) := by
  unfold Phy.at onSelected
  simp [hm]

theorem delaySelectModules_singleton (module : Nat) (s : Phy) :
    delaySelectModules [module] s = .ok { s with selected := 1 <<< module } := rfl

theorem testBit_one_shiftLeft (module m : Nat) : (1 <<< module).testBit m = decide (module = m) := by
  rw [Nat.one_shiftLeft, Nat.testBit_two_pow]

section Levels
variable {nextBitslip nextDelay : Nat → Nat} {bitslips delays : Nat}

/-- The selected module is brought to a setting that can be counted to. -/
theorem set_at (hb : Counts nextBitslip bitslips) (hd : Counts nextDelay delays) {bs dly : Nat} (hbs : bs < bitslips)
    (hdly : dly < delays) (s : Phy) (m : Nat) :
    (readDelaySet nextDelay (readBitslipSet nextBitslip s bs) dly).at m =
      if s.selected.testBit m then (bs, dly) else s.at m := by
  rw [readDelaySet_eq, readBitslipSet_eq, hb.iterate hbs, hd.iterate hdly]
  unfold Phy.at onSelected
  dsimp only
  split <;> rfl

variable (eye : Nat → Nat → Nat → Nat)

/-- **One module.** -/
theorem readLevelModule_spec (hb : Counts nextBitslip bitslips) (hd : Counts nextDelay delays) (hb₀ : 0 < bitslips)
    (hd₀ : 0 < delays) (module : Nat) (s : Phy) (hsel : s.selected.testBit module = true) :
    ∃ s', readLevelModule nextBitslip nextDelay eye module bitslips delays 1 s = .ok s' ∧
      (∀ m, s.selected.testBit m = false → s'.at m = s.at m) ∧
      ((∃ bs < bitslips, ∃ dly < delays, eye module bs dly = 0) →
        Chosen bitslips delays (eye module) (s'.at module).1 (s'.at module).2) := by
  obtain ⟨g, hmeasure⟩ := measure_eq eye 1 hb hd hsel
  obtain ⟨delays, rfl⟩ := Nat.exists_eq_succ_of_ne_zero (Nat.ne_of_gt hd₀)
  obtain ⟨r, hr, hsome, hnone⟩ := chosen_of_findBest (delays + 1) (eye module) hb₀
  unfold readLevelModule
  rw [hmeasure, levelScores_eq]
  dsimp only
  rw [hr, Py.ok_bind]
  cases r with
  | none =>
    refine ⟨_, rfl, ?_, ?_⟩
    · intro m hm
      exact at_of_not_selected hm
    · rintro ⟨bs, hbs, dly, hdly, hclean⟩
      exact absurd hclean (hnone rfl bs hbs dly hdly)
  | some r =>
    obtain ⟨bs, dly, length⟩ := r
    have hchosen := hsome bs dly length rfl
    refine ⟨_, rfl, ?_, fun _ => ?_⟩
    · intro m hm
      rw [set_at hb hd hchosen.lt hchosen.delay_lt, if_neg (Bool.eq_false_iff.mp hm)]
      exact at_of_not_selected hm
    · rw [set_at hb hd hchosen.lt hchosen.delay_lt, if_pos hsel]
      exact hchosen

end Levels

/-! ## All modules -/

section Procedure
variable {nextBitslip nextDelay : Nat → Nat} {bitslips delays : Nat}

theorem readLevel_spec (eye : Nat → Nat → Nat → Nat) (hb : Counts nextBitslip bitslips) (hd : Counts nextDelay delays)
    (hb₀ : 0 < bitslips)
    (hd₀ : 0 < delays) (nmodules : Nat) (s : Phy) :
    ∃ s', readLevel nextBitslip nextDelay eye nmodules bitslips delays s = .ok s' ∧
      (∀ m < nmodules, (∃ bs < bitslips, ∃ dly < delays, eye m bs dly = 0) →
        Chosen bitslips delays (eye m) (s'.at m).1 (s'.at m).2) ∧
      ∀ m, nmodules ≤ m → s'.at m = s.at m := by
  unfold readLevel
  induction nmodules with
  | zero => exact ⟨s, rfl, fun m hm => absurd hm m.not_lt_zero, fun m _ => rfl⟩
  | succ nmodules ih =>
    obtain ⟨s', hs', hchosen, hrest⟩ := ih
    have hsel := testBit_one_shiftLeft nmodules
    obtain ⟨s₁, hs₁, hothers, hmodule⟩ := readLevelModule_spec eye hb hd hb₀ hd₀ nmodules
      { s' with selected := 1 <<< nmodules } (by rw [hsel, decide_eq_true rfl])
    have hkept : ∀ m, m ≠ nmodules → s₁.at m = s'.at m := by
      intro m hm
      exact hothers m (by rw [hsel, decide_eq_false (Ne.symm hm)])
    refine ⟨s₁, ?_, ?_, ?_⟩
    · rw [List.range_succ, List.foldlM_append, hs', Py.ok_bind, List.foldlM_cons, delaySelectModules_singleton,
        Py.ok_bind, hs₁]
      rfl
    · intro m hm hclean
      rcases Nat.lt_succ_iff_lt_or_eq.mp hm with hlt | rfl
      · rw [hkept m (Nat.ne_of_lt hlt)]
        exact hchosen m hlt hclean
      · exact hmodule hclean
    · intro m hm
      rw [hkept m (Nat.ne_of_gt hm), hrest m (Nat.le_of_succ_le hm)]

/-- `read_level_hardcoded` brings every module to its setting. -/
theorem readLevelHardcoded_spec (hb : Counts nextBitslip bitslips) (hd : Counts nextDelay delays)
    (config : List (Nat × Nat)) (hconfig : ∀ c ∈ config, c.1 < bitslips ∧ c.2 < delays) (s : Phy) :
    ∃ s', readLevelHardcoded nextBitslip nextDelay config s = .ok s' ∧
      ∀ m, s'.at m = (config[m]?).getD (s.at m) := by
  unfold readLevelHardcoded
  induction config using List.reverseRecOn with
  | nil => exact ⟨s, rfl, fun m => rfl⟩
  | append_singleton config c ih =>
    obtain ⟨s', hs', hat⟩ := ih fun c hc => hconfig c (List.mem_append_left _ hc)
    obtain ⟨hbs, hdly⟩ := hconfig c (List.mem_append_right _ (List.mem_singleton_self c))
    refine ⟨readDelaySet nextDelay (readBitslipSet nextBitslip { s' with selected := 1 <<< config.length } c.1) c.2,
      ?_, ?_⟩
    · rw [List.zipIdx_append, List.foldlM_append, hs', Py.ok_bind, Nat.zero_add]
      rfl
    · intro m
      rw [set_at hb hd hbs hdly, testBit_one_shiftLeft]
      rcases lt_trichotomy m config.length with hlt | rfl | hgt
      · rw [decide_eq_false (Nat.ne_of_gt hlt), if_neg Bool.false_ne_true, List.getElem?_append_left hlt]
        exact hat m
      · rw [decide_eq_true rfl, if_pos rfl, List.getElem?_concat_length]
        rfl
      · rw [decide_eq_false (Nat.ne_of_lt hgt), if_neg Bool.false_ne_true, List.getElem?_eq_none]
        · have := hat m
          rwa [List.getElem?_eq_none (Nat.le_of_lt hgt)] at this
        · rw [List.length_append]
          exact hgt

end Procedure

/-- The settings of the modules, as `read_level_hardcoded` takes them. -/
def Phy.config (s : Phy) (nmodules : Nat) : List (Nat × Nat) := (List.range nmodules).map s.at

/-- **Read leveling.** Every module that has a setting without errors is left at one, in the middle of a run that counts
longest, and modules that are not leveled are left alone. If all have such a setting, the settings that are found,
hardcoded, bring any PHY to the same ones. -/
theorem readLevel_levels {nextBitslip nextDelay : Nat → Nat} {bitslips delays : Nat} (hb : Counts nextBitslip bitslips)
    (hd : Counts nextDelay delays) (hb₀ : 0 < bitslips) (hd₀ : 0 < delays) (eye : Nat → Nat → Nat → Nat)
    (nmodules : Nat) (s : Phy) :
    ∃ s', readLevel nextBitslip nextDelay eye nmodules bitslips delays s = .ok s' ∧
      (∀ m < nmodules, (∃ bs < bitslips, ∃ dly < delays, eye m bs dly = 0) →
        Chosen bitslips delays (eye m) (s'.at m).1 (s'.at m).2 ∧ eye m (s'.at m).1 (s'.at m).2 = 0) ∧
      (∀ m, nmodules ≤ m → s'.at m = s.at m) ∧
      ((∀ m < nmodules, ∃ bs < bitslips, ∃ dly < delays, eye m bs dly = 0) →
        ∀ s₀, ∃ s₁, readLevelHardcoded nextBitslip nextDelay (s'.config nmodules) s₀ = .ok s₁ ∧
          ∀ m < nmodules, s₁.at m = s'.at m) := by
  obtain ⟨s', hs', hchosen, hrest⟩ := readLevel_spec eye hb hd hb₀ hd₀ nmodules s
  refine ⟨s', hs', ?_, hrest, ?_⟩
  · intro m hm hclean
    exact ⟨hchosen m hm hclean, (hchosen m hm hclean).clean⟩
  · intro hclean s₀
    have hconfig : ∀ c ∈ s'.config nmodules, c.1 < bitslips ∧ c.2 < delays := by
      intro c hc
      obtain ⟨m, hm, rfl⟩ := List.mem_map.mp hc
      have hm := List.mem_range.mp hm
      have hchosen := hchosen m hm (hclean m hm)
      exact ⟨hchosen.lt, hchosen.delay_lt⟩
    obtain ⟨s₁, hs₁, hat⟩ := readLevelHardcoded_spec hb hd _ hconfig s₀
    refine ⟨s₁, hs₁, fun m hm => ?_⟩
    have hget : (s'.config nmodules)[m]? = some (s'.at m) := by
      rw [Phy.config, List.getElem?_map, List.getElem?_range hm]
      rfl
    rw [hat, hget]
    rfl

/-- Two modules of a PHY with two bitslips and four delays, which count around. -/
def sampleEye (m bs dly : Nat) : Nat := if bs = m ∧ 0 < dly then 0 else 1

theorem readLevel_levels_sampleEye :
    ∃ s', readLevel (fun b => (b + 1) % 2) (fun d => (d + 1) % 4) sampleEye 2 2 4 ⟨0, fun _ => 1, fun _ => 3⟩ = .ok s' ∧
      s'.config 2 = [(0, 2), (1, 2)] ∧ (∀ m < 2, sampleEye m (s'.at m).1 (s'.at m).2 = 0) ∧
      s'.at 2 = (1, 3) := by
  have hbitslips : Counts (fun b => (b + 1) % 2) 2 := fun k hk => Nat.mod_eq_of_lt hk
  have hdelays : Counts (fun d => (d + 1) % 4) 4 := fun k hk => Nat.mod_eq_of_lt hk
  obtain ⟨s', hs', hchosen, hrest, -⟩ := readLevel_levels hbitslips hdelays (by decide) (by decide) sampleEye 2
    ⟨0, fun _ => 1, fun _ => 3⟩
  refine ⟨s', hs', ?_, ?_, hrest 2 le_rfl⟩
  · have hrun : (readLevel (fun b => (b + 1) % 2) (fun d => (d + 1) % 4) sampleEye 2 2 4
        ⟨0, fun _ => 1, fun _ => 3⟩).toOption.map (Phy.config · 2) = some [(0, 2), (1, 2)] := by decide
    rw [hs'] at hrun
    exact Option.some.inj hrun
  · intro m hm
    exact (hchosen m hm ⟨m, hm, 1, by decide, by simp [sampleEye]⟩).2

end RowhammerTester.Scripts.ReadLevel
