import RowhammerTester.Dictionary
import RowhammerTester.Python
import RowhammerTester.Runs
import Mathlib.Data.List.Find

/-!
# The best window of read leveling

`read_level_module` counts the errors of every bitslip and delay; `read_level_find_best` looks for the longest window of
delays without errors.

* `findWindows`, `bestWindow`, `bsWindows`, `readLevelFindBest`, `levelScores` : the script;
* `scoreTable` : the scores of all delays; `levelScores_eq` : the loops of `read_level_module` make it;
* `Scanned` : the windows found so far are the runs that are closed; `ChosenWindow` : what is known of the window of a
  bitslip, in which a run that lasts to the last delay counts one less;
* `findBest_iff` : when the delay that is found is in a longest run.
-/

namespace RowhammerTester.Scripts.ReadLevel
open RowhammerTester.Runs

/-! ## The script -/

/-- `{bitslip: {delay: errors}}` -/
abbrev Scores := List (Nat × List (Nat × Nat))

/-- The variables of the search for windows; `windowStart` is not read before it is set. -/
structure Scan where
  windows : List (Nat × Nat)
  windowStart : Nat
  inWindow : Bool
  dly : Nat

def scanDelay (s : Scan) : Nat × Nat → Scan
  | (dly, errors) =>
    if errors = 0 ∧ s.inWindow = false then { s with windowStart := dly, inWindow := true, dly }
    else if s.inWindow = true ∧ errors ≠ 0 then
      { s with windows := s.windows ++ [(s.windowStart, dly)], inWindow := false, dly }
    else { s with dly }

def scan (dlyScores : List (Nat × Nat)) : Scan := dlyScores.foldl scanDelay ⟨[], 0, false, 0⟩

/-- The windows of a bitslip; the last one is closed at the last delay. -/
def findWindows (dlyScores : List (Nat × Nat)) : List (Nat × Nat) :=
  let s := scan dlyScores
  if s.inWindow then s.windows ++ [(s.windowStart, s.dly)] else s.windows

/-- The length by which windows are compared. -/
def windowLength (w : Nat × Nat) : Int := (w.2 : Int) - w.1

/-- The first of the longest windows. -/
def bestWindow (dlyScores : List (Nat × Nat)) : Option (Nat × Nat) := Py.maxBy windowLength (findWindows dlyScores)

def bsWindows (scores : Scores) : List (Nat × Option (Nat × Nat)) :=
  Dictionary.assign (scores.map fun (bs, dlyScores) => (bs, bestWindow dlyScores))

def cmpBsWindows (bsWindows : List (Nat × Option (Nat × Nat))) (bs : Nat) : Int :=
  match (bsWindows.lookup bs).join with
  | none => -1
  | some w => windowLength w

def readLevelFindBest (scores : Scores) : Py (Option (Nat × Nat × Int)) :=
  let bsWindows := bsWindows scores
  match Py.maxBy (cmpBsWindows bsWindows) (bsWindows.map Prod.fst) with
  | none => .error (.valueError "max() arg is an empty sequence")
  | some bestBs =>
    match (bsWindows.lookup bestBs).join with
    | none => return none
    -- the best delay is in the middle of the window
    | some w => return some (bestBs, (w.1 + w.2) / 2, windowLength w)

/-- The loop of `read_level_module` over the delays, by a positive step, with the errors that `read_level_test` counts
at a bitslip and a delay. -/
def levelDelays (delays delaysStep : Nat) (errors : Nat → Nat → Nat) (scores : Scores) (bs : Nat) : Scores :=
  (List.range delays).foldl (fun scores dly =>
    if dly % delaysStep = 0 then
      Dictionary.set scores bs (Dictionary.set (Dictionary.get scores bs) dly (errors bs dly))
    else scores) scores

/-- The scores of `read_level_module`. -/
def levelScores (bitslips delays delaysStep : Nat) (errors : Nat → Nat → Nat) : Scores :=
  (List.range bitslips).foldl (levelDelays delays delaysStep errors) []

/-- The scores of the delays below `D`. -/
def scoreTable (D : Nat) (bitslips : List Nat) (errors : Nat → Nat → Nat) : Scores :=
  bitslips.map fun bs => (bs, (List.range D).map fun d => (d, errors bs d))

section Scores
variable (errors : Nat → Nat → Nat)

theorem levelDelays_eq {d : Scores} {bs : Nat} (h : bs ∉ d.map Prod.fst) (delays : Nat) :
    levelDelays (delays + 1) 1 errors d bs =
      d ++ [(bs, (List.range (delays + 1)).map fun dly => (dly, errors bs dly))] := by
  unfold levelDelays
  induction delays with
  | zero =>
    rw [List.range_one, List.foldl_cons, if_pos rfl, Dictionary.get_of_not_mem h, Dictionary.set_of_not_mem h]
    rfl
  | succ delays ih =>
    rw [List.range_succ, List.foldl_append, ih, List.foldl_cons, if_pos (Nat.mod_one _), Dictionary.get_concat h,
      Dictionary.set_concat h, Dictionary.set_of_not_mem, List.map_append]
    · rfl
    · simp

/-- With a step of one the loops make the scores of all delays. -/
theorem levelScores_eq (bitslips delays : Nat) :
    levelScores bitslips (delays + 1) 1 errors = scoreTable (delays + 1) (List.range bitslips) errors := by
  unfold levelScores
  induction bitslips with
  | zero => rfl
  | succ bitslips ih =>
    rw [List.range_succ, List.foldl_append, ih, List.foldl_cons, levelDelays_eq, scoreTable, scoreTable,
      List.map_append]
    · rfl
    · simp [scoreTable]

end Scores

/-! ## The windows of a bitslip -/

section Windows
variable {f : Nat → Nat} {n D : Nat}

/-- The runs of delays without errors. -/
abbrev Clean (f : Nat → Nat) (d : Nat) : Prop := f d = 0

def delayScores (f : Nat → Nat) (n : Nat) : List (Nat × Nat) := (List.range n).map fun d => (d, f d)

/-- After the delays below `n`: the windows are the closed runs, and the open run is in the other variables. -/
structure Scanned (f : Nat → Nat) (n : Nat) (s : Scan) : Prop where
  windows : ∀ a b, (a, b) ∈ s.windows ↔ IsRun (Clean f) n a b ∧ b < n
  isOpen : s.inWindow = true → IsRun (Clean f) n s.windowStart n
  closed : s.inWindow = false → ∀ a, ¬ IsRun (Clean f) n a n
  dly : s.dly = n - 1

theorem scan_succ (f : Nat → Nat) (n : Nat) :
    scan (delayScores f (n + 1)) = scanDelay (scan (delayScores f n)) (n, f n) := by
  unfold scan delayScores
  rw [List.range_succ, List.map_append, List.foldl_append]
  rfl

/-- A closed run stays one; at `n` the open run is closed if there are errors. -/
theorem isRun_closed_iff {a b : Nat} : IsRun (Clean f) (n + 1) a b ∧ b < n + 1 ↔
    (IsRun (Clean f) n a b ∧ b < n) ∨ (b = n ∧ IsRun (Clean f) n a n ∧ f n ≠ 0) := by
  constructor
  · rintro ⟨h, hlt⟩
    rcases Nat.lt_succ_iff_lt_or_eq.mp hlt with hb | rfl
    · exact .inl ⟨(isRun_succ_iff_of_lt hb).mp h, hb⟩
    · exact .inr ⟨rfl, isRun_succ_self_iff.mp h⟩
  · rintro (⟨h, hb⟩ | ⟨rfl, h⟩)
    · exact ⟨(isRun_succ_iff_of_lt hb).mpr h, Nat.lt_succ_of_lt hb⟩
    · exact ⟨isRun_succ_self_iff.mpr h, Nat.lt_succ_self b⟩

theorem not_isRun_last (hn : f n ≠ 0) (a : Nat) : ¬ IsRun (Clean f) (n + 1) a (n + 1) := by
  intro h
  have hlt := h.lt
  exact hn (h.holds n (Nat.lt_succ_self n) (by omega))

section Step
variable {s : Scan}

/-- A first delay without errors opens a window. -/
theorem Scanned.opens (h : Scanned f n s) (hn : f n = 0) (hw : s.inWindow = false) :
    Scanned f (n + 1) { s with windowStart := n, inWindow := true, dly := n } := by
  refine ⟨?_, ?_, fun hin => absurd hin (by simp), rfl⟩
  · intro a b
    rw [isRun_closed_iff, h.windows]
    simp [hn]
  · intro _
    apply isRun_singleton (p := Clean f) _ hn
    intro d _ hlast hclean
    obtain ⟨a, hrun⟩ := exists_run_last (p := Clean f) hclean
    rw [hlast] at hrun
    exact h.closed hw a hrun

/-- Another one goes on with it. -/
theorem Scanned.goesOn (h : Scanned f n s) (hn : f n = 0) (hw : s.inWindow = true) :
    Scanned f (n + 1) { s with dly := n } := by
  refine ⟨?_, fun _ => (h.isOpen hw).extend hn, fun hin => absurd (hw.symm.trans hin) (by simp), rfl⟩
  intro a b
  rw [isRun_closed_iff, h.windows]
  simp [hn]

/-- Errors close the window, -/
theorem Scanned.closes (h : Scanned f n s) (hn : f n ≠ 0) (hw : s.inWindow = true) :
    Scanned f (n + 1) { s with windows := s.windows ++ [(s.windowStart, n)], inWindow := false, dly := n } := by
  refine ⟨?_, fun hin => absurd hin (by simp), fun _ => not_isRun_last hn, rfl⟩
  intro a b
  rw [isRun_closed_iff, List.mem_append, List.mem_singleton, h.windows, Prod.mk.injEq]
  apply or_congr_right
  constructor
  · rintro ⟨rfl, rfl⟩
    exact ⟨rfl, h.isOpen hw, hn⟩
  · rintro ⟨rfl, hrun, -⟩
    exact ⟨hrun.eq_of_ends (h.isOpen hw), rfl⟩

/-- and do nothing outside of one. -/
theorem Scanned.skips (h : Scanned f n s) (hn : f n ≠ 0) (hw : s.inWindow = false) :
    Scanned f (n + 1) { s with dly := n } := by
  refine ⟨?_, fun hin => absurd (hw.symm.trans hin) (by simp), fun _ => not_isRun_last hn, rfl⟩
  intro a b
  rw [isRun_closed_iff, h.windows]
  simp [h.closed hw]

end Step

theorem scanned (f : Nat → Nat) (n : Nat) : Scanned f n (scan (delayScores f n)) := by
  induction n with
  | zero =>
    refine ⟨?_, fun hin => absurd hin Bool.false_ne_true, fun _ a h => Nat.not_lt_zero a h.lt, rfl⟩
    intro a b
    exact iff_of_false List.not_mem_nil fun h => Nat.not_lt_zero b h.2
  | succ n ih =>
    rw [scan_succ]
    unfold scanDelay
    dsimp only
    by_cases hn : f n = 0
    · cases hw : (scan (delayScores f n)).inWindow with
      | false =>
        rw [if_pos ⟨hn, rfl⟩]
        exact ih.opens hn hw
      | true =>
        rw [if_neg (fun h => Bool.noConfusion h.2), if_neg (fun h => h.2 hn), ← hw]
        exact ih.goesOn hn hw
    · cases hw : (scan (delayScores f n)).inWindow with
      | false =>
        rw [if_neg (fun h => hn h.1), if_neg (fun h => Bool.noConfusion h.1), ← hw]
        exact ih.skips hn hw
      | true =>
        rw [if_neg (fun h => hn h.1), if_pos ⟨rfl, hn⟩]
        exact ih.closes hn hw

end Windows

/-! ## The longest window -/

section Longest
variable {f : Nat → Nat} {D : Nat}

/-- The window of a bitslip: a run in which the last delay is not counted, longest among such. -/
structure ChosenWindow (f : Nat → Nat) (D : Nat) (w : Nat × Nat) (b : Nat) : Prop where
  run : IsRun (Clean f) D w.1 b
  snd_eq : w.2 = min b (D - 1)
  longest : ∀ a' b', IsRun (Clean f) D a' b' → min b' (D - 1) - a' ≤ w.2 - w.1
  /-- A run that ends before the last delay comes first. -/
  first : b = D → ∀ a' b', IsRun (Clean f) D a' b' → b' < D → b' - a' < w.2 - w.1

theorem Scanned.run_cases {s : Scan} (h : Scanned f D s) {a b : Nat} (hrun : IsRun (Clean f) D a b) :
    (b < D ∧ (a, b) ∈ s.windows) ∨ (b = D ∧ s.inWindow = true ∧ a = s.windowStart) := by
  rcases Nat.lt_or_eq_of_le hrun.le with hlt | rfl
  · exact .inl ⟨hlt, (h.windows a b).mpr ⟨hrun, hlt⟩⟩
  · cases hw : s.inWindow with
    | false => exact absurd hrun (h.closed hw a)
    | true => exact .inr ⟨rfl, rfl, hrun.eq_of_ends (h.isOpen hw)⟩

/-- A closed run is chosen if no run is longer, and the last one not longer by more than one. -/
theorem Scanned.chosen_closed {s : Scan} (h : Scanned f D s) {w : Nat × Nat} (hw : w ∈ s.windows)
    (hle : ∀ w' ∈ s.windows, windowLength w' ≤ windowLength w)
    (hlast : s.inWindow = true → windowLength (s.windowStart, D - 1) ≤ windowLength w) : ChosenWindow f D w w.2 := by
  obtain ⟨hrun, hlt⟩ := (h.windows w.1 w.2).mp hw
  have hab := hrun.lt
  refine ⟨hrun, by omega, ?_, fun heq => absurd heq (by omega)⟩
  intro a' b' hrun'
  have hab' := hrun'.lt
  rcases h.run_cases hrun' with ⟨hb', hmem⟩ | ⟨rfl, hin, rfl⟩
  · have := hle _ hmem
    unfold windowLength at this
    dsimp only at this
    omega
  · have := hlast hin
    unfold windowLength at this
    dsimp only at this
    omega

/-- The run that is open is chosen if it is longer by more than one. -/
theorem Scanned.chosen_open {s : Scan} (h : Scanned f D s) (hin : s.inWindow = true)
    (hlt : ∀ w' ∈ s.windows, windowLength w' < windowLength (s.windowStart, D - 1)) :
    ChosenWindow f D (s.windowStart, D - 1) D := by
  have hrun := h.isOpen hin
  have hab := hrun.lt
  have hshort : ∀ a' b', IsRun (Clean f) D a' b' → b' < D → b' - a' < D - 1 - s.windowStart := by
    intro a' b' hrun' hb'
    have hab' := hrun'.lt
    have := hlt _ ((h.windows a' b').mpr ⟨hrun', hb'⟩)
    unfold windowLength at this
    dsimp only at this
    omega
  refine ⟨hrun, by dsimp only; omega, ?_, fun _ => hshort⟩
  intro a' b' hrun'
  dsimp only
  rcases h.run_cases hrun' with ⟨hb', hmem⟩ | ⟨rfl, -, rfl⟩
  · have := hshort a' b' hrun' hb'
    omega
  · omega

/-- **The window of a bitslip.** -/
theorem chosen_of_bestWindow {w : Nat × Nat} (h : bestWindow (delayScores f D) = some w) :
    ∃ b, ChosenWindow f D w b := by
  have hs := scanned f D
  unfold bestWindow findWindows at h
  generalize scan (delayScores f D) = s at hs h
  dsimp only at h
  cases hin : s.inWindow with
  | false =>
    rw [hin, if_neg Bool.false_ne_true] at h
    exact ⟨w.2, hs.chosen_closed (Py.maxBy_mem h) (fun w' hw' => Py.le_of_maxBy h hw')
      fun hin' => absurd (hin.symm.trans hin') Bool.false_ne_true⟩
  | true =>
    rw [hin, if_pos rfl, hs.dly] at h
    have hle := fun w' hw' => Py.le_of_maxBy h (a := w') hw'
    obtain ⟨as, bs, hsplit, hbefore, -⟩ := Py.maxBy_eq_some h
    rcases List.eq_nil_or_concat bs with rfl | ⟨bs, b, rfl⟩
    · obtain ⟨rfl, hlast⟩ := List.append_inj' hsplit rfl
      cases hlast
      exact ⟨D, hs.chosen_open hin hbefore⟩
    · rw [List.concat_eq_append, ← List.cons_append, ← List.append_assoc] at hsplit
      obtain ⟨hwindows, -⟩ := List.append_inj' hsplit rfl
      refine ⟨w.2, hs.chosen_closed ?_ (fun w' hw' => hle w' (List.mem_append_left _ hw')) fun _ => ?_⟩
      · rw [hwindows]
        exact List.mem_append_right as List.mem_cons_self
      · exact hle _ (List.mem_append_right _ List.mem_cons_self)

/-- There is a window unless every delay has errors. -/
theorem bestWindow_eq_none_iff : bestWindow (delayScores f D) = none ↔ ∀ d < D, f d ≠ 0 := by
  constructor
  · intro h d hd hclean
    have hs := scanned f D
    unfold bestWindow findWindows at h
    generalize scan (delayScores f D) = s at hs h
    rw [Py.maxBy_eq_none] at h
    dsimp only at h
    obtain ⟨a, b, hrun, -, -⟩ := exists_run (p := Clean f) hd hclean
    rcases hs.run_cases hrun with ⟨-, hmem⟩ | ⟨-, hin, -⟩
    · split at h
      · exact absurd (List.append_eq_nil_iff.mp h).2 (List.cons_ne_nil _ _)
      · rw [h] at hmem
        exact List.not_mem_nil hmem
    · rw [hin, if_pos rfl] at h
      exact absurd (List.append_eq_nil_iff.mp h).2 (List.cons_ne_nil _ _)
  · intro h
    cases hw : bestWindow (delayScores f D) with
    | none => rfl
    | some w =>
      obtain ⟨b, hchosen⟩ := chosen_of_bestWindow hw
      have hab := hchosen.run.lt
      exact absurd (hchosen.run.holds w.1 hab (Nat.le_refl _)) (h w.1 (lt_of_lt_of_le hab hchosen.run.le))

end Longest

/-! ## All bitslips -/

/-- The delay is in a run without errors that is as long as every other one. -/
def InLongest (D : Nat) (bitslips : List Nat) (errors : Nat → Nat → Nat) (bs delay : Nat) : Prop :=
  bs ∈ bitslips ∧ ∃ a b, IsRun (Clean (errors bs)) D a b ∧ a ≤ delay ∧ delay < b ∧
    ∀ bs' ∈ bitslips, ∀ a' b', IsRun (Clean (errors bs')) D a' b' → b' - a' ≤ b - a

/-- A delay in a longest run is found if there is a delay without errors, and nothing if there is none. -/
structure Finds (D : Nat) (bitslips : List Nat) (errors : Nat → Nat → Nat) (r : Py (Option (Nat × Nat × Int))) :
    Prop where
  some : (∃ bs ∈ bitslips, ∃ d < D, errors bs d = 0) →
    ∃ bs delay length, r = .ok (some (bs, delay, length)) ∧ InLongest D bitslips errors bs delay
  none : (∀ bs ∈ bitslips, ∀ d < D, errors bs d ≠ 0) → r = .ok none

/-- The length of the longest runs. -/
structure Longest (D : Nat) (bitslips : List Nat) (errors : Nat → Nat → Nat) (n : Nat) : Prop where
  exists_run : ∃ bs ∈ bitslips, ∃ a b, IsRun (Clean (errors bs)) D a b ∧ b - a = n
  le : ∀ bs ∈ bitslips, ∀ a b, IsRun (Clean (errors bs)) D a b → b - a ≤ n

section Bitslips
variable {D : Nat} {bitslips : List Nat} {errors : Nat → Nat → Nat} {bs : Nat}

theorem bsWindows_scoreTable (hnodup : bitslips.Nodup) : bsWindows (scoreTable D bitslips errors) =
    bitslips.map fun bs => (bs, bestWindow (delayScores (errors bs) D)) := by
  unfold bsWindows scoreTable
  rw [List.map_map, Dictionary.assign_of_nodup]
  · rfl
  · rw [List.map_map]
    exact (List.map_id bitslips).symm ▸ hnodup

theorem lookup_bsWindows (hnodup : bitslips.Nodup) (hbs : bs ∈ bitslips) :
    (bsWindows (scoreTable D bitslips errors)).lookup bs = some (bestWindow (delayScores (errors bs) D)) := by
  rw [bsWindows_scoreTable hnodup, List.lookup_graph _ hbs]

theorem cmp_of_some (hnodup : bitslips.Nodup) (hbs : bs ∈ bitslips) {w : Nat × Nat}
    (hw : bestWindow (delayScores (errors bs) D) = some w) :
    cmpBsWindows (bsWindows (scoreTable D bitslips errors)) bs = windowLength w := by
  unfold cmpBsWindows
  rw [lookup_bsWindows hnodup hbs, hw]
  rfl

theorem cmp_of_none (hnodup : bitslips.Nodup) (hbs : bs ∈ bitslips)
    (hw : bestWindow (delayScores (errors bs) D) = none) :
    cmpBsWindows (bsWindows (scoreTable D bitslips errors)) bs = -1 := by
  unfold cmpBsWindows
  rw [lookup_bsWindows hnodup hbs, hw]
  rfl

/-- What is returned, once the bitslip is known. -/
theorem readLevelFindBest_eq (hnodup : bitslips.Nodup)
    (hbs : Py.maxBy (cmpBsWindows (bsWindows (scoreTable D bitslips errors))) bitslips = some bs) :
    readLevelFindBest (scoreTable D bitslips errors) = .ok ((bestWindow (delayScores (errors bs) D)).map fun w =>
      (bs, (w.1 + w.2) / 2, windowLength w)) := by
  have hkeys : (bsWindows (scoreTable D bitslips errors)).map Prod.fst = bitslips := by
    rw [bsWindows_scoreTable hnodup, List.map_map]
    exact List.map_id bitslips
  unfold readLevelFindBest
  dsimp only
  rw [hkeys, hbs]
  dsimp only
  rw [lookup_bsWindows hnodup (Py.maxBy_mem hbs)]
  cases bestWindow (delayScores (errors bs) D) <;> rfl

/-! ## The lengths of windows and runs -/

theorem ChosenWindow.fst_le {f : Nat → Nat} {w : Nat × Nat} {b : Nat} (h : ChosenWindow f D w b) : w.1 ≤ w.2 := by
  have hab := h.run.lt
  have hle := h.run.le
  have hsnd := h.snd_eq
  omega

theorem ChosenWindow.windowLength_eq {f : Nat → Nat} {w : Nat × Nat} {b : Nat} (h : ChosenWindow f D w b) :
    windowLength w = (w.2 - w.1 : Nat) := by
  have hle := h.fst_le
  unfold windowLength
  omega

/-- No run is longer than the bitslip counts, the last delay apart. -/
theorem le_cmp (hnodup : bitslips.Nodup) (hbs : bs ∈ bitslips) {a b : Nat} (hrun : IsRun (Clean (errors bs)) D a b) :
    ((min b (D - 1) - a : Nat) : Int) ≤ cmpBsWindows (bsWindows (scoreTable D bitslips errors)) bs := by
  cases hw : bestWindow (delayScores (errors bs) D) with
  | none =>
    have hab := hrun.lt
    exact absurd (hrun.holds a hab (Nat.le_refl a)) (bestWindow_eq_none_iff.mp hw a (lt_of_lt_of_le hab hrun.le))
  | some w =>
    obtain ⟨b', hchosen⟩ := chosen_of_bestWindow hw
    rw [cmp_of_some hnodup hbs hw, hchosen.windowLength_eq]
    exact Int.ofNat_le.mpr (hchosen.longest a b hrun)

/-- The bitslips that count `m`, when none counts more. -/
theorem cmp_eq_iff (hnodup : bitslips.Nodup) (hbs : bs ∈ bitslips) {m : Nat}
    (hmax : cmpBsWindows (bsWindows (scoreTable D bitslips errors)) bs ≤ m) :
    Ends (Clean (errors bs)) D (m + 1) ∨ Inside (Clean (errors bs)) D m ↔
      cmpBsWindows (bsWindows (scoreTable D bitslips errors)) bs = m := by
  constructor
  · intro h
    apply le_antisymm hmax
    rcases h with ⟨a, ha, hsum, hrun⟩ | ⟨a, ha, hlt, hrun⟩
    · have hle := le_cmp hnodup hbs hrun
      have hmin : min D (D - 1) - a = m := by omega
      rwa [hmin] at hle
    · have hle := le_cmp hnodup hbs hrun
      have hmin : min (a + m) (D - 1) - a = m := by omega
      rwa [hmin] at hle
  · intro heq
    cases hw : bestWindow (delayScores (errors bs) D) with
    | none =>
      rw [cmp_of_none hnodup hbs hw] at heq
      omega
    | some w =>
      obtain ⟨b, hchosen⟩ := chosen_of_bestWindow hw
      rw [cmp_of_some hnodup hbs hw, hchosen.windowLength_eq, Int.ofNat_inj] at heq
      have hrun := hchosen.run
      have hab := hrun.lt
      have hsnd := hchosen.snd_eq
      rcases Nat.lt_or_eq_of_le hrun.le with hlt | rfl
      · right
        have hlen : b - w.1 = m := by omega
        exact hlen ▸ hrun.inside hlt
      · left
        have hlen : b - w.1 = m + 1 := by omega
        exact hlen ▸ hrun.ends

/-- The bitslip that is chosen, the window of which has the run `[w.1, b)`. -/
structure ChosenBitslip (D : Nat) (bitslips : List Nat) (errors : Nat → Nat → Nat) (bs : Nat) (w : Nat × Nat)
    (b : Nat) : Prop where
  mem : bs ∈ bitslips
  window : ChosenWindow (errors bs) D w b
  longest : ∀ bs' ∈ bitslips, ∀ a' b', IsRun (Clean (errors bs')) D a' b' → min b' (D - 1) - a' ≤ w.2 - w.1
  first : (bitslips.find? fun bs' => Ends (Clean (errors bs')) D (w.2 - w.1 + 1) ∨
    Inside (Clean (errors bs')) D (w.2 - w.1)) = some bs

theorem chosenBitslip_of_maxBy (hnodup : bitslips.Nodup)
    (hbs : Py.maxBy (cmpBsWindows (bsWindows (scoreTable D bitslips errors))) bitslips = some bs) {w : Nat × Nat}
    (hw : bestWindow (delayScores (errors bs) D) = some w) : ∃ b, ChosenBitslip D bitslips errors bs w b := by
  obtain ⟨b, hchosen⟩ := chosen_of_bestWindow hw
  have hmem := Py.maxBy_mem hbs
  have hcmp := cmp_of_some hnodup hmem hw
  rw [hchosen.windowLength_eq] at hcmp
  have hmax : ∀ bs' ∈ bitslips,
      cmpBsWindows (bsWindows (scoreTable D bitslips errors)) bs' ≤ (w.2 - w.1 : Nat) := by
    intro bs' hbs'
    rw [← hcmp]
    exact Py.le_of_maxBy hbs hbs'
  refine ⟨b, hmem, hchosen, ?_, ?_⟩
  · intro bs' hbs' a' b' hrun
    exact Int.ofNat_le.mp ((le_cmp hnodup hbs' hrun).trans (hmax bs' hbs'))
  · apply Py.find?_of_maxBy hbs
    intro bs' hbs'
    rw [hcmp]
    exact cmp_eq_iff hnodup hbs' (hmax bs' hbs')

variable {w : Nat × Nat} {b : Nat}

theorem ChosenWindow.mem_middle {f : Nat → Nat} (h : ChosenWindow f D w b) :
    w.1 ≤ (w.1 + w.2) / 2 ∧ (w.1 + w.2) / 2 < b := by
  have hle := h.fst_le
  have hab := h.run.lt
  have hD := h.run.le
  have hsnd := h.snd_eq
  omega

/-- The middle of the window is in a longest run exactly if the run of the window is one. -/
theorem ChosenBitslip.inLongest_iff (h : ChosenBitslip D bitslips errors bs w b) :
    InLongest D bitslips errors bs ((w.1 + w.2) / 2) ↔
      ∀ bs' ∈ bitslips, ∀ a' b', IsRun (Clean (errors bs')) D a' b' → b' - a' ≤ b - w.1 := by
  obtain ⟨hle, hlt⟩ := h.window.mem_middle
  constructor
  · rintro ⟨-, a', b', hrun, ha, hb, hlong⟩
    obtain ⟨rfl, rfl⟩ := hrun.eq_of_mem h.window.run ha hb hle hlt
    exact hlong
  · intro hlong
    exact ⟨h.mem, w.1, b, h.window.run, hle, hlt, hlong⟩

/-- A run longer than that of the window lasts to the last delay, is longer by one, and is a longest one. -/
theorem ChosenBitslip.longer (h : ChosenBitslip D bitslips errors bs w b) {bs' a' b' : Nat} (hbs' : bs' ∈ bitslips)
    (hrun' : IsRun (Clean (errors bs')) D a' b') (hlonger : b - w.1 < b' - a') :
    b < D ∧ w.2 = b ∧ Longest D bitslips errors (b - w.1 + 1) := by
  have hab := h.window.run.lt
  have hsnd := h.window.snd_eq
  have hle' := h.longest bs' hbs' a' b' hrun'
  have hD' := hrun'.le
  have hlen : b' - a' = b - w.1 + 1 := by omega
  refine ⟨by omega, by omega, ⟨bs', hbs', a', b', hrun', hlen⟩, ?_⟩
  intro bs₁ hbs₁ a₁ b₁ hrun₁
  have hle₁ := h.longest bs₁ hbs₁ a₁ b₁ hrun₁
  have hD₁ := hrun₁.le
  omega

/-- If the run of the window lasts to the last delay, no run of the counted length ends before that. -/
theorem ChosenBitslip.not_inside (h : ChosenBitslip b bitslips errors bs w b) :
    ¬ Inside (Clean (errors bs)) b (w.2 - w.1) := by
  rintro ⟨a', ha', hb', hrun'⟩
  have hle := h.window.fst_le
  have hsnd := h.window.snd_eq
  have hshort := h.window.first rfl a' _ hrun' hb'
  omega

/-- The run of the window is a longest one unless it is cut short by a run that lasts to the last delay. -/
theorem ChosenBitslip.longest_iff (h : ChosenBitslip D bitslips errors bs w b) :
    (∀ bs' ∈ bitslips, ∀ a' b', IsRun (Clean (errors bs')) D a' b' → b' - a' ≤ b - w.1) ↔
      ∀ n, Longest D bitslips errors n → (∃ bs' ∈ bitslips, Inside (Clean (errors bs')) D n) ∨
        ∀ bs', (bitslips.find? fun bs' => Ends (Clean (errors bs')) D n ∨
          Inside (Clean (errors bs')) D (n - 1)) = some bs' → ¬ Inside (Clean (errors bs')) D (n - 1) := by
  have hrun := h.window.run
  constructor
  · intro hlong n hn
    obtain ⟨bs₀, hbs₀, a₀, b₀, hrun₀, rfl⟩ := hn.exists_run
    have hlen : b - w.1 = b₀ - a₀ := Nat.le_antisymm (hn.le bs h.mem w.1 b hrun) (hlong bs₀ hbs₀ a₀ b₀ hrun₀)
    rw [← hlen]
    rcases Nat.lt_or_eq_of_le hrun.le with hlt | rfl
    · exact .inl ⟨bs, h.mem, hrun.inside hlt⟩
    · right
      intro bs' hbs'
      have hab := hrun.lt
      have hsnd := h.window.snd_eq
      have hcut : b - w.1 - 1 = w.2 - w.1 := by omega
      have hpos : b - w.1 = w.2 - w.1 + 1 := by omega
      rw [hcut, hpos, h.first] at hbs'
      obtain rfl := Option.some.inj hbs'
      rw [hcut]
      exact h.not_inside
  · intro hcond
    by_contra hnot
    push Not at hnot
    obtain ⟨bs₀, hbs₀, a₀, b₀, hrun₀, hlonger⟩ := hnot
    obtain ⟨hlt, hw₂, hlongest⟩ := h.longer hbs₀ hrun₀ hlonger
    rcases hcond _ hlongest with ⟨bs', hbs', a', ha', hb', hrun'⟩ | hfirst
    · have hle' := h.longest bs' hbs' a' _ hrun'
      omega
    · apply hfirst bs
      · rw [Nat.add_sub_cancel, ← hw₂]
        exact h.first
      · rw [Nat.add_sub_cancel]
        exact hrun.inside hlt

/-- Nothing is found only if every delay has errors. -/
theorem errors_of_none (hnodup : bitslips.Nodup)
    (hbs : Py.maxBy (cmpBsWindows (bsWindows (scoreTable D bitslips errors))) bitslips = some bs)
    (hw : bestWindow (delayScores (errors bs) D) = none) : ∀ bs' ∈ bitslips, ∀ d < D, errors bs' d ≠ 0 := by
  intro bs' hbs' d hd hclean
  obtain ⟨a, b, hrun, -, -⟩ := exists_run (p := Clean (errors bs')) hd hclean
  have hle := le_cmp hnodup hbs' hrun
  have hmax := Py.le_of_maxBy hbs hbs'
  rw [cmp_of_none hnodup (Py.maxBy_mem hbs) hw] at hmax
  omega

theorem finds_none (h : ∀ bs ∈ bitslips, ∀ d < D, errors bs d ≠ 0) : Finds D bitslips errors (.ok none) := by
  refine ⟨?_, fun _ => rfl⟩
  rintro ⟨bs, hbs, d, hd, hclean⟩
  exact absurd hclean (h bs hbs d hd)

theorem finds_some_iff {delay : Nat} {length : Int} (hclean : ∃ bs ∈ bitslips, ∃ d < D, errors bs d = 0) :
    Finds D bitslips errors (.ok (some (bs, delay, length))) ↔ InLongest D bitslips errors bs delay := by
  constructor
  · intro h
    obtain ⟨bs', delay', length', heq, hlong⟩ := h.some hclean
    cases heq
    exact hlong
  · intro hlong
    refine ⟨fun _ => ⟨bs, delay, length, rfl, hlong⟩, fun hnone => ?_⟩
    obtain ⟨bs', hbs', d, hd, hzero⟩ := hclean
    exact absurd hzero (hnone bs' hbs' d hd)

end Bitslips

/-- **When a best delay is found.** Read leveling finds a delay in a longest run exactly if there is a bitslip, and
either a longest run ends before the last delay, or the first bitslip that has a longest run, or a run before the last
delay that is shorter by one, has no run of the latter kind. -/
theorem findBest_iff {D : Nat} {bitslips : List Nat} (hnodup : bitslips.Nodup) (errors : Nat → Nat → Nat) :
    Finds D bitslips errors (readLevelFindBest (scoreTable D bitslips errors)) ↔
      bitslips ≠ [] ∧ ∀ n, Longest D bitslips errors n → (∃ bs ∈ bitslips, Inside (Clean (errors bs)) D n) ∨
        ∀ bs, (bitslips.find? fun bs => Ends (Clean (errors bs)) D n ∨ Inside (Clean (errors bs)) D (n - 1)) = some bs →
          ¬ Inside (Clean (errors bs)) D (n - 1) := by
  cases hbs : Py.maxBy (cmpBsWindows (bsWindows (scoreTable D bitslips errors))) bitslips with
  | none =>
    rw [Py.maxBy_eq_none] at hbs
    subst hbs
    refine iff_of_false (fun h => ?_) fun h => h.1 rfl
    have hnone := h.none fun bs hbs => absurd hbs List.not_mem_nil
    cases hnone
  | some bs =>
    have hmem := Py.maxBy_mem hbs
    have hne : bitslips ≠ [] := List.ne_nil_of_mem hmem
    rw [readLevelFindBest_eq hnodup hbs, and_iff_right hne]
    cases hw : bestWindow (delayScores (errors bs) D) with
    | none =>
      have herrors := errors_of_none hnodup hbs hw
      refine iff_of_true (finds_none herrors) fun n hn => ?_
      obtain ⟨bs', hbs', a, b, hrun, -⟩ := hn.exists_run
      have hab := hrun.lt
      exact absurd (hrun.holds a hab (Nat.le_refl a)) (herrors bs' hbs' a (lt_of_lt_of_le hab hrun.le))
    | some w =>
      obtain ⟨b, hchosen⟩ := chosenBitslip_of_maxBy hnodup hbs hw
      have hrun := hchosen.window.run
      have hab := hrun.lt
      rw [← hchosen.longest_iff, ← hchosen.inLongest_iff]
      exact finds_some_iff ⟨bs, hmem, w.1, lt_of_lt_of_le hab hrun.le, hrun.holds w.1 hab (Nat.le_refl _)⟩

/-- Four delays, one with errors behind the first. -/
def secondDelayBad (_ d : Nat) : Nat := if d = 1 then 1 else 0

/-- The run of the last two delays counts as long as the first delay, and loses. -/
theorem last_run_loses : readLevelFindBest (scoreTable 4 [0] secondDelayBad) = .ok (some (0, 0, 1)) ∧
    ¬ Finds 4 [0] secondDelayBad (readLevelFindBest (scoreTable 4 [0] secondDelayBad)) := by
  have hfound : readLevelFindBest (scoreTable 4 [0] secondDelayBad) = .ok (some (0, 0, 1)) := by decide
  refine ⟨hfound, ?_⟩
  rw [hfound, finds_some_iff ⟨0, by decide, 0, by decide, rfl⟩]
  rintro ⟨-, a, b, hrun, ha, hb, hlong⟩
  have hlast : IsRun (Clean (secondDelayBad 0)) 4 2 4 := by decide
  have hfirst : IsRun (Clean (secondDelayBad 0)) 4 0 1 := by decide
  obtain ⟨rfl, rfl⟩ := hrun.eq_of_mem hfirst ha hb (Nat.le_refl 0) (by decide)
  exact absurd (hlong 0 (by decide) 2 4 hlast) (by decide)

/-- Five delays, with errors at the second and the last one; nothing else is right at bitslip 1. -/
def lastDelayBad (bs d : Nat) : Nat := if d = 1 ∨ d = 4 then 1 else bs

/-- With errors at the last delay the longest run is found. -/
theorem findBest_iff_lastDelayBad : readLevelFindBest (scoreTable 5 [0, 1] lastDelayBad) = .ok (some (0, 3, 2)) ∧
    Finds 5 [0, 1] lastDelayBad (readLevelFindBest (scoreTable 5 [0, 1] lastDelayBad)) := by
  refine ⟨by decide, (findBest_iff (by decide) _).mpr ⟨by decide, fun n hn => .inl ⟨0, by decide, ?_⟩⟩⟩
  obtain ⟨bs, hbs, a, b, hrun, hlen⟩ := hn.exists_run
  have hle : 4 - 2 ≤ n := hn.le 0 (by decide) 2 4 (by decide)
  have hall : ∀ bs ∈ [0, 1], ∀ a < 5, ∀ b < 6, IsRun (Clean (lastDelayBad bs)) 5 a b → b - a ≤ 2 := by decide
  have hab := hrun.lt
  have hD := hrun.le
  have hge := hall bs hbs a (by omega) b (by omega) hrun
  obtain rfl : n = 2 := by omega
  decide

end RowhammerTester.Scripts.ReadLevel
