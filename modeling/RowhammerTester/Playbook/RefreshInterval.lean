import RowhammerTester.Hdl.Trace
import RowhammerTester.Playbook.Execution

/-!
# The refresh deadline of a generated payload

`encode_one_loop` accounts for the cycle of the LOOP in front of a pass, but it is spent behind it: a pass that ends
right at tREFI after an inserted refresh is followed by the next refresh one cycle late.

* `sinceRef t accum x rows` : the cycles since the last refresh after `rows` further rows;
* `PassInTime t rows` : a pass over `rows` rows leaves the cycle of the LOOP before the deadline (`passInTime_iff`);
* `refreshDeadline_visited` : when consecutive refreshes of a payload are at most tREFI apart.
-/

namespace RowhammerTester.Playbook
open RowhammerTester.Hdl RowhammerTester.Gateware Encoder Interp

/-- Consecutive refreshes of a trace start at most `m` cycles apart. -/
def RefreshDeadline (m : Nat) (is : List Decoder) : Prop :=
  Spaced Decoder.cycles (Decoder.Is .REF) (Decoder.Is .REF) (· ≤ m) is

namespace Timings
variable (t : Timings)

/-- A pass over `rows` rows does not end right at the deadline of an inserted refresh: it would, if the rows fill the
intervals exactly, the first of them one row short for the LOOP. -/
def PassInTime (rows : Nat) : Prop :=
  ¬ ((t.tRAS + t.tRP) ∣ (t.tREFI - t.tRFC) ∧ t.actsPerInterval ≤ rows ∧ t.actsPerInterval ∣ rows + 1)

/-- The cycles since the last refresh after `rows` further rows, `x` those before and `accum` the accounted ones. -/
def sinceRef : Nat → Nat → Nat → Nat
  | _, x, 0 => x
  | accum, x, rows + 1 => sinceRef (t.next accum) ((if t.Due accum then t.tRFC else x) + (t.tRAS + t.tRP)) rows

theorem sinceRef_of_due {accum : Nat} (h : t.Due accum) (x rows : Nat) : t.sinceRef accum x (rows + 1) =
    t.sinceRef (t.tRFC + (t.tRAS + t.tRP)) (t.tRFC + (t.tRAS + t.tRP)) rows := by
  rw [sinceRef, next, if_pos h, if_pos h]

theorem sinceRef_of_not_due {accum : Nat} (h : ¬ t.Due accum) (x rows : Nat) : t.sinceRef accum x (rows + 1) =
    t.sinceRef (accum + (t.tRAS + t.tRP)) (x + (t.tRAS + t.tRP)) rows := by
  rw [sinceRef, next, if_neg h, if_neg h]

section Deadline
variable {t} (hs : 0 < t.tRAS + t.tRP) (hfits : t.tRFC + (t.tRAS + t.tRP) ≤ t.tREFI)
include hs

omit hs in
theorem due_iff (accum : Nat) : t.Due accum ↔ t.tREFI < accum + (t.tRAS + t.tRP) := by
  unfold Due
  omega

include hfits in
theorem actsPerInterval_pos : 0 < t.actsPerInterval := Nat.div_pos (by omega) hs

theorem due_rows (hfits' : t.tRFC ≤ t.tREFI) (j : Nat) :
    t.Due (t.tRFC + j * (t.tRAS + t.tRP)) ↔ t.actsPerInterval < j + 1 := by
  rw [due_iff, actsPerInterval, Nat.div_lt_iff_lt_mul hs, Nat.succ_mul]
  omega

theorem due_rows_succ (hfits' : t.tRFC < t.tREFI) (j : Nat) :
    t.Due (t.tRFC + 1 + j * (t.tRAS + t.tRP)) ↔ (t.tREFI - t.tRFC - 1) / (t.tRAS + t.tRP) < j + 1 := by
  rw [due_iff, Nat.div_lt_iff_lt_mul hs, Nat.succ_mul]
  omega

include hfits

/-- After an inserted refresh the rows go round in intervals. -/
theorem sinceRef_inserted (rows : Nat) : ∀ j, j < t.actsPerInterval →
    t.sinceRef (t.tRFC + (j + 1) * (t.tRAS + t.tRP)) (t.tRFC + (j + 1) * (t.tRAS + t.tRP)) rows =
      t.tRFC + ((j + rows) % t.actsPerInterval + 1) * (t.tRAS + t.tRP) := by
  have ha := actsPerInterval_pos hs hfits
  induction rows with
  | zero =>
    intro j hj
    rw [sinceRef, Nat.add_zero j, Nat.mod_eq_of_lt hj]
  | succ rows ih =>
    intro j hj
    have hdue := due_rows hs (by omega) (j + 1)
    by_cases hd : t.Due (t.tRFC + (j + 1) * (t.tRAS + t.tRP))
    · have hj' : j + 1 = t.actsPerInterval := by
        have := hdue.mp hd
        omega
      have h := ih 0 ha
      rw [Nat.zero_add, Nat.one_mul, Nat.zero_add] at h
      rw [sinceRef_of_due _ hd, h, show j + (rows + 1) = rows + t.actsPerInterval by omega, Nat.add_mod_right]
    · have hj' : j + 1 < t.actsPerInterval := by
        have := mt hdue.mpr hd
        omega
      have h := ih (j + 1) hj'
      rw [Nat.succ_mul (j + 1), ← Nat.add_assoc t.tRFC] at h
      rw [sinceRef_of_not_due _ hd, h, show j + 1 + rows = j + (rows + 1) by omega]

/-- The rows of the first interval leave a cycle for the LOOP. -/
theorem sinceRef_first (rows : Nat) : ∀ j, j ≤ (t.tREFI - t.tRFC - 1) / (t.tRAS + t.tRP) →
    t.sinceRef (t.tRFC + 1 + j * (t.tRAS + t.tRP)) (t.tRFC + j * (t.tRAS + t.tRP)) rows =
      if j + rows ≤ (t.tREFI - t.tRFC - 1) / (t.tRAS + t.tRP) then t.tRFC + (j + rows) * (t.tRAS + t.tRP)
      else t.tRFC + ((j + rows - (t.tREFI - t.tRFC - 1) / (t.tRAS + t.tRP) - 1) % t.actsPerInterval + 1) *
        (t.tRAS + t.tRP) := by
  have ha := actsPerInterval_pos hs hfits
  induction rows with
  | zero =>
    intro j hj
    rw [sinceRef, Nat.add_zero, if_pos hj]
  | succ rows ih =>
    intro j hj
    have hdue := due_rows_succ hs (by omega) j
    by_cases hd : t.Due (t.tRFC + 1 + j * (t.tRAS + t.tRP))
    · have hj' := hdue.mp hd
      have h := sinceRef_inserted hs hfits rows 0 ha
      rw [Nat.zero_add, Nat.one_mul, Nat.zero_add] at h
      rw [sinceRef_of_due _ hd, h, if_neg (by omega)]
      congr 4
      omega
    · have hj' := mt hdue.mpr hd
      have h := ih (j + 1) (by omega)
      rw [Nat.succ_mul j, ← Nat.add_assoc (t.tRFC + 1), ← Nat.add_assoc t.tRFC,
        show j + 1 + rows = j + (rows + 1) by omega] at h
      rw [sinceRef_of_not_due _ hd, h]

omit hs hfits in
theorem mul_sub_one_div {s k : Nat} (hs : 0 < s) (hk : 0 < k) : (s * k - 1) / s = k - 1 := by
  have hsplit : s * k = (k - 1) * s + s := by
    rw [← Nat.succ_mul, Nat.succ_eq_add_one, Nat.sub_add_cancel hk, Nat.mul_comm]
  apply Nat.div_eq_of_lt_le
  · omega
  · rw [Nat.succ_mul]
    omega

omit hs hfits in
theorem dvd_succ_iff {k n : Nat} (hk : 0 < k) : k ∣ n + 1 ↔ n % k + 1 = k := by
  constructor
  · intro h
    have h' : k ∣ n % k + 1 := by
      rw [Nat.dvd_iff_mod_eq_zero] at h ⊢
      rw [Nat.mod_add_mod]
      exact h
    exact le_antisymm (Nat.mod_lt n hk) (Nat.le_of_dvd (Nat.succ_pos _) h')
  · intro h
    rw [Nat.dvd_iff_mod_eq_zero, ← Nat.mod_add_mod, h, Nat.mod_self]

omit hs hfits in
/-- When the last interval, of `e` cycles, is filled up to its last cycle. -/
theorem interval_filled_iff {s e rows : Nat} (hs : 0 < s) (hse : s ≤ e) :
    (if rows ≤ (e - 1) / s then rows * s else ((rows - (e - 1) / s - 1) % (e / s) + 1) * s) + 1 ≤ e ↔
      ¬ (s ∣ e ∧ e / s ≤ rows ∧ e / s ∣ rows + 1) := by
  have hpos : 0 < e / s := Nat.div_pos hse hs
  have hlast : ∀ m, (m % (e / s) + 1) * s ≤ e / s * s := fun m =>
    Nat.mul_le_mul_right s (Nat.mod_lt m hpos)
  have hle : e / s * s ≤ e := Nat.div_mul_le_self e s
  by_cases hdvd : s ∣ e
  · obtain ⟨k, rfl⟩ := hdvd
    rw [Nat.mul_div_cancel_left k hs] at hpos hlast ⊢
    have hk : s * k = (k - 1) * s + s := by
      rw [← Nat.succ_mul, Nat.succ_eq_add_one, Nat.sub_add_cancel hpos, Nat.mul_comm]
    -- the first interval is one row short
    rw [mul_sub_one_div hs hpos]
    by_cases hrows : rows ≤ k - 1
    · have hmul := Nat.mul_le_mul_right s hrows
      rw [if_pos hrows]
      refine iff_of_true (by omega) ?_
      rintro ⟨-, h, -⟩
      omega
    · rw [if_neg hrows, show rows - (k - 1) - 1 = rows - k by omega]
      have hmod := Nat.mod_lt (rows - k) hpos
      have hdiv : k ∣ rows + 1 ↔ (rows - k) % k + 1 = k := by
        rw [show rows + 1 = rows - k + 1 + k by omega, Nat.dvd_add_left (dvd_refl k), dvd_succ_iff hpos]
      rw [hdiv]
      constructor
      · rintro h ⟨-, -, hk'⟩
        rw [hk', Nat.mul_comm] at h
        omega
      · intro h
        have hlt : (rows - k) % k + 1 ≤ k - 1 := by
          by_contra hge
          exact h ⟨Nat.dvd_mul_right s k, by omega, by omega⟩
        have hmul := Nat.mul_le_mul_right s hlt
        omega
  · refine iff_of_true ?_ (fun h => hdvd h.1)
    have hne : e / s * s ≠ e := fun h => hdvd ⟨e / s, by rw [Nat.mul_comm]; exact h.symm⟩
    split
    · next hrows =>
      have := (Nat.le_div_iff_mul_le hs).mp hrows
      omega
    · have := hlast (rows - (e - 1) / s - 1)
      omega

/-- **The deadline of a pass**, with the cycle of the LOOP. -/
theorem passInTime_iff (rows : Nat) :
    t.sinceRef (t.tRFC + 1) t.tRFC rows + 1 ≤ t.tREFI ↔ t.PassInTime rows := by
  have hsince := sinceRef_first hs hfits rows 0 (Nat.zero_le _)
  rw [Nat.zero_mul, Nat.add_zero, Nat.add_zero t.tRFC, Nat.zero_add] at hsince
  rw [hsince, PassInTime, actsPerInterval, ← interval_filled_iff hs (show t.tRAS + t.tRP ≤ t.tREFI - t.tRFC by omega)]
  split <;> omega

end Deadline

end Timings

/-! ## Passes -/

section Pass
variable {g : Geometry} {a : LoopArgs}

/-- The check of the refresh deadline on a list of specifications. -/
def RefGaps (g : Geometry) (m : Nat) (since : Option Nat) (is : List I) : Prop :=
  Watch (fun i => (Decoder.ofSpec g i).cycles) (fun i => (Decoder.ofSpec g i).Is .REF)
    (fun i => (Decoder.ofSpec g i).Is .REF) (· ≤ m) since is

/-- The cycles since the last refresh after a list of specifications. -/
def refSince (g : Geometry) (since : Option Nat) (is : List I) : Option Nat :=
  sinceAfter (fun i => (Decoder.ofSpec g i).cycles) (fun i => (Decoder.ofSpec g i).Is .REF)
    (fun i => (Decoder.ofSpec g i).Is .REF) since is

theorem refGaps_append {m : Nat} (since : Option Nat) (is js : List I) :
    RefGaps g m since (is ++ js) ↔ RefGaps g m since is ∧ RefGaps g m (refSince g since is) js := watch_append ..

theorem refSince_append (since : Option Nat) (is js : List I) :
    refSince g since (is ++ js) = refSince g (refSince g since is) js := sinceAfter_append ..

theorem refGaps_ref {m : Nat} (since : Option Nat) {i : I} (is : List I) (h : (Decoder.ofSpec g i).Is .REF) :
    RefGaps g m since (i :: is) ↔ (∀ n ∈ since, n ≤ m) ∧ RefGaps g m (some (Decoder.ofSpec g i).cycles) is := by
  unfold RefGaps
  rw [watch_cons, sinceNext_of_pos _ (fun i => (Decoder.ofSpec g i).Is .REF) _ h]
  exact and_congr_left fun _ => ⟨fun hall => hall h, fun hall _ => hall⟩

theorem refSince_ref (since : Option Nat) {i : I} (is : List I) (h : (Decoder.ofSpec g i).Is .REF) :
    refSince g since (i :: is) = refSince g (some (Decoder.ofSpec g i).cycles) is := by
  unfold refSince
  rw [sinceAfter_cons, sinceNext_of_pos _ (fun i => (Decoder.ofSpec g i).Is .REF) _ h]

theorem refGaps_other {m : Nat} (since : Option Nat) {i : I} (is : List I) (h : ¬ (Decoder.ofSpec g i).Is .REF) :
    RefGaps g m since (i :: is) ↔ RefGaps g m (since.map (· + (Decoder.ofSpec g i).cycles)) is := by
  unfold RefGaps
  rw [watch_cons,
    sinceNext_of_neg _ (fun i => (Decoder.ofSpec g i).Is .REF) (fun i => (Decoder.ofSpec g i).Is .REF) h h]
  exact and_iff_right fun h' => absurd h' h

theorem refSince_other (since : Option Nat) {i : I} (is : List I) (h : ¬ (Decoder.ofSpec g i).Is .REF) :
    refSince g since (i :: is) = refSince g (since.map (· + (Decoder.ofSpec g i).cycles)) is := by
  unfold refSince
  rw [sinceAfter_cons,
    sinceNext_of_neg _ (fun i => (Decoder.ofSpec g i).Is .REF) (fun i => (Decoder.ofSpec g i).Is .REF) h h]

/-- Loops with refreshes and delays that fit in five bits. -/
structure Refreshes (a : LoopArgs) : Prop where
  refreshOp : a.refreshOp = .REF
  tRFC : 1 ≤ a.timings.tRFC ∧ a.timings.tRFC ≤ 31
  tRAS : 1 ≤ a.timings.tRAS ∧ a.timings.tRAS ≤ 31
  tRP : 1 ≤ a.timings.tRP ∧ a.timings.tRP ≤ 31
  fits : a.timings.tRFC + (a.timings.tRAS + a.timings.tRP) ≤ a.timings.tREFI

section
variable (h : Refreshes a)
include h

theorem Refreshes.ref_is : (Decoder.ofSpec g a.ref).Is .REF := by
  rw [LoopArgs.ref, h.refreshOp]
  exact is_refresh (Or.inr rfl) _

theorem Refreshes.cycles_ref : (Decoder.ofSpec g a.ref).cycles = a.timings.tRFC := by
  have hcycles : (Decoder.ofSpec g a.ref).cycles = max 1 (a.timings.tRFC % 2 ^ 5) := by
    rw [LoopArgs.ref, h.refreshOp]
    exact cycles_dfi g rfl _ _
  have := h.tRFC
  omega

theorem Refreshes.cycles_row (row x : Nat) :
    x + (Decoder.ofSpec g (a.act row)).cycles + (Decoder.ofSpec g a.pre).cycles =
      x + (a.timings.tRAS + a.timings.tRP) := by
  rw [cycles_act, cycles_pre]
  have := h.tRAS
  have := h.tRP
  omega

theorem refGaps_row {m : Nat} (x row : Nat) (is : List I) : RefGaps g m (some x) (a.act row :: a.pre :: is) ↔
    RefGaps g m (some (x + (a.timings.tRAS + a.timings.tRP))) is := by
  rw [refGaps_other _ _ (not_is_of_is (by decide) (is_act row)), refGaps_other _ _ (not_is_of_is (by decide) is_pre),
    Option.map_some, Option.map_some, h.cycles_row]

theorem refSince_row (x row : Nat) (is : List I) : refSince g (some x) (a.act row :: a.pre :: is) =
    refSince g (some (x + (a.timings.tRAS + a.timings.tRP))) is := by
  rw [refSince_other _ _ (not_is_of_is (by decide) (is_act row)), refSince_other _ _ (not_is_of_is (by decide) is_pre),
    Option.map_some, Option.map_some, h.cycles_row]

/-- The rows of a pass keep the deadline, and leave the time that `sinceRef` says. -/
theorem refGaps_rows (rows : List Nat) : ∀ {accum x : Nat}, x ≤ accum → accum ≤ a.timings.tREFI →
    RefGaps g a.timings.tREFI (some x) (rowsCode a accum rows) ∧
      refSince g (some x) (rowsCode a accum rows) = some (a.timings.sinceRef accum x rows.length) := by
  have hfits := h.fits
  induction rows with
  | nil => intro accum x _ _; exact ⟨trivial, rfl⟩
  | cons row rows ih =>
    intro accum x hx haccum
    rw [rowsCode, List.length_cons]
    by_cases hd : a.timings.Due accum
    · rw [if_pos hd, List.singleton_append, refGaps_ref _ _ h.ref_is, refSince_ref _ _ h.ref_is, h.cycles_ref,
        refGaps_row h, refSince_row h, Timings.sinceRef_of_due _ hd, Timings.next, if_pos hd]
      obtain ⟨hw, hs⟩ := ih (le_refl (a.timings.tRFC + (a.timings.tRAS + a.timings.tRP))) hfits
      refine ⟨⟨?_, hw⟩, hs⟩
      intro n hn
      cases hn
      exact le_trans hx haccum
    · rw [if_neg hd, List.nil_append, refGaps_row h, refSince_row h,
        Timings.sinceRef_of_not_due _ hd, Timings.next, if_neg hd]
      have hle := mt (Timings.due_iff accum).mpr hd
      exact ih (by omega) (by omega)

/-- A pass, with its LOOP. -/
theorem refGaps_pass (unrolled c : Nat) (since : Option Nat) :
    (RefGaps g a.timings.tREFI since (Loop.code ⟨loopBody a unrolled, c⟩) ↔ ∀ n ∈ since, n ≤ a.timings.tREFI) ∧
      refSince g since (Loop.code ⟨loopBody a unrolled, c⟩) =
        some (a.timings.sinceRef (a.timings.tRFC + 1) a.timings.tRFC (unrolled * a.rowSequence.length) + 1) := by
  have hfits := h.fits
  have hras := h.tRAS
  have hjump : ¬ (Decoder.ofSpec g (Loop.jump ⟨loopBody a unrolled, c⟩)).Is .REF :=
    not_is_of_is (by decide) (is_loop g _ _)
  obtain ⟨hw, hs⟩ := refGaps_rows (g := g) h (List.replicate unrolled a.rowSequence).flatten
    (Nat.le_succ a.timings.tRFC) (by omega)
  rw [length_unrolled] at hs
  rw [Loop.code, loopBody, List.cons_append, refGaps_ref _ _ h.ref_is, refSince_ref _ _ h.ref_is, h.cycles_ref,
    refGaps_append, refSince_append, hs]
  refine ⟨and_iff_left ⟨hw, ?_⟩, ?_⟩
  · rw [refGaps_other _ _ (by exact hjump)]
    trivial
  · rw [refSince_other _ _ (by exact hjump), Loop.jump, cycles_loop]
    rfl

end

end Pass

/-! ## Whole payloads -/

namespace RowListArgs
variable {args : RowListArgs} {words : List Nat} {n₁ n₂ : Nat} {g : Geometry}

/-- The arguments for which a payload keeps the refresh deadline: it stops at once, or its passes are in time. -/
def RefreshesInTime (args : RowListArgs) : Prop :=
  args.lead % 2 ^ 29 = 0 ∨
    (args.readCount / args.reps ≠ 0 → args.timings.PassInTime (args.reps * args.rowSequence.length)) ∧
      (args.readCount % args.reps ≠ 0 → args.timings.PassInTime args.rowSequence.length)

section
variable (hr : args.refresh = true) (hras : args.timings.tRAS ≤ 31) (hrp : args.timings.tRP ≤ 31)
  (hrfc : args.timings.tRFC ≤ 31)
include hr hras hrp hrfc

/-- A payload with a loop has positive delays. -/
theorem refreshes_of_loops (hgen : Generated args words n₁ n₂) (hne : args.loops n₁ n₂ ≠ []) :
    Refreshes args.loopArgs := by
  have hop : args.loopArgs.refreshOp = .REF := refreshOp_eq_ref hr
  obtain ⟨u, hu, hok⟩ : ∃ u, 0 < u * args.rowSequence.length ∧ LoopOk args.loopArgs u := by
    by_cases hn : n₁ = 0
    · refine ⟨1, by rw [Nat.one_mul]; exact hgen.rows, hgen.single ?_⟩
      rintro rfl
      exact hne (by simp [loops, longLoop, hn])
    · exact ⟨args.reps, Nat.mul_pos hgen.reps hgen.rows, hgen.unrolled hn⟩
  have htRFC : args.timings.tRFC ≠ 0 := by
    rcases hok.refreshOp with h | h
    · rw [hop] at h
      cases h
    · exact h.2
  obtain ⟨htRAS, htRP⟩ := hok.timings hu
  rw [loopArgs_timings] at htRAS htRP
  exact ⟨hop, ⟨by simp only [loopArgs_timings]; omega, hrfc⟩, ⟨by simp only [loopArgs_timings]; omega, hras⟩,
    ⟨by simp only [loopArgs_timings]; omega, hrp⟩, hgen.fits⟩

/-- **When a payload keeps the refresh deadline.** -/
theorem refreshDeadline_visited (hgen : Generated args words n₁ n₂) :
    RefreshDeadline args.timings.tREFI ((args.visited n₁ n₂).map (Decoder.ofSpec g)) ↔ args.RefreshesInTime := by
  have hop : args.refreshOp = .REF := refreshOp_eq_ref hr
  have hnoop : ∀ t, ¬ (Decoder.ofSpec g (I.noop t)).Is .REF := fun t => not_is_of_is (by decide) (is_noop g t)
  have hwatch : ∀ is : List I, RefreshDeadline args.timings.tREFI (is.map (Decoder.ofSpec g)) ↔
      RefGaps g args.timings.tREFI none is := by
    intro is
    rw [RefreshDeadline, spaced_iff_watch _ _ _ _ (Or.inr fun _ h => h), watch_map]
    rfl
  rw [hwatch, visited, RefreshesInTime]
  split
  · next hlead =>
    rw [refGaps_other _ _ (hnoop _)]
    exact iff_of_true trivial (Or.inl hlead)
  · next hlead =>
    rw [if_neg (by rintro ⟨⟨h, -⟩, -⟩; rw [hr] at h; cases h), executed_eq, refGaps_other _ _ (hnoop _),
      Option.map_none,
      or_iff_right hlead]
    have hpasses : ∀ b ∈ Loop.passes (args.loops n₁ n₂), ∀ since : Option Nat,
        (RefGaps g args.timings.tREFI since b ↔ ∀ n ∈ since, n ≤ args.timings.tREFI) ∧
          refSince g since b = some ((refSince g none b).getD 0) := by
      intro b hb since
      obtain ⟨u, c, -, rfl⟩ := exists_of_mem_passes hgen hb
      have hR := refreshes_of_loops hr hras hrp hrfc hgen (by rintro h; rw [h] at hb; cases hb)
      refine ⟨(refGaps_pass hR u c since).1, ?_⟩
      rw [(refGaps_pass hR u c since).2, (refGaps_pass hR u c none).2]
      rfl
    have htail : ∀ since, RefGaps g args.timings.tREFI since [refreshI args.refreshOp 1, I.noop 0] ↔
        ∀ n ∈ since, n ≤ args.timings.tREFI := by
      intro since
      rw [hop, refGaps_ref _ _ (is_refresh (Or.inr rfl) 1), refGaps_other _ _ (hnoop 0)]
      exact and_iff_left trivial
    refine (watch_chain _ _ _ _ htail (fun b hb since => (hpasses b hb since).1)
      (fun b hb since => (hpasses b hb since).2)).trans ?_
    rw [and_iff_right (by simp)]
    by_cases hne : args.loops n₁ n₂ = []
    · have hzero := hgen.loops_eq_nil_iff.mp hne
      simp [hne, Loop.passes, hzero]
    · have hR := refreshes_of_loops hr hras hrp hrfc hgen hne
      apply forall_passes hgen
      intro u c _
      rw [(refGaps_pass hR u c none).2]
      exact Timings.passInTime_iff hgen.cycles hgen.fits _

/-- **The refresh deadline of a payload.** A returned payload runs to a STOP, and its consecutive refreshes, the last
one included, start at most tREFI cycles apart exactly when its arguments are of the kind `RefreshesInTime`. -/
theorem refresh_deadline_iff {mem : Nat → BitVec 32} (hok : generatePayloadFromRowList args = .ok words)
    (hmem : Loads mem words) :
    (∃ tr, Executes g mem tr) ∧ ∀ tr, Executes g mem tr →
      (RefreshDeadline args.timings.tREFI (tr.map Visit.instr) ↔ args.RefreshesInTime) := by
  obtain ⟨n₁, n₂, hgen⟩ := generated_of_ok hok
  obtain ⟨tr, htr, hmap⟩ := executes_visited (g := g) hgen hmem
  refine ⟨⟨tr, htr⟩, fun tr' htr' => ?_⟩
  rw [htr'.unique htr, hmap]
  exact refreshDeadline_visited hr hras hrp hrfc hgen

end

/-- Three rows, once. -/
def threeRows (tREFI : Nat) : RowListArgs :=
  { readCount := 1, rowSequence := [1, 2, 3], timings := ⟨5, 3, tREFI, 10⟩, bankbits := 3, bank := 0, nranks := 1,
    rank := 0, payloadMemSize := 1024, refresh := true }

def smallGeometry : Geometry := ⟨0, 3, 14, 10, Geometry.sample_fits⟩

theorem refresh_deadline_iff_threeRows : ∃ words tr, generatePayloadFromRowList (threeRows 27) = .ok words ∧
    Executes smallGeometry (loadWords words) tr ∧ RefreshDeadline 27 (tr.map Visit.instr) := by
  obtain ⟨words, hok⟩ := Py.exists_ok (x := generatePayloadFromRowList (threeRows 27)) (by decide +kernel)
  obtain ⟨⟨tr, htr⟩, hall⟩ := refresh_deadline_iff (g := smallGeometry) rfl (by decide) (by decide) (by decide) hok
    (loads_loadWords words)
  refine ⟨words, tr, hok, htr, (hall tr htr).mpr (Or.inr ⟨fun _ => ?_, fun _ => ?_⟩)⟩
  · rintro ⟨h, -⟩
    exact absurd h (by decide)
  · rintro ⟨h, -⟩
    exact absurd h (by decide)

/-- Two rows fit between refreshes of 26 cycles. After the refresh in front of the second row the third one ends at the
deadline, and the LOOP delays the last refresh to cycle 27. -/
theorem refresh_deadline_fails : ∃ words tr, generatePayloadFromRowList (threeRows 26) = .ok words ∧
    Executes smallGeometry (loadWords words) tr ∧ ¬ RefreshDeadline 26 (tr.map Visit.instr) := by
  obtain ⟨words, hok⟩ := Py.exists_ok (x := generatePayloadFromRowList (threeRows 26)) (by decide +kernel)
  obtain ⟨n₁, n₂, hgen⟩ := generated_of_ok hok
  obtain ⟨tr, htr, hmap⟩ := executes_visited (g := smallGeometry) hgen (loads_loadWords words)
  refine ⟨words, tr, hok, htr, ?_⟩
  rw [hmap]
  intro hdeadline
  rcases (refreshDeadline_visited rfl (by decide) (by decide) (by decide) hgen).mp hdeadline with h | ⟨-, h⟩
  · exact absurd h (by decide)
  · exact h (by decide) ⟨by decide, by decide, by decide⟩

end RowListArgs

end RowhammerTester.Playbook
