import RowhammerTester.Hdl.Trace
import RowhammerTester.Playbook.Execution

/-!
# The minimum delays of a generated payload

The encoder masks a command's timeslice to five bits, so a delay of 32 cycles or more is not waited for.

* `MeetsDelays t is` : the activate, precharge and refresh delays of an instruction trace;
* `DelaysFit args` : when they are met. Without refreshes the NOOPs in their place may fill a precharge delay that was
  cut off (`NoopsFill`);
* `meetsDelays_visited` : the delays are met exactly then.
-/

namespace RowhammerTester.Playbook
open RowhammerTester.Hdl RowhammerTester.Gateware Encoder Interp

/-- The delays between the commands of a trace: tRAS from an ACT to its PRE, tRP from a PRE to the next ACT or REF, tRFC
from a REF to the next ACT or REF. -/
def MeetsDelays (t : Timings) (is : List Decoder) : Prop :=
  Spaced Decoder.cycles (Decoder.Is .ACT) (Decoder.Is .PRE) (t.tRAS ≤ ·) is ∧
    Spaced Decoder.cycles (Decoder.Is .PRE) (fun i => i.Is .ACT ∨ i.Is .REF) (t.tRP ≤ ·) is ∧
    Spaced Decoder.cycles (Decoder.Is .REF) (fun i => i.Is .ACT ∨ i.Is .REF) (t.tRFC ≤ ·) is

namespace Timings
variable (t : Timings)

/-- The cycles a precharge waits. -/
def preCycles : Nat := max 1 (t.tRP % 2 ^ 5)

/-- The cycles of the NOOP that stands for a refresh. -/
def noopCycles : Nat := t.tRFC % 2 ^ 29

/-- Within a pass over `rows` rows, a NOOP fills the delay of every precharge before a further row. -/
def PassFills (rows : Nat) : Prop :=
  rows ≤ 1 ∨ t.tRP ≤ t.preCycles + t.noopCycles ∧ t.Due (t.next (t.tRFC + 1)) ∧
    (rows ≤ 2 ∨ t.Due (t.tRFC + (t.tRAS + t.tRP)))

/-- The cycles of the NOOPs in front of the first row of a pass. -/
def startCycles : Nat := t.noopCycles + if t.Due (t.tRFC + 1) then t.noopCycles else 0

/-- From one pass to the next, the LOOP and the NOOPs fill the delay of the last precharge. -/
def LoopFills : Prop := t.tRP ≤ t.preCycles + 1 + t.startCycles

end Timings

namespace RowListArgs

/-- Without refreshes, NOOPs fill every precharge delay. -/
def NoopsFill (args : RowListArgs) : Prop :=
  (args.readCount / args.reps ≠ 0 → args.timings.PassFills (args.reps * args.rowSequence.length)) ∧
    (args.readCount % args.reps ≠ 0 → args.timings.PassFills args.rowSequence.length) ∧
    (2 ≤ args.readCount / args.reps + args.readCount % args.reps → args.timings.LoopFills)

/-- The arguments for which a payload meets the delays: it stops before the first activation, or its delays fit in five
bits (those of the precharges only as far as no NOOP fills them). -/
def DelaysFit (args : RowListArgs) : Prop :=
  args.lead % 2 ^ 29 = 0 ∨ args.readCount = 0 ∨ args.refreshStops ∨
    (args.timings.tRAS ≤ 31 ∧ (args.refresh = true → args.timings.tRP ≤ 31 ∧ args.timings.tRFC ≤ 31) ∧
      (args.refresh = false → args.timings.tRP ≤ 31 ∨ args.NoopsFill))

end RowListArgs

/-! ## Precharge delays filled by NOOPs -/

section Fill
variable {g : Geometry} {a : LoopArgs}

/-- The check of the precharge delay on a list of specifications. -/
def PreGaps (g : Geometry) (tRP : Nat) (since : Option Nat) (is : List I) : Prop :=
  Watch (fun i => (Decoder.ofSpec g i).cycles) (fun i => (Decoder.ofSpec g i).Is .PRE)
    (fun i => (Decoder.ofSpec g i).Is .ACT ∨ (Decoder.ofSpec g i).Is .REF) (tRP ≤ ·) since is

/-- The cycles since the last precharge after a list of specifications. -/
def preSince (g : Geometry) (since : Option Nat) (is : List I) : Option Nat :=
  sinceAfter (fun i => (Decoder.ofSpec g i).cycles) (fun i => (Decoder.ofSpec g i).Is .PRE)
    (fun i => (Decoder.ofSpec g i).Is .ACT ∨ (Decoder.ofSpec g i).Is .REF) since is

theorem preGaps_append {tRP : Nat} (since : Option Nat) (is js : List I) :
    PreGaps g tRP since (is ++ js) ↔ PreGaps g tRP since is ∧ PreGaps g tRP (preSince g since is) js :=
  watch_append ..

theorem preSince_append (since : Option Nat) (is js : List I) :
    preSince g since (is ++ js) = preSince g (preSince g since is) js := sinceAfter_append ..

theorem preGaps_row {tRP : Nat} (since : Option Nat) (row : Nat) (is : List I) :
    PreGaps g tRP since (a.act row :: a.pre :: is) ↔
      (∀ n ∈ since, tRP ≤ n) ∧ PreGaps g tRP (some a.timings.preCycles) is := by
  unfold PreGaps
  rw [watch_cons, watch_cons, sinceNext_of_pos _ (fun i => (Decoder.ofSpec g i).Is .PRE) _ is_pre, cycles_pre]
  constructor
  · rintro ⟨hact, -, hrest⟩
    exact ⟨hact (Or.inl (is_act row)), hrest⟩
  · rintro ⟨hact, hrest⟩
    refine ⟨fun _ => hact, ?_, hrest⟩
    rintro (h | h)
    · exact absurd h (not_is_of_is (by decide) is_pre)
    · exact absurd h (not_is_of_is (by decide) is_pre)

theorem preSince_row (since : Option Nat) (row : Nat) (is : List I) :
    preSince g since (a.act row :: a.pre :: is) = preSince g (some a.timings.preCycles) is := by
  unfold preSince
  rw [sinceAfter_cons, sinceAfter_cons, sinceNext_of_pos _ (fun i => (Decoder.ofSpec g i).Is .PRE) _ is_pre, cycles_pre]
  rfl

theorem idle_not_is {i : I} (h : ¬ (Decoder.ofSpec g i).IsCommand) :
    ¬ (Decoder.ofSpec g i).Is .PRE ∧ ¬ ((Decoder.ofSpec g i).Is .ACT ∨ (Decoder.ofSpec g i).Is .REF) := by
  refine ⟨fun hp => h (command_of_is rfl hp), ?_⟩
  rintro (hq | hq)
  · exact h (command_of_is rfl hq)
  · exact h (command_of_is rfl hq)

/-- An instruction that is no command lets time pass. -/
theorem preGaps_idle {tRP : Nat} (since : Option Nat) {i : I} (is : List I) (h : ¬ (Decoder.ofSpec g i).IsCommand) :
    PreGaps g tRP since (i :: is) ↔ PreGaps g tRP (since.map (· + (Decoder.ofSpec g i).cycles)) is := by
  obtain ⟨hp, hq⟩ := idle_not_is h
  unfold PreGaps
  rw [watch_cons, sinceNext_of_neg _ (fun i => (Decoder.ofSpec g i).Is .PRE)
    (fun i => (Decoder.ofSpec g i).Is .ACT ∨ (Decoder.ofSpec g i).Is .REF) hp hq]
  exact and_iff_right fun h => absurd h hq

theorem preSince_idle (since : Option Nat) {i : I} (is : List I) (h : ¬ (Decoder.ofSpec g i).IsCommand) :
    preSince g since (i :: is) = preSince g (since.map (· + (Decoder.ofSpec g i).cycles)) is := by
  obtain ⟨hp, hq⟩ := idle_not_is h
  unfold preSince
  rw [sinceAfter_cons, sinceNext_of_neg _ (fun i => (Decoder.ofSpec g i).Is .PRE)
    (fun i => (Decoder.ofSpec g i).Is .ACT ∨ (Decoder.ofSpec g i).Is .REF) hp hq]

section Noop
variable (hop : a.refreshOp = .NOOP) (hz : a.timings.noopCycles ≠ 0)
include hop

theorem ref_idle : ¬ (Decoder.ofSpec g a.ref).IsCommand := by
  rw [LoopArgs.ref, hop]
  exact fun h => h.1 (is_noop g _)

include hz

theorem cycles_ref : (Decoder.ofSpec g a.ref).cycles = a.timings.noopCycles := by
  rw [LoopArgs.ref, hop, refreshI, if_pos rfl, cycles_noop]
  unfold Timings.noopCycles at hz ⊢
  omega

/-- The next row: the last precharge must be long enough ago, counting the NOOP in front of the row if there is one. -/
theorem preGaps_rows {tRP accum row : Nat} {rows : List Nat} (since : Option Nat) :
    PreGaps g tRP since (rowsCode a accum (row :: rows)) ↔
      (∀ n ∈ since, tRP ≤ n + if a.timings.Due accum then a.timings.noopCycles else 0) ∧
        PreGaps g tRP (some a.timings.preCycles) (rowsCode a (a.timings.next accum) rows) := by
  rw [rowsCode]
  split
  · rw [List.singleton_append, preGaps_idle _ _ (ref_idle hop), preGaps_row, cycles_ref hop hz]
    simp
  · rw [List.nil_append, preGaps_row]
    simp

omit hz in
theorem preSince_rows {rows : List Nat} : ∀ {accum : Nat} (since : Option Nat), rows ≠ [] →
    preSince g since (rowsCode a accum rows) = some a.timings.preCycles := by
  induction rows with
  | nil => intro accum since h; exact absurd rfl h
  | cons row rows ih =>
    intro accum since _
    have hrow : preSince g since (rowsCode a accum (row :: rows)) =
        preSince g (some a.timings.preCycles) (rowsCode a (a.timings.next accum) rows) := by
      rw [rowsCode]
      split
      · rw [List.singleton_append, preSince_idle _ _ (ref_idle hop), preSince_row]
      · rw [List.nil_append, preSince_row]
    rw [hrow]
    cases rows with
    | nil => rfl
    | cons row' rows => exact ih _ (by simp)

/-- Once a precharge is behind, every further row needs the NOOP. -/
theorem preGaps_rest (hlong : a.timings.preCycles < a.timings.tRP) (rows : List Nat) : ∀ accum : Nat,
    PreGaps g a.timings.tRP (some a.timings.preCycles) (rowsCode a accum rows) ↔
      rows.length = 0 ∨ a.timings.tRP ≤ a.timings.preCycles + a.timings.noopCycles ∧ a.timings.Due accum ∧
        (rows.length ≤ 1 ∨ a.timings.Due (a.timings.tRFC + (a.timings.tRAS + a.timings.tRP))) := by
  induction rows with
  | nil =>
    intro accum
    simp [rowsCode, PreGaps]
  | cons row rows ih =>
    intro accum
    rw [preGaps_rows hop hz, ih]
    by_cases hd : a.timings.Due accum
    · simp only [hd, Timings.next, if_true, Option.mem_def, Option.some.injEq, forall_eq', List.length_cons, true_and]
      constructor
      · rintro ⟨h, h' | ⟨-, hdue, -⟩⟩
        · exact Or.inr ⟨h, Or.inl (by omega)⟩
        · exact Or.inr ⟨h, Or.inr hdue⟩
      · rintro (h | ⟨h, h' | hdue⟩)
        · omega
        · exact ⟨h, Or.inl (by omega)⟩
        · exact ⟨h, Or.inr ⟨h, hdue, Or.inr hdue⟩⟩
    · simp only [hd, if_false, Option.mem_def, Option.some.injEq, forall_eq', List.length_cons, false_and, and_false,
        or_false, Nat.add_zero]
      constructor
      · rintro ⟨h, -⟩
        omega
      · intro h
        omega

/-- When a pass entered at `since` meets the precharge delays. -/
theorem preGaps_pass (hlong : a.timings.preCycles < a.timings.tRP) {unrolled c : Nat}
    (hrows : 0 < unrolled * a.rowSequence.length) (since : Option Nat) :
    PreGaps g a.timings.tRP since (Loop.code ⟨loopBody a unrolled, c⟩) ↔
      (∀ n ∈ since, a.timings.tRP ≤ n + a.timings.startCycles) ∧
        a.timings.PassFills (unrolled * a.rowSequence.length) := by
  have hjump : ¬ (Decoder.ofSpec g (Loop.jump ⟨loopBody a unrolled, c⟩)).IsCommand := fun h => h.2 (is_loop g _ _)
  have hlast : ∀ since', PreGaps g a.timings.tRP since' [Loop.jump ⟨loopBody a unrolled, c⟩] := by
    intro since'
    rw [preGaps_idle _ _ hjump]
    trivial
  rw [← length_unrolled] at hrows ⊢
  obtain ⟨row, rows, hcons⟩ := List.exists_cons_of_length_pos hrows
  rw [Loop.code, preGaps_append, and_iff_left (hlast _), loopBody, preGaps_idle _ _ (ref_idle hop), cycles_ref hop hz,
    hcons, preGaps_rows hop hz, preGaps_rest hop hz hlong, Timings.PassFills, List.length_cons]
  refine and_congr (by simp [Timings.startCycles, Nat.add_assoc]) ?_
  constructor
  · rintro (h | ⟨h, hd, hlen⟩)
    · exact Or.inl (by omega)
    · exact Or.inr ⟨h, hd, hlen.imp_left (by omega)⟩
  · rintro (h | ⟨h, hd, hlen⟩)
    · exact Or.inl (by omega)
    · exact Or.inr ⟨h, hd, hlen.imp_left (by omega)⟩

omit hz in
theorem preSince_pass {unrolled c : Nat} (hrows : 0 < unrolled * a.rowSequence.length) (since : Option Nat) :
    preSince g since (Loop.code ⟨loopBody a unrolled, c⟩) = some (a.timings.preCycles + 1) := by
  have hjump : ¬ (Decoder.ofSpec g (Loop.jump ⟨loopBody a unrolled, c⟩)).IsCommand := fun h => h.2 (is_loop g _ _)
  rw [← length_unrolled] at hrows
  have hbody : preSince g since (loopBody a unrolled) = some a.timings.preCycles := by
    rw [loopBody, preSince_idle _ _ (ref_idle hop), preSince_rows hop _ (List.ne_nil_of_length_pos hrows)]
  rw [Loop.code, preSince_append, hbody, preSince_idle _ _ hjump, Loop.jump, cycles_loop]
  rfl

end Noop

end Fill

/-! ## Whole payloads -/

namespace RowListArgs
variable {args : RowListArgs} {words : List Nat} {n₁ n₂ : Nat} {g : Geometry}

/-- A delay is met if every event that starts it is long enough by itself. -/
theorem spaced_of_forall {P Q : Decoder → Prop} [DecidablePred P] [DecidablePred Q] {m : Nat} {is : List Decoder}
    (h : ∀ i ∈ is, P i → m ≤ i.cycles) : Spaced Decoder.cycles P Q (m ≤ ·) is :=
  (spaced_iff_watch _ _ _ _ (Or.inl fun _ _ hab ha => le_trans ha hab)).mpr
    (watch_of_forall _ _ _ _ (fun _ _ hab ha => le_trans ha hab) h (by simp)).1

/-- The first pass of a payload. -/
theorem executed_start (hgen : Generated args words n₁ n₂) (hne : args.readCount ≠ 0) :
    ∃ mid row post, (mid = [] ∨ mid = [args.loopArgs.ref]) ∧ args.executed n₁ n₂ =
      I.noop args.lead :: args.loopArgs.ref :: (mid ++ args.loopArgs.act row :: args.loopArgs.pre :: post) := by
  obtain ⟨b, bs, hbs⟩ := List.exists_cons_of_ne_nil (hgen.passes_ne_nil hne)
  obtain ⟨u, c, hu, rfl⟩ := exists_of_mem_passes hgen (hbs ▸ List.mem_cons_self ..)
  obtain ⟨mid, row, post, hmid, hpass⟩ := pass_start args.loopArgs hu c
  refine ⟨mid, row, post ++ (bs.flatten ++ [refreshI args.refreshOp 1, I.noop 0]), hmid, ?_⟩
  rw [executed_eq, hbs, List.flatten_cons, hpass]
  simp

/-- The last pass of a payload. -/
theorem executed_end (hgen : Generated args words n₁ n₂) (hne : args.readCount ≠ 0) :
    ∃ init count jump, args.executed n₁ n₂ =
      init ++ args.loopArgs.pre :: ([I.loop count jump] ++ refreshI args.refreshOp 1 :: [I.noop 0]) := by
  obtain ⟨bs, b, hbs⟩ := List.eq_nil_or_concat _ |>.resolve_left (hgen.passes_ne_nil hne)
  obtain ⟨u, c, hu, rfl⟩ := exists_of_mem_passes hgen (b := b) (by rw [hbs]; simp)
  obtain ⟨init, hpass⟩ := pass_end args.loopArgs hu c
  refine ⟨I.noop args.lead :: (bs.flatten ++ init), c, (loopBody args.loopArgs u).length, ?_⟩
  rw [executed_eq, hbs, List.concat_eq_append, List.flatten_append, List.flatten_singleton, hpass]
  simp

/-- The instructions of a payload. -/
theorem forall_executed (hgen : Generated args words n₁ n₂) {X : Decoder → Prop}
    (hnoop : ∀ t, X (Decoder.ofSpec g (I.noop t))) (hloop : ∀ c j, X (Decoder.ofSpec g (I.loop c j)))
    (href : ∀ t, X (Decoder.ofSpec g (refreshI args.refreshOp t)))
    (hact : args.readCount ≠ 0 → ∀ row, X (Decoder.ofSpec g (args.loopArgs.act row)))
    (hpre : args.readCount ≠ 0 → X (Decoder.ofSpec g args.loopArgs.pre)) :
    ∀ i ∈ (args.executed n₁ n₂).map (Decoder.ofSpec g), X i := by
  rw [executed_eq]
  simp only [List.map_cons, List.map_append, List.map_nil, List.forall_mem_cons, List.forall_mem_append]
  refine ⟨hnoop _, ?_, href _, hnoop _, by simp⟩
  rw [List.forall_mem_map]
  intro i hi
  have hne := hgen.readCount_ne_zero hi
  rcases mem_passes hgen hi with rfl | ⟨row, rfl⟩ | rfl | ⟨c, j, rfl⟩
  · exact href _
  · exact hact hne row
  · exact hpre hne
  · exact hloop c j

theorem not_is_refresh {op : OpCode} (h : op ≠ .NOOP) (h' : op ≠ .REF) (t : Nat) :
    ¬ (Decoder.ofSpec g (refreshI args.refreshOp t)).Is op := by
  refine not_is_of_is ?_ (is_refresh args.refreshOp_cases t)
  rcases args.refreshOp_cases with hop | hop <;> rw [hop]
  · exact h.symm
  · exact h'.symm

/-- The activate delay. -/
theorem spaced_act (hgen : Generated args words n₁ n₂) {Q : Decoder → Prop} [DecidablePred Q]
    (h : args.readCount = 0 ∨ args.timings.tRAS ≤ 31) :
    Spaced Decoder.cycles (Decoder.Is .ACT) Q (args.timings.tRAS ≤ ·)
      ((args.executed n₁ n₂).map (Decoder.ofSpec g)) := by
  apply spaced_of_forall
  apply forall_executed (X := fun i => i.Is .ACT → args.timings.tRAS ≤ i.cycles) hgen
  · exact fun t hi => absurd hi (not_is_of_is (by decide) (is_noop g t))
  · exact fun c j hi => absurd hi (not_is_of_is (by decide) (is_loop g c j))
  · exact fun t hi => absurd hi (not_is_refresh (by decide) (by decide) t)
  · intro hne row _
    rw [cycles_act, loopArgs_timings]
    omega
  · exact fun _ hi => absurd hi (not_is_of_is (by decide) is_pre)

theorem le_of_spaced_act (hgen : Generated args words n₁ n₂) (hne : args.readCount ≠ 0)
    (h : Spaced Decoder.cycles (Decoder.Is .ACT) (Decoder.Is .PRE) (args.timings.tRAS ≤ ·)
      ((args.executed n₁ n₂).map (Decoder.ofSpec g))) : args.timings.tRAS ≤ 31 := by
  obtain ⟨mid, row, post, -, hexec⟩ := executed_start hgen hne
  rw [hexec, ← List.cons_append, ← List.cons_append, List.map_append, List.map_cons, List.map_cons] at h
  have := h.adjacent _ _ _ _ (is_act row) is_pre
  rw [cycles_act, loopArgs_timings] at this
  omega

/-- The precharge delay, when it fits in five bits. -/
theorem spaced_pre (hgen : Generated args words n₁ n₂) {Q : Decoder → Prop} [DecidablePred Q]
    (h : args.readCount = 0 ∨ args.timings.tRP ≤ 31) :
    Spaced Decoder.cycles (Decoder.Is .PRE) Q (args.timings.tRP ≤ ·)
      ((args.executed n₁ n₂).map (Decoder.ofSpec g)) := by
  apply spaced_of_forall
  apply forall_executed (X := fun i => i.Is .PRE → args.timings.tRP ≤ i.cycles) hgen
  · exact fun t hi => absurd hi (not_is_of_is (by decide) (is_noop g t))
  · exact fun c j hi => absurd hi (not_is_of_is (by decide) (is_loop g c j))
  · exact fun t hi => absurd hi (not_is_refresh (by decide) (by decide) t)
  · exact fun _ row hi => absurd hi (not_is_of_is (by decide) (is_act row))
  · intro hne _
    rw [cycles_pre, loopArgs_timings]
    omega

/-- With refreshes the last precharge is followed by a REF behind the LOOP. -/
theorem le_of_spaced_pre (hgen : Generated args words n₁ n₂) (hne : args.readCount ≠ 0) (hr : args.refresh = true)
    (h : Spaced Decoder.cycles (Decoder.Is .PRE) (fun i => i.Is .ACT ∨ i.Is .REF) (args.timings.tRP ≤ ·)
      ((args.executed n₁ n₂).map (Decoder.ofSpec g))) : args.timings.tRP ≤ 31 := by
  obtain ⟨init, c, j, hexec⟩ := executed_end hgen hne
  rw [hexec, List.map_append, List.map_cons, List.map_append, List.map_singleton, List.map_cons] at h
  have hsync : (Decoder.ofSpec g (refreshI args.refreshOp 1)).Is .REF := by
    rw [refreshOp_eq_ref hr]
    exact is_refresh (Or.inr rfl) 1
  have := h _ _ _ _ _ rfl is_pre (Or.inr hsync) (by
    intro i hi
    rw [List.mem_singleton.mp hi]
    rintro (hi | hi)
    · exact absurd hi (not_is_of_is (by decide) (is_loop g c j))
    · exact absurd hi (not_is_of_is (by decide) (is_loop g c j)))
  simp only [duration_cons, duration_nil, cycles_pre, cycles_loop, loopArgs_timings] at this
  omega

theorem is_ref (hr : args.refresh = true) : (Decoder.ofSpec g args.loopArgs.ref).Is .REF := by
  rw [LoopArgs.ref, show args.loopArgs.refreshOp = .REF from refreshOp_eq_ref hr]
  exact is_refresh (Or.inr rfl) _

theorem cycles_ref_dfi (hr : args.refresh = true) :
    (Decoder.ofSpec g args.loopArgs.ref).cycles = max 1 (args.timings.tRFC % 2 ^ 5) := by
  rw [LoopArgs.ref, show args.loopArgs.refreshOp = .REF from refreshOp_eq_ref hr]
  exact cycles_dfi g rfl _ _

/-- The refresh delay. -/
theorem spaced_ref (hgen : Generated args words n₁ n₂)
    (h : args.readCount = 0 ∨ args.refresh = false ∨ args.timings.tRFC ≤ 31) :
    Spaced Decoder.cycles (Decoder.Is .REF) (fun i => i.Is .ACT ∨ i.Is .REF) (args.timings.tRFC ≤ ·)
      ((args.executed n₁ n₂).map (Decoder.ofSpec g)) := by
  have hmono : ∀ x y : Nat, x ≤ y → args.timings.tRFC ≤ x → args.timings.tRFC ≤ y := fun _ _ hxy hx => le_trans hx hxy
  rw [spaced_iff_watch _ _ _ _ (Or.inl hmono), executed_eq, List.map_cons, List.map_append, ← List.cons_append,
    ← List.map_cons, watch_append]
  -- the last REF is short, but only the STOP follows it
  have hlong : ∀ i ∈ (I.noop args.lead :: (Loop.passes (args.loops n₁ n₂)).flatten).map (Decoder.ofSpec g),
      i.Is .REF → args.timings.tRFC ≤ i.cycles := by
    rw [List.forall_mem_map]
    intro i hi hisRef
    rcases List.mem_cons.mp hi with rfl | hi
    · exact absurd hisRef (not_is_of_is (by decide) (is_noop g _))
    · have hne := hgen.readCount_ne_zero hi
      rcases mem_passes hgen hi with rfl | ⟨row, rfl⟩ | rfl | ⟨c, j, rfl⟩
      · cases hr : args.refresh with
        | true =>
          rw [cycles_ref_dfi hr]
          simp only [hne, hr, Bool.true_eq_false, false_or] at h
          omega
        | false =>
          rw [LoopArgs.ref, show args.loopArgs.refreshOp = .NOOP from refreshOp_eq_noop hr] at hisRef
          exact absurd hisRef (not_is_of_is (by decide) (is_noop g _))
      · exact absurd hisRef (not_is_of_is (by decide) (is_act row))
      · exact absurd hisRef (not_is_of_is (by decide) is_pre)
      · exact absurd hisRef (not_is_of_is (by decide) (is_loop g c j))
  have hnone : ∀ n ∈ (none : Option Nat), args.timings.tRFC ≤ n := by simp
  obtain ⟨hw, hsince⟩ := watch_of_forall _ _ (fun i => i.Is .ACT ∨ i.Is .REF) _ hmono hlong hnone
  refine ⟨hw, fun _ => hsince, ?_, trivial⟩
  rintro (hi | hi)
  · exact absurd hi (not_is_of_is (by decide) (is_noop g 0))
  · exact absurd hi (not_is_of_is (by decide) (is_noop g 0))

theorem le_of_spaced_ref (hgen : Generated args words n₁ n₂) (hne : args.readCount ≠ 0) (hr : args.refresh = true)
    (h : Spaced Decoder.cycles (Decoder.Is .REF) (fun i => i.Is .ACT ∨ i.Is .REF) (args.timings.tRFC ≤ ·)
      ((args.executed n₁ n₂).map (Decoder.ofSpec g))) : args.timings.tRFC ≤ 31 := by
  obtain ⟨mid, row, post, hmid, hexec⟩ := executed_start hgen hne
  have hadj : args.timings.tRFC ≤ (Decoder.ofSpec g args.loopArgs.ref).cycles := by
    rw [hexec, List.map_cons, List.map_cons, ← List.singleton_append] at h
    rcases hmid with rfl | rfl
    · exact h.adjacent _ _ _ _ (is_ref hr) (Or.inl (is_act row))
    · exact h.adjacent _ _ _ _ (is_ref hr) (Or.inr (is_ref hr))
  rw [cycles_ref_dfi hr] at hadj
  omega

/-- The precharge delay without refreshes, when it does not fit in five bits. -/
theorem spaced_pre_iff_noopsFill (hgen : Generated args words n₁ n₂) (hr : args.refresh = false)
    (hz : args.timings.noopCycles ≠ 0) (hlong : args.timings.preCycles < args.timings.tRP) :
    Spaced Decoder.cycles (Decoder.Is .PRE) (fun i => i.Is .ACT ∨ i.Is .REF) (args.timings.tRP ≤ ·)
      ((args.executed n₁ n₂).map (Decoder.ofSpec g)) ↔ args.NoopsFill := by
  have hop : args.refreshOp = .NOOP := refreshOp_eq_noop hr
  have hidle : ∀ t, ¬ (Decoder.ofSpec g (I.noop t)).IsCommand := fun t h => h.1 (is_noop g t)
  have hpass : ∀ b ∈ Loop.passes (args.loops n₁ n₂), ∀ since : Option Nat, preSince g since b =
      some (args.timings.preCycles + 1) ∧ (PreGaps g args.timings.tRP since b ↔
        (∀ n ∈ since, args.timings.tRP ≤ n + args.timings.startCycles) ∧ PreGaps g args.timings.tRP none b) := by
    intro b hb since
    obtain ⟨u, c, hu, rfl⟩ := exists_of_mem_passes hgen hb
    refine ⟨preSince_pass (a := args.loopArgs) hop hu since, ?_⟩
    have h₀ := preGaps_pass (a := args.loopArgs) (g := g) (c := c) hop hz hlong hu none
    have h₁ := preGaps_pass (a := args.loopArgs) (g := g) (c := c) hop hz hlong hu since
    simp only [loopArgs_timings] at h₀ h₁
    rw [h₁, h₀]
    simp
  rw [spaced_iff_watch _ _ _ _ (Or.inl fun _ _ hab ha => le_trans ha hab), watch_map]
  change PreGaps g args.timings.tRP none (args.executed n₁ n₂) ↔ _
  have htail : ∀ since, PreGaps g args.timings.tRP since [refreshI args.refreshOp 1, I.noop 0] := by
    intro since
    rw [hop, refreshI, if_pos rfl, preGaps_idle _ _ (hidle 1), preGaps_idle _ _ (hidle 0)]
    trivial
  rw [executed_eq, preGaps_idle _ _ (hidle _), preGaps_append, and_iff_left (htail _), Option.map_none]
  have hflat := watch_flatten (fun i => (Decoder.ofSpec g i).cycles) (fun i => (Decoder.ofSpec g i).Is .PRE)
    (fun i => (Decoder.ofSpec g i).Is .ACT ∨ (Decoder.ofSpec g i).Is .REF) (args.timings.tRP ≤ ·)
    (X := PreGaps g args.timings.tRP none) (L := args.timings.LoopFills)
    (M := True) (fun b _ => (true_and _).symm ▸ Iff.rfl)
    (fun b hb => (hpass b hb (some (args.timings.preCycles + 1))).2.trans (by simp [Timings.LoopFills]))
    (fun b hb => (hpass b hb none).1) (fun b hb => (hpass b hb _).1)
  refine hflat.trans ?_
  rw [two_le_length_passes hgen, forall_passes hgen (Y := args.timings.PassFills)]
  · simp [NoopsFill, and_assoc]
  · intro u c hu
    have h₀ := preGaps_pass (a := args.loopArgs) (g := g) (c := c) hop hz hlong hu none
    simp only [loopArgs_timings] at h₀
    rw [h₀]
    simp [loopArgs]

/-- The precharge delay without refreshes. -/
theorem spaced_pre_iff (hgen : Generated args words n₁ n₂) (hr : args.refresh = false) (href : ¬ args.refreshStops) :
    Spaced Decoder.cycles (Decoder.Is .PRE) (fun i => i.Is .ACT ∨ i.Is .REF) (args.timings.tRP ≤ ·)
      ((args.executed n₁ n₂).map (Decoder.ofSpec g)) ↔ args.timings.tRP ≤ 31 ∨ args.NoopsFill := by
  by_cases hle : args.timings.tRP ≤ 31
  · exact iff_of_true (spaced_pre hgen (Or.inr hle)) (Or.inl hle)
  · have hz : args.timings.noopCycles ≠ 0 := fun hz => href ⟨hr, hz⟩
    have hlong : args.timings.preCycles < args.timings.tRP := by
      unfold Timings.preCycles
      omega
    rw [or_iff_right hle]
    exact spaced_pre_iff_noopsFill hgen hr hz hlong

/-- A trace without commands meets every delay. -/
theorem meetsDelays_of_idle {t : Timings} {is : List Decoder} (h : ∀ i ∈ is, ¬ i.IsCommand) : MeetsDelays t is := by
  refine ⟨?_, ?_, ?_⟩
  all_goals
    apply spaced_of_forall
    exact fun i hi hop => absurd (command_of_is rfl hop) (h i hi)

/-- **When a payload meets its delays.** -/
theorem meetsDelays_visited (hgen : Generated args words n₁ n₂) :
    MeetsDelays args.timings ((args.visited n₁ n₂).map (Decoder.ofSpec g)) ↔ args.DelaysFit := by
  have hidle : ∀ t, ¬ (Decoder.ofSpec g (I.noop t)).IsCommand := fun t h => h.1 (is_noop g t)
  unfold visited
  split
  · next hlead =>
    refine iff_of_true (meetsDelays_of_idle ?_) (Or.inl hlead)
    simpa using hidle args.lead
  · next hlead =>
    split
    · next hstop =>
      have hop : args.loopArgs.refreshOp = .NOOP := refreshOp_eq_noop hstop.1.1
      refine iff_of_true (meetsDelays_of_idle ?_) (Or.inr (Or.inr (Or.inl hstop.1)))
      simpa using ⟨hidle args.lead, ref_idle hop⟩
    · next hstop =>
      by_cases hne : args.readCount = 0
      · refine iff_of_true ⟨?_, ?_, ?_⟩ (Or.inr (Or.inl hne))
        · exact spaced_act hgen (Or.inl hne)
        · exact spaced_pre hgen (Or.inl hne)
        · exact spaced_ref hgen (Or.inl hne)
      · have href : ¬ args.refreshStops := fun h => hstop ⟨h, mt hgen.loops_eq_nil_iff.mp hne⟩
        rw [DelaysFit, or_iff_right hlead, or_iff_right hne, or_iff_right href]
        constructor
        · rintro ⟨hact, hpre, hrfc⟩
          refine ⟨le_of_spaced_act hgen hne hact, fun hr => ?_, fun hr => ?_⟩
          · exact ⟨le_of_spaced_pre hgen hne hr hpre, le_of_spaced_ref hgen hne hr hrfc⟩
          · exact (spaced_pre_iff hgen hr href).mp hpre
        · rintro ⟨hact, href', hpre⟩
          refine ⟨spaced_act hgen (Or.inr hact), ?_, ?_⟩
          · cases hr : args.refresh with
            | true => exact spaced_pre hgen (Or.inr (href' hr).1)
            | false => exact (spaced_pre_iff hgen hr href).mpr (hpre hr)
          · cases hr : args.refresh with
            | true => exact spaced_ref hgen (Or.inr (Or.inr (href' hr).2))
            | false => exact spaced_ref hgen (Or.inr (Or.inl hr))

/-- **The delays of a payload.** A returned payload runs to a STOP, and its commands keep tRAS, tRP and tRFC exactly
when its arguments are of the kind `DelaysFit`. -/
theorem delays_met_iff {mem : Nat → BitVec 32} (hok : generatePayloadFromRowList args = .ok words)
    (hmem : Loads mem words) :
    (∃ tr, Executes g mem tr) ∧
      ∀ tr, Executes g mem tr → (MeetsDelays args.timings (tr.map Visit.instr) ↔ args.DelaysFit) := by
  obtain ⟨n₁, n₂, hgen⟩ := generated_of_ok hok
  obtain ⟨tr, htr, hmap⟩ := executes_visited (g := g) hgen hmem
  refine ⟨⟨tr, htr⟩, fun tr' htr' => ?_⟩
  rw [htr'.unique htr, hmap]
  exact meetsDelays_visited hgen

/-- The ten rows of the documentation's minimal row list, with its timings. -/
def tenRows (refresh : Bool) (tRFC : Nat) : RowListArgs :=
  { readCount := 10, rowSequence := [0, 2, 4, 6, 14, 12, 10, 8, 16, 18], timings := ⟨5, 3, 782, tRFC⟩, bankbits := 3,
    bank := 0, nranks := 1, rank := 0, payloadMemSize := 1024, refresh := refresh }

def oneRank : Geometry := ⟨0, 3, 14, 10, Geometry.sample_fits⟩

theorem delays_met_iff_tenRows : ∃ words tr, generatePayloadFromRowList (tenRows true 31) = .ok words ∧
    Executes oneRank (loadWords words) tr ∧ MeetsDelays (tenRows true 31).timings (tr.map Visit.instr) := by
  obtain ⟨words, hok⟩ := Py.exists_ok (x := generatePayloadFromRowList (tenRows true 31)) (by decide +kernel)
  obtain ⟨⟨tr, htr⟩, hall⟩ := delays_met_iff (g := oneRank) hok (loads_loadWords words)
  refine ⟨words, tr, hok, htr, (hall tr htr).mpr ?_⟩
  exact Or.inr (Or.inr (Or.inr ⟨by decide, fun _ => ⟨by decide, by decide⟩, fun h => absurd h (by decide)⟩))

/-- The documentation's own tRFC of 32 cycles is not kept: it is masked to 0. -/
theorem delays_fail : ∃ words tr, generatePayloadFromRowList (tenRows true 32) = .ok words ∧
    Executes oneRank (loadWords words) tr ∧ ¬ MeetsDelays (tenRows true 32).timings (tr.map Visit.instr) := by
  obtain ⟨words, hok⟩ := Py.exists_ok (x := generatePayloadFromRowList (tenRows true 32)) (by decide +kernel)
  obtain ⟨n₁, n₂, hgen⟩ := generated_of_ok hok
  obtain ⟨tr, htr, hmap⟩ := executes_visited (g := oneRank) hgen (loads_loadWords words)
  refine ⟨words, tr, hok, htr, ?_⟩
  rw [hmap, meetsDelays_visited hgen]
  rintro (h | h | h | ⟨-, h, -⟩)
  · exact absurd h (by decide)
  · exact absurd h (by decide)
  · exact absurd h.1 (by decide)
  · exact absurd (h rfl).2 (by decide)

end RowListArgs

end RowhammerTester.Playbook
