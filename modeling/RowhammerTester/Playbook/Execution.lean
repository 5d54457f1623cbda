import RowhammerTester.Playbook.Payload

/-!
# Executing a generated payload

* `executed args n₁ n₂` : the instructions of a run that no STOP ends early;
* `visited args n₁ n₂` : the instructions of a run, whatever the timings;
* `executes_visited` : a loaded payload runs through `visited`.
-/

namespace RowhammerTester.Playbook
open RowhammerTester.Gateware Encoder Interp

/-! ## Decoded instructions -/

section Decoded
variable {g : Geometry} {a : LoopArgs}

theorem is_act (row : Nat) : (Decoder.ofSpec g (a.act row)).Is .ACT := is_dfi g rfl _ _

theorem is_pre : (Decoder.ofSpec g a.pre).Is .PRE := is_dfi g rfl _ _

theorem is_refresh {op : OpCode} (h : op = .NOOP ∨ op = .REF) (timeslice : Nat) :
    (Decoder.ofSpec g (refreshI op timeslice)).Is op := by
  rcases h with rfl | rfl
  · exact is_noop g timeslice
  · exact is_dfi g rfl timeslice none

theorem cycles_act (row : Nat) : (Decoder.ofSpec g (a.act row)).cycles = max 1 (a.timings.tRAS % 2 ^ 5) :=
  cycles_dfi g rfl _ _

theorem cycles_pre : (Decoder.ofSpec g a.pre).cycles = max 1 (a.timings.tRP % 2 ^ 5) := cycles_dfi g rfl _ _

end Decoded

@[simp] theorem RowListArgs.loopArgs_timings (args : RowListArgs) : args.loopArgs.timings = args.timings := rfl

theorem RowListArgs.refreshOp_cases (args : RowListArgs) : args.refreshOp = .NOOP ∨ args.refreshOp = .REF := by
  unfold refreshOp
  cases args.refresh <;> simp

namespace RowListArgs
variable {args : RowListArgs} {words : List Nat} {n₁ n₂ : Nat} {g : Geometry} {mem : Nat → BitVec 32}

/-- The refresh instruction of the loops is a NOOP whose length is masked to 0, a STOP. -/
def refreshStops (args : RowListArgs) : Prop := args.refresh = false ∧ args.timings.tRFC % 2 ^ 29 = 0

instance (args : RowListArgs) : Decidable args.refreshStops := inferInstanceAs (Decidable (_ ∧ _))

/-- The instructions of a run that no STOP ends early. -/
def executed (args : RowListArgs) (n₁ n₂ : Nat) : List I :=
  I.noop args.lead :: ((args.loops n₁ n₂).flatMap Loop.unroll ++ [refreshI args.refreshOp 1, I.noop 0])

/-- The instructions of a run. -/
def visited (args : RowListArgs) (n₁ n₂ : Nat) : List I :=
  if args.lead % 2 ^ 29 = 0 then [I.noop args.lead]
  else if args.refreshStops ∧ args.loops n₁ n₂ ≠ [] then [I.noop args.lead, args.loopArgs.ref]
  else args.executed n₁ n₂

/-! ## Passes -/

theorem mem_passes_longLoop {a : LoopArgs} {unrolled rolled n : Nat} {b : List I} :
    b ∈ Loop.passes (longLoop a unrolled rolled n) ↔
      ∃ outerIdx < n, b = Loop.code ⟨loopBody a unrolled, loopCount rolled outerIdx⟩ := by
  simp [Loop.passes, longLoop]

theorem length_passes_longLoop (a : LoopArgs) (unrolled rolled n : Nat) :
    (Loop.passes (longLoop a unrolled rolled n)).length = iterations rolled n := by
  simp [Loop.passes, longLoop, iterations, List.length_flatMap, Function.comp_def]

/-- A property of every pass that does not look at the count of its LOOP. -/
theorem forall_passes (hgen : Generated args words n₁ n₂) {X : List I → Prop} {Y : Nat → Prop}
    (h : ∀ unrolled count, 0 < unrolled * args.rowSequence.length →
      (X (Loop.code ⟨loopBody args.loopArgs unrolled, count⟩) ↔ Y (unrolled * args.rowSequence.length))) :
    (∀ b ∈ Loop.passes (args.loops n₁ n₂), X b) ↔
      (args.readCount / args.reps ≠ 0 → Y (args.reps * args.rowSequence.length)) ∧
        (args.readCount % args.reps ≠ 0 → Y args.rowSequence.length) := by
  have hone : ∀ u r n, 0 < u * args.rowSequence.length →
      ((∀ b ∈ Loop.passes (longLoop args.loopArgs u r n), X b) ↔ (n ≠ 0 → Y (u * args.rowSequence.length))) := by
    intro u r n hu
    constructor
    · intro hall hn
      exact (h u _ hu).mp (hall _ (mem_passes_longLoop.mpr ⟨0, Nat.pos_of_ne_zero hn, rfl⟩))
    · rintro hY b hb
      obtain ⟨i, hi, rfl⟩ := mem_passes_longLoop.mp hb
      exact (h u _ hu).mpr (hY (by omega))
  have hquot := hone _ (args.readCount / args.reps) n₁ (Nat.mul_pos hgen.reps hgen.rows)
  have hrem := hone 1 (args.readCount % args.reps) n₂ (by rw [Nat.one_mul]; exact hgen.rows)
  rw [ne_eq, nLoops_eq_zero_iff hgen.quotient] at hquot
  rw [ne_eq, nLoops_eq_zero_iff hgen.remainder, Nat.one_mul] at hrem
  rw [loops, Loop.passes, List.flatMap_append, List.forall_mem_append]
  exact and_congr hquot hrem

theorem two_le_length_passes (hgen : Generated args words n₁ n₂) :
    2 ≤ (Loop.passes (args.loops n₁ n₂)).length ↔
      2 ≤ args.readCount / args.reps + args.readCount % args.reps := by
  have hlen : (Loop.passes (args.loops n₁ n₂)).length =
      iterations (args.readCount / args.reps) n₁ + iterations (args.readCount % args.reps) n₂ := by
    rw [← length_passes_longLoop args.loopArgs args.reps, ← length_passes_longLoop args.loopArgs 1,
      ← List.length_append,
      loops, Loop.passes, List.flatMap_append]
    rfl
  have key : ∀ x y q r : Nat, (x = 0 ↔ q = 0) → (x = 1 ↔ q = 1) → (y = 0 ↔ r = 0) → (y = 1 ↔ r = 1) →
      (2 ≤ x + y ↔ 2 ≤ q + r) := by omega
  rw [hlen]
  exact key _ _ _ _ (iterations_eq_zero_iff hgen.quotient) (iterations_eq_one_iff hgen.quotient)
    (iterations_eq_zero_iff hgen.remainder) (iterations_eq_one_iff hgen.remainder)

theorem exists_of_mem_passes (hgen : Generated args words n₁ n₂) {b : List I}
    (hb : b ∈ Loop.passes (args.loops n₁ n₂)) :
    ∃ unrolled count, 0 < unrolled * args.rowSequence.length ∧
      b = Loop.code ⟨loopBody args.loopArgs unrolled, count⟩ := by
  rw [loops, Loop.passes, List.flatMap_append] at hb
  rcases List.mem_append.mp hb with hb | hb
  · obtain ⟨i, -, rfl⟩ := mem_passes_longLoop.mp hb
    exact ⟨_, _, Nat.mul_pos hgen.reps hgen.rows, rfl⟩
  · obtain ⟨i, -, rfl⟩ := mem_passes_longLoop.mp hb
    exact ⟨_, _, by rw [Nat.one_mul]; exact hgen.rows, rfl⟩

theorem executed_eq : args.executed n₁ n₂ =
    I.noop args.lead :: ((Loop.passes (args.loops n₁ n₂)).flatten ++ [refreshI args.refreshOp 1, I.noop 0]) := by
  rw [executed, Loop.flatMap_unroll]

/-- There is no pass exactly when nothing is to be hammered. -/
theorem Generated.loops_eq_nil_iff (hgen : Generated args words n₁ n₂) :
    args.loops n₁ n₂ = [] ↔ args.readCount = 0 := by
  have hdiv := Nat.div_add_mod args.readCount args.reps
  have hn₁ := nLoops_eq_zero_iff hgen.quotient
  have hn₂ := nLoops_eq_zero_iff hgen.remainder
  rw [loops, List.append_eq_nil_iff, longLoop, longLoop, List.map_eq_nil_iff, List.map_eq_nil_iff, List.range_eq_nil,
    List.range_eq_nil, hn₁, hn₂]
  constructor
  · rintro ⟨hq, hr⟩
    rw [hq, hr] at hdiv
    omega
  · intro h
    rw [h]
    simp

theorem Generated.passes_ne_nil (hgen : Generated args words n₁ n₂) (h : args.readCount ≠ 0) :
    Loop.passes (args.loops n₁ n₂) ≠ [] := by
  obtain ⟨l, ls, hls⟩ := List.exists_cons_of_ne_nil (mt hgen.loops_eq_nil_iff.mp h)
  rw [hls, Loop.passes, List.flatMap_cons, List.replicate_succ]
  simp

theorem Generated.readCount_ne_zero (hgen : Generated args words n₁ n₂) {i : I}
    (hi : i ∈ (Loop.passes (args.loops n₁ n₂)).flatten) : args.readCount ≠ 0 := by
  intro h
  rw [hgen.loops_eq_nil_iff.mpr h] at hi
  cases hi

/-- How a pass starts and ends. -/
theorem pass_start (a : LoopArgs) {unrolled : Nat} (h : 0 < unrolled * a.rowSequence.length) (count : Nat) :
    ∃ mid row post, (mid = [] ∨ mid = [a.ref]) ∧
      Loop.code ⟨loopBody a unrolled, count⟩ = a.ref :: (mid ++ a.act row :: a.pre :: post) := by
  rw [← length_unrolled] at h
  obtain ⟨row, rows, hcons⟩ := List.exists_cons_of_length_pos h
  refine ⟨if a.timings.Due (a.timings.tRFC + 1) then [a.ref] else [], row,
    rowsCode a (a.timings.next (a.timings.tRFC + 1)) rows ++ [Loop.jump ⟨loopBody a unrolled, count⟩], ?_, ?_⟩
  · split
    · exact Or.inr rfl
    · exact Or.inl rfl
  · rw [Loop.code, loopBody, hcons, rowsCode]
    simp

theorem rowsCode_end (a : LoopArgs) {rows : List Nat} : ∀ {accum : Nat}, rows ≠ [] →
    ∃ init, rowsCode a accum rows = init ++ [a.pre] := by
  induction rows with
  | nil => intro accum h; exact absurd rfl h
  | cons row rows ih =>
    intro accum _
    rw [rowsCode]
    cases rows with
    | nil => exact ⟨(if a.timings.Due accum then [a.ref] else []) ++ [a.act row], by simp [rowsCode]⟩
    | cons row' rows =>
      obtain ⟨init, hinit⟩ := ih (by simp)
      exact ⟨(if a.timings.Due accum then [a.ref] else []) ++ a.act row :: a.pre :: init, by rw [hinit]; simp⟩

theorem pass_end (a : LoopArgs) {unrolled : Nat} (h : 0 < unrolled * a.rowSequence.length) (count : Nat) :
    ∃ init, Loop.code ⟨loopBody a unrolled, count⟩ = init ++ [a.pre, I.loop count (loopBody a unrolled).length] := by
  rw [← length_unrolled] at h
  obtain ⟨init, hinit⟩ := rowsCode_end a (List.ne_nil_of_length_pos h)
  refine ⟨a.ref :: init, ?_⟩
  rw [Loop.code, Loop.jump]
  dsimp only
  rw [loopBody, hinit]
  simp

/-- The instructions of a pass. -/
theorem mem_rowsCode {a : LoopArgs} {rows : List Nat} : ∀ {accum : Nat} {i : I}, i ∈ rowsCode a accum rows →
    i = a.ref ∨ (∃ row, i = a.act row) ∨ i = a.pre := by
  induction rows with
  | nil => intro accum i hi; cases hi
  | cons row rows ih =>
    intro accum i hi
    rw [rowsCode, List.mem_append, List.mem_cons, List.mem_cons] at hi
    rcases hi with hi | rfl | rfl | hi
    · split at hi
      · exact Or.inl (List.mem_singleton.mp hi)
      · cases hi
    · exact Or.inr (Or.inl ⟨row, rfl⟩)
    · exact Or.inr (Or.inr rfl)
    · exact ih hi

theorem mem_passes (hgen : Generated args words n₁ n₂) {i : I} (hi : i ∈ (Loop.passes (args.loops n₁ n₂)).flatten) :
    i = args.loopArgs.ref ∨ (∃ row, i = args.loopArgs.act row) ∨ i = args.loopArgs.pre ∨
      ∃ count jump, i = I.loop count jump := by
  obtain ⟨b, hb, hi⟩ := List.mem_flatten.mp hi
  obtain ⟨unrolled, count, -, rfl⟩ := exists_of_mem_passes hgen hb
  rw [Loop.code, loopBody, List.mem_append, List.mem_cons, List.mem_singleton] at hi
  rcases hi with (rfl | hi) | rfl
  · exact Or.inl rfl
  · rcases mem_rowsCode hi with h | h | h
    · exact Or.inl h
    · exact Or.inr (Or.inl h)
    · exact Or.inr (Or.inr (Or.inl h))
  · exact Or.inr (Or.inr (Or.inr ⟨_, _, rfl⟩))

/-! ## Straight-line code -/

theorem plain_refresh {timeslice : Nat} (h : ¬ (args.refresh = false ∧ timeslice % 2 ^ 29 = 0)) :
    Plain (Decoder.ofSpec g (refreshI args.refreshOp timeslice)) := by
  unfold refreshI refreshOp
  cases hr : args.refresh with
  | true => exact plain_dfi g rfl timeslice none
  | false => exact plain_noop g fun hz => h ⟨hr, hz⟩

theorem plain_rowsCode {a : LoopArgs} (h : Plain (Decoder.ofSpec g a.ref)) {rows : List Nat} {accum : Nat} :
    ∀ i ∈ rowsCode a accum rows, Plain (Decoder.ofSpec g i) := by
  intro i hi
  rcases mem_rowsCode hi with rfl | ⟨row, rfl⟩ | rfl
  · exact h
  · exact plain_dfi g rfl _ _
  · exact plain_dfi g rfl _ _

theorem loop_ok {a : LoopArgs} {unrolled rolled n : Nat} (h : Plain (Decoder.ofSpec g a.ref))
    (hok : n ≠ 0 → LoopOk a unrolled) : ∀ l ∈ longLoop a unrolled rolled n, l.Ok g := by
  intro l hl
  obtain ⟨i, hi, rfl⟩ := List.mem_map.mp hl
  have hn : n ≠ 0 := by
    rw [List.mem_range] at hi
    omega
  refine ⟨?_, loopCount_lt rolled i, (hok hn).length_lt⟩
  intro x hx
  rcases List.mem_cons.mp hx with rfl | hx
  · exact h
  · exact plain_rowsCode h x hx

/-! ## Runs -/

theorem fetch_lead (hgen : Generated args words n₁ n₂) (hmem : Loads mem words) :
    fetch g mem 0 = Decoder.ofSpec g (I.noop args.lead) := by
  obtain rfl := hgen.words_eq
  exact (hmem.codeAt g).head

/-- The first loop starts with its refresh. -/
theorem fetch_ref (hgen : Generated args words n₁ n₂) (hmem : Loads mem words) (hne : args.loops n₁ n₂ ≠ []) :
    fetch g mem (0 + 1) = Decoder.ofSpec g args.loopArgs.ref := by
  obtain rfl := hgen.words_eq
  obtain ⟨l, ls, hls⟩ := List.exists_cons_of_ne_nil hne
  have hl : l ∈ args.loops n₁ n₂ := hls ▸ List.mem_cons_self ..
  have hbody : ∃ body, l.code = args.loopArgs.ref :: body := by
    rcases List.mem_append.mp hl with hl | hl <;>
      (obtain ⟨_, -, rfl⟩ := List.mem_map.mp hl; exact ⟨_, rfl⟩)
  obtain ⟨body, hbody⟩ := hbody
  have hcode := (hmem.codeAt g).tail
  rw [hls, List.flatMap_cons, hbody] at hcode
  exact hcode.head

/-- The first instruction of a run. -/
theorem steps_lead (hgen : Generated args words n₁ n₂) (hmem : Loads mem words) (hlead : args.lead % 2 ^ 29 ≠ 0) :
    Steps (fetch g mem) ⟨0, 0⟩ [⟨0, Decoder.ofSpec g (I.noop args.lead)⟩] ⟨0 + 1, 0⟩ :=
  steps_plain (plain_noop g hlead) (fetch_lead hgen hmem)

/-- A run that no STOP ends early. -/
theorem executes_executed (hgen : Generated args words n₁ n₂) (hmem : Loads mem words) (hlead : args.lead % 2 ^ 29 ≠ 0)
    (href : args.loops n₁ n₂ ≠ [] → ¬ args.refreshStops) :
    ∃ tr, Executes g mem (tr ++ [⟨words.length - 1, Decoder.ofSpec g (I.noop 0)⟩]) ∧
      (tr ++ [⟨words.length - 1, Decoder.ofSpec g (I.noop 0)⟩]).map Visit.instr =
        (args.executed n₁ n₂).map (Decoder.ofSpec g) := by
  have htr₁ := steps_lead (g := g) hgen hmem hlead
  obtain rfl := hgen.words_eq
  have hcode := (hmem.codeAt g).tail
  rw [List.map_append] at hcode
  have hloops : ∀ l ∈ args.loops n₁ n₂, l.Ok g := by
    intro l hl
    have hplain : Plain (Decoder.ofSpec g args.loopArgs.ref) := plain_refresh (href (List.ne_nil_of_mem hl))
    rcases List.mem_append.mp hl with hl | hl
    · exact loop_ok hplain hgen.unrolled l hl
    · exact loop_ok hplain hgen.single l hl
  obtain ⟨tr₂, htr₂, hmap₂⟩ := steps_loops hloops hcode.left
  have hlast := hcode.right
  rw [List.length_map, List.map_cons] at hlast
  have hsync : Plain (Decoder.ofSpec g (refreshI args.refreshOp 1)) := plain_refresh (by simp)
  have htr₃ : Steps (fetch g mem) _ _ _ := steps_plain (c := 0) hsync hlast.head
  have hlen : 0 + 1 + ((args.loops n₁ n₂).flatMap Loop.code).length + 1 =
      (encodePayload (args.program n₁ n₂)).length - 1 := by
    rw [encodePayload, List.length_map, program]
    simp
    omega
  have hstop := hlast.tail.head
  rw [hlen] at hstop htr₃
  obtain ⟨fuel, hrun⟩ := run_of_steps (htr₁.trans (htr₂.trans htr₃)) (by rw [hstop]; exact stop_noop g rfl)
  rw [hstop] at hrun
  refine ⟨_, ⟨fuel, hrun⟩, ?_⟩
  simp [hmap₂, executed]

/-- **A loaded payload runs through its visited instructions**, up to the first STOP. -/
theorem executes_visited (hgen : Generated args words n₁ n₂) (hmem : Loads mem words) :
    ∃ tr, Executes g mem tr ∧ tr.map Visit.instr = (args.visited n₁ n₂).map (Decoder.ofSpec g) := by
  unfold visited
  split
  · next hlead =>
    have hfirst := fetch_lead (g := g) hgen hmem
    have hnone : Steps (fetch g mem) ⟨0, 0⟩ [] ⟨0, 0⟩ := Steps.refl _
    obtain ⟨fuel, hrun⟩ := run_of_steps hnone (by rw [hfirst]; exact stop_noop g hlead)
    refine ⟨_, ⟨fuel, hrun⟩, ?_⟩
    simp [hfirst]
  · next hlead =>
    split
    · next hstop =>
      obtain ⟨⟨hr, hz⟩, hne⟩ := hstop
      have href : args.loopArgs.ref = I.noop args.timings.tRFC := by
        simp [LoopArgs.ref, refreshI, loopArgs, refreshOp, hr]
      -- the first loop starts with the STOP
      have hsecond := fetch_ref (g := g) hgen hmem hne
      obtain ⟨fuel, hrun⟩ := run_of_steps (steps_lead (g := g) hgen hmem hlead)
        (by rw [hsecond, href]; exact stop_noop g hz)
      refine ⟨_, ⟨fuel, hrun⟩, ?_⟩
      simp [hsecond]
    · next hstop =>
      obtain ⟨tr, htr, hmap⟩ := executes_executed (g := g) hgen hmem hlead fun hne hs => hstop ⟨hs, hne⟩
      exact ⟨_, htr, hmap⟩

end RowListArgs

end RowhammerTester.Playbook
