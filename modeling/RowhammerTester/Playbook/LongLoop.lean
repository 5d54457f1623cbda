import RowhammerTester.Playbook.HammerCount
import RowhammerTester.Playbook.JumpWidth

/-!
# The loops of a long loop

A long loop is as many loops as it takes for `rolled` iterations, the first of them with the remainder.

* `exists_encodeLongLoop_iff` : when a long loop can be encoded, the closed form is `encodeLongLoop_eq`;
* `JumpsToRefresh` : a LOOP jumps to the first refresh of its own body; `RunsBody` : what a run through the instructions
  visits; `SplitsExactly` : both, for all LOOPs and wherever the instructions are loaded;
* `encodeLongLoop_splits` : when the loops can be encoded, and that they split `rolled` exactly.
-/

namespace RowhammerTester.Playbook
open RowhammerTester.Gateware Encoder Interp

/-! ## When a long loop is encoded -/

section Encode
variable {a : LoopArgs} {unrolled rolled : Nat}

theorem exists_nLoops (h : rolled < 2 ^ 53) : ∃ n, nLoops rolled = .ok n := by
  rw [RowListArgs.nLoops_ok_iff, toDouble_of_lt h]
  omega

/-- What is asked of the arguments when there is something to repeat. -/
theorem exists_encodeLongLoop_iff (hrolled : rolled < 2 ^ 53) (hrows : 0 < unrolled * a.rowSequence.length)
    (payload : List I) : (∃ p, encodeLongLoop unrolled rolled a payload = .ok p) ↔
      (rolled ≠ 0 → a.Encodable ∧ JumpFits a unrolled) := by
  obtain ⟨n, hn⟩ := exists_nLoops hrolled
  constructor
  · rintro ⟨p, hp⟩ hr
    have henc := encodable_of_encodeLongLoop hp hr hrows
    obtain ⟨n', hn', -, hok⟩ := encodeLongLoop_ok hp
    have hlt := (hok (mt (nLoops_eq_zero_iff hn').mp hr)).length_lt
    rw [length_loopBody_eq henc.refreshOp_cases] at hlt
    exact ⟨henc, hlt⟩
  · intro h
    exact ⟨_, encodeLongLoop_eq hn (fun hr => (h hr).1) (fun hr => (h hr).2) payload⟩

end Encode

/-! ## What a long loop is for -/

/-- A LOOP stands at index `k`. -/
def LoopAt (code : List I) (k : Nat) : Prop := ∃ i, code[k]? = some i ∧ i.opCode = .LOOP

section Purpose
variable (a : LoopArgs) (unrolled : Nat) (code : List I)

/-- The LOOP at index `k` jumps to the first refresh of its own body, which begins behind the LOOP in front of it. -/
structure JumpsToRefresh (k count jump : Nat) : Prop where
  count_le : count ≤ 2 ^ Decoder.LOOP_COUNT - 1
  jump_lt : jump < 2 ^ Decoder.LOOP_JUMP
  jump_le : jump ≤ k
  refresh : code[k - jump]? = some a.ref
  first : k - jump = 0 ∨ LoopAt code (k - jump - 1)
  own : ∀ j, k - jump ≤ j → j < k → ¬ LoopAt code j
  body : (code.take k).drop (k - jump) = loopBody a unrolled

/-- The visited instructions are those of the code: `rolled` times the body, with LOOPs in between, and `refreshes`
refreshes. -/
structure RunsBody (rolled refreshes : Nat) (g : Geometry) (base : Nat) (tr : List Visit) : Prop where
  within : ∀ v ∈ tr, base ≤ v.pc ∧ v.pc < base + code.length
  bodies : ((tr.map Visit.instr).filter fun i => decide (¬ i.IsLoop)) =
    (List.replicate rolled (loopBody a unrolled)).flatten.map (Decoder.ofSpec g)
  refreshes_eq : (tr.countP fun v => decide (v.instr.Is a.refreshOp)) = refreshes

/-- Wherever the instructions are loaded, they run the body `rolled` times and leave the loop counter at 0. -/
structure SplitsExactly (rolled refreshes : Nat) : Prop where
  loops : ∀ k i, code[k]? = some i → i.opCode = .LOOP →
    ∃ count jump, i = I.loop count jump ∧ JumpsToRefresh a unrolled code k count jump
  runs : ∀ (g : Geometry) (fetch : Nat → Decoder) (base : Nat), CodeAt fetch base (code.map (Decoder.ofSpec g)) →
    ∃ tr, Steps fetch ⟨base, 0⟩ tr ⟨base + code.length, 0⟩ ∧ RunsBody a unrolled code rolled refreshes g base tr

end Purpose

/-! ## The LOOPs -/

section Jumps
variable {a : LoopArgs} {unrolled rolled : Nat}

theorem opCode_ne_loop (hop : a.refreshOp = .NOOP ∨ a.refreshOp = .REF) {i : I} (hi : i ∈ loopBody a unrolled) :
    i.opCode ≠ .LOOP := by
  have href : a.ref.opCode ≠ .LOOP := by
    rw [LoopArgs.ref, opCode_refreshI]
    rcases hop with hop | hop <;> rw [hop] <;> decide
  rcases List.mem_cons.mp hi with rfl | hi
  · exact href
  · rcases RowListArgs.mem_rowsCode hi with rfl | ⟨row, rfl⟩ | rfl
    · exact href
    · exact OpCode.noConfusion
    · exact OpCode.noConfusion

/-- In front of a loop there is nothing or a LOOP. -/
theorem loopAt_end (pre : List Loop) (after : List I) : (pre.flatMap Loop.code).length = 0 ∨
    LoopAt (pre.flatMap Loop.code ++ after) ((pre.flatMap Loop.code).length - 1) := by
  rcases List.eq_nil_or_concat pre with rfl | ⟨pre, l, rfl⟩
  · exact .inl rfl
  · right
    refine ⟨l.jump, ?_, rfl⟩
    have hlast : (pre.concat l).flatMap Loop.code = (pre.flatMap Loop.code ++ l.body) ++ [l.jump] := by
      rw [List.concat_eq_append, List.flatMap_append, List.flatMap_singleton, Loop.code, List.append_assoc]
    rw [hlast, List.length_append, List.length_singleton, Nat.add_sub_cancel, List.append_assoc,
      List.getElem?_append_right (Nat.le_refl _), Nat.sub_self]
    rfl

theorem jumpsToRefresh_append (hop : a.refreshOp = .NOOP ∨ a.refreshOp = .REF) (hfit : JumpFits a unrolled)
    (pre : List Loop) {count : Nat} (hcount : count < 2 ^ 12) (jump : I) (after : List I) :
    JumpsToRefresh a unrolled (pre.flatMap Loop.code ++ (loopBody a unrolled ++ jump :: after))
      ((pre.flatMap Loop.code).length + (loopBody a unrolled).length) count (loopBody a unrolled).length where
  count_le := Nat.le_sub_one_of_lt hcount
  jump_lt := by
    rw [length_loopBody_eq hop]
    exact hfit
  jump_le := Nat.le_add_left _ _
  refresh := by
    rw [Nat.add_sub_cancel, List.getElem?_append_right (Nat.le_refl _), Nat.sub_self]
    rfl
  first := by
    rw [Nat.add_sub_cancel]
    exact loopAt_end pre _
  own := by
    rw [Nat.add_sub_cancel]
    rintro j hle hlt ⟨i, hi, hloop⟩
    rw [List.getElem?_append_right hle, List.getElem?_append_left (by omega)] at hi
    exact opCode_ne_loop hop (List.mem_of_getElem? hi) hloop
  body := by
    rw [Nat.add_sub_cancel, List.take_length_add_append, List.drop_left, List.take_left]

/-- Every LOOP of a long loop. -/
theorem jumpsToRefresh_longLoop (hop : a.refreshOp = .NOOP ∨ a.refreshOp = .REF) {n : Nat}
    (hfit : n ≠ 0 → JumpFits a unrolled) {k : Nat} {i : I}
    (hk : ((longLoop a unrolled rolled n).flatMap Loop.code)[k]? = some i) (hi : i.opCode = .LOOP) :
    ∃ count jump, i = I.loop count jump ∧
      JumpsToRefresh a unrolled ((longLoop a unrolled rolled n).flatMap Loop.code) k count jump := by
  have hbody : ∀ l ∈ longLoop a unrolled rolled n, ∀ i ∈ l.body, i.opCode ≠ .LOOP := by
    intro l hl
    obtain ⟨outerIdx, -, rfl⟩ := List.mem_map.mp hl
    exact fun i => opCode_ne_loop hop
  obtain ⟨pre, l, post, heq, rfl, rfl⟩ := Loop.exists_of_jump hbody hk hi
  have hl : l ∈ longLoop a unrolled rolled n := heq ▸ List.mem_append_right pre List.mem_cons_self
  obtain ⟨outerIdx, hidx, rfl⟩ := List.mem_map.mp hl
  have hn : n ≠ 0 := Nat.ne_zero_of_lt (List.mem_range.mp hidx)
  refine ⟨_, _, rfl, ?_⟩
  rw [heq, List.flatMap_append, List.flatMap_cons, Loop.code, List.append_assoc, List.singleton_append]
  exact jumpsToRefresh_append hop (hfit hn) pre (loopCount_lt rolled outerIdx) _ _

end Jumps

/-! ## The run -/

section Run
variable {a : LoopArgs} {unrolled rolled : Nat} {g : Geometry}

theorem is_opCode (hop : a.refreshOp = .NOOP ∨ a.refreshOp = .REF) {i : I} (hi : i ∈ loopBody a unrolled) :
    (Decoder.ofSpec g i).Is i.opCode := by
  have href : (Decoder.ofSpec g a.ref).Is a.ref.opCode := by
    rw [LoopArgs.ref, opCode_refreshI]
    exact is_refresh hop _
  rcases List.mem_cons.mp hi with rfl | hi
  · exact href
  · rcases RowListArgs.mem_rowsCode hi with rfl | ⟨row, rfl⟩ | rfl
    · exact href
    · exact is_act row
    · exact is_pre

theorem plain_loopBody (href : Plain (Decoder.ofSpec g a.ref)) {i : I} (hi : i ∈ loopBody a unrolled) :
    Plain (Decoder.ofSpec g i) := by
  rcases List.mem_cons.mp hi with rfl | hi
  · exact href
  · exact RowListArgs.plain_rowsCode href i hi

/-- The refresh is no STOP. -/
theorem plain_ref (hop : a.refreshOp = .NOOP ∨ a.refreshOp = .REF) (hpos : 0 < a.timings.tRFC)
    (hlt : a.timings.tRFC < 2 ^ 29) : Plain (Decoder.ofSpec g a.ref) := by
  unfold LoopArgs.ref refreshI
  split
  · apply plain_noop
    rw [Nat.mod_eq_of_lt hlt]
    exact Nat.ne_of_gt hpos
  · next hne =>
    rw [hop.resolve_left hne]
    exact plain_dfi g rfl _ _

theorem kept_body (href : Plain (Decoder.ofSpec g a.ref)) :
    kept g (fun i => decide (¬ i.IsLoop)) (loopBody a unrolled) = (loopBody a unrolled).map (Decoder.ofSpec g) := by
  apply List.filter_eq_self.mpr
  intro d hd
  obtain ⟨i, hi, rfl⟩ := List.mem_map.mp hd
  exact decide_eq_true (plain_loopBody href hi).1

theorem length_kept_refresh (hop : a.refreshOp = .NOOP ∨ a.refreshOp = .REF) :
    (kept g (fun i => decide (i.Is a.refreshOp)) (loopBody a unrolled)).length = localRefreshes a unrolled := by
  unfold kept localRefreshes
  rw [← List.countP_eq_length_filter, List.countP_map]
  apply List.countP_congr
  intro i hi
  unfold LoopArgs.isRefresh
  rw [Function.comp_apply, decide_eq_true_iff, decide_eq_true_iff]
  have his := is_opCode (g := g) hop hi
  constructor
  · intro h
    by_contra hne
    exact not_is_of_is hne his h
  · intro h
    rw [← h]
    exact his

/-- The loops run the body once for each iteration. -/
theorem exists_steps_longLoop (hop : a.refreshOp = .NOOP ∨ a.refreshOp = .REF)
    (href : Plain (Decoder.ofSpec g a.ref)) {n : Nat} (hok : n ≠ 0 → LoopOk a unrolled) {fetch : Nat → Decoder}
    {base : Nat} (hc : CodeAt fetch base (((longLoop a unrolled rolled n).flatMap Loop.code).map (Decoder.ofSpec g))) :
    ∃ tr, Steps fetch ⟨base, 0⟩ tr ⟨base + ((longLoop a unrolled rolled n).flatMap Loop.code).length, 0⟩ ∧
      RunsBody a unrolled ((longLoop a unrolled rolled n).flatMap Loop.code) (iterations rolled n)
        (localRefreshes a unrolled * iterations rolled n) g base tr := by
  have hloops : ∀ l ∈ longLoop a unrolled rolled n, l.Ok g := RowListArgs.loop_ok href hok
  obtain ⟨tr, htr, hmap, hwithin⟩ := exists_steps_within (fun _ hcode => steps_loops hloops hcode) hc
  rw [List.length_map] at hwithin
  refine ⟨tr, htr, hwithin, ?_, ?_⟩
  · have hloop : ∀ count jump, decide (¬ (Decoder.ofSpec g (I.loop count jump)).IsLoop) = false :=
      fun count jump => decide_eq_false (not_not.mpr (is_loop g count jump))
    rw [hmap, map_flatten_replicate, ← kept_body href]
    exact kept_longLoop hloop unrolled rolled n
  · have hloop : ∀ count jump, decide ((Decoder.ofSpec g (I.loop count jump)).Is a.refreshOp) = false := by
      intro count jump
      apply decide_eq_false
      apply not_is_of_is _ (is_loop g count jump)
      rcases hop with hop | hop <;> rw [hop] <;> decide
    have hkept := kept_longLoop (a := a) (p := fun i => decide (i.Is a.refreshOp)) hloop unrolled rolled n
    calc (tr.countP fun v => decide (v.instr.Is a.refreshOp))
      _ = (kept g (fun i => decide (i.Is a.refreshOp))
            ((longLoop a unrolled rolled n).flatMap Loop.unroll)).length := by
        rw [kept, ← hmap, ← List.countP_eq_length_filter, List.countP_map]
        rfl
      _ = localRefreshes a unrolled * iterations rolled n := by
        rw [hkept, List.length_flatten, List.map_replicate, List.sum_replicate_nat, length_kept_refresh hop,
          Nat.mul_comm]

end Run

/-- **Long loops are split exactly.** For fewer than `2^53` iterations, positive timings and a refresh that a NOOP can
wait for, the loops are encoded if there is nothing to repeat, or the number of ranks is a power of two and the
assertion on the jump holds. Then the appended instructions run their body `rolled` times, every LOOP jumps to the
first refresh of its body, and the returned number is that of the refreshes. -/
theorem encodeLongLoop_splits (a : LoopArgs) {unrolled rolled : Nat} (hrolled : rolled < 2 ^ 53)
    (hunrolled : 1 ≤ unrolled) (hrows : a.rowSequence ≠ []) (hop : a.refreshOp = .REF ∨ a.refreshOp = .NOOP)
    (hras : 0 < a.timings.tRAS) (hrp : 0 < a.timings.tRP) (hrfc : 0 < a.timings.tRFC ∧ a.timings.tRFC < 2 ^ 29)
    (payload : List I) :
    ((∃ p, encodeLongLoop unrolled rolled a payload = .ok p) ↔
      (rolled ≠ 0 → (a.encoder.nranks = 0 ∨ ∃ r, a.encoder.nranks = 2 ^ r) ∧ JumpFits a unrolled)) ∧
    ∀ payload' refreshes, encodeLongLoop unrolled rolled a payload = .ok (payload', refreshes) →
      ∃ code, payload' = payload ++ code ∧ SplitsExactly a unrolled code rolled refreshes := by
  have hpos : 0 < unrolled * a.rowSequence.length := Nat.mul_pos hunrolled (List.length_pos_iff.mpr hrows)
  have hiff := exists_encodeLongLoop_iff hrolled hpos payload
  have hop' := hop.symm
  constructor
  · have henc : a.Encodable ↔ a.encoder.nranks = 0 ∨ ∃ r, a.encoder.nranks = 2 ^ r :=
      ⟨fun h => h.nranks, fun h => ⟨hras.ne', hrp.ne', hop'.imp_right (⟨·, hrfc.1.ne'⟩), h⟩⟩
    rw [hiff, henc]
  · intro payload' refreshes hok
    have hargs := hiff.mp ⟨_, hok⟩
    obtain ⟨n, hn, -, hloop⟩ := encodeLongLoop_ok hok
    have hne : n ≠ 0 → rolled ≠ 0 := mt (nLoops_eq_zero_iff hn).mpr
    rw [encodeLongLoop_eq hn (fun hr => (hargs hr).1) (fun hr => (hargs hr).2), iterations_eq hrolled hn] at hok
    cases hok
    refine ⟨_, rfl, ⟨fun k i hk hi => jumpsToRefresh_longLoop hop' (fun h => (hargs (hne h)).2) hk hi, ?_⟩⟩
    intro g fetch base hc
    have hrun := exists_steps_longLoop hop' (plain_ref hop' hrfc.1 hrfc.2) hloop hc
    rwa [iterations_eq hrolled hn] at hrun

/-- Two rows of bank 2 on the second of two ranks. -/
def twoRows : LoopArgs :=
  { rowSequence := [3, 5], timings := { tRAS := 5, tRP := 3, tREFI := 40, tRFC := 10 }, encoder := ⟨3, 2⟩, bank := 2,
    rank := 1, refreshOp := .REF }

/-- A multiple of 4096 iterations. -/
theorem encodeLongLoop_splits_twoRows : ∃ code refreshes,
    encodeLongLoop 1 8192 twoRows [] = .ok (code, refreshes) ∧ SplitsExactly twoRows 1 code 8192 refreshes := by
  have hrolled : 8192 < 2 ^ 53 := by decide
  obtain ⟨hiff, hsplits⟩ := encodeLongLoop_splits twoRows hrolled (Nat.le_refl 1) (by decide) (.inl rfl) (by decide)
    (by decide) (by decide) []
  obtain ⟨⟨code, refreshes⟩, hok⟩ := hiff.mpr fun _ => ⟨.inr ⟨1, rfl⟩, by decide⟩
  obtain ⟨_, rfl, hcode⟩ := hsplits code refreshes hok
  exact ⟨_, refreshes, hok, hcode⟩

end RowhammerTester.Playbook
