import RowhammerTester.Gateware.Program
import RowhammerTester.Gateware.Refinement

/-!
# `get_expected_execution_cycles`

The execution time that is printed with a payload, and the time the executor takes for it.

* `getExpectedExecutionCycles` : one pass over the payload that multiplies the body of every LOOP;
* `Straight payload` : every LOOP jumps back over instructions that are there and are neither LOOP nor STOP;
* `loopCounts` : the counts of the LOOPs up to the first STOP; the executor spends that many cycles more than expected,
  one for every time that a LOOP jumps (`steps_straight_payload`);
* `SpendsCycles p mem n` : a started executor is in RUN or IDLE for `n` cycles.
-/

namespace RowhammerTester.Scripts
open RowhammerTester.Hdl RowhammerTester.Gateware Encoder Interp

/-- `instr.timeslice`. -/
def timesliceOf (i : I) : Py Nat :=
  match i.kwargs.timeslice with
  | some timeslice => .ok timeslice
  | none => .error (.attributeError "timeslice")

/-- `instr.count`. -/
def countOf (i : I) : Py Nat :=
  match i.kwargs.count with
  | some count => .ok count
  | none => .error (.attributeError "count")

/-- `instr.jump`. -/
def jumpOf (i : I) : Py Nat :=
  match i.kwargs.jump with
  | some jump => .ok jump
  | none => .error (.attributeError "jump")

/-- `instr.op_code == OpCode.NOOP and instr.timeslice == 0`. -/
def IsStop (i : I) : Prop := i.opCode = .NOOP ∧ i.kwargs.timeslice = some 0

instance (i : I) : Decidable (IsStop i) := inferInstanceAs (Decidable (_ ∧ _))

/-- The loop over the instructions from index `i` on. -/
def expectedFrom (payload : List I) : Nat → List I → Nat → Py Nat
  | _, [], cycles => .ok cycles
  | i, instr :: rest, cycles =>
    let cycles := cycles + 1
    if IsStop instr then
      .ok cycles
    else if instr.opCode = .LOOP then do
      -- there should be no STOP or LOOP instructions inside loop body
      let jump ← jumpOf instr
      let count ← countOf instr
      let body ← (Py.slice payload ((i : Int) - jump) i).mapM timesliceOf
      expectedFrom payload (i + 1) rest (cycles + count * body.sum)
    else do
      -- -1 because we've already included 1 cycle for this instruction
      let timeslice ← timesliceOf instr
      expectedFrom payload (i + 1) rest (cycles + (timeslice - 1))

def getExpectedExecutionCycles (payload : List I) : Py Nat := expectedFrom payload 0 payload 0

/-! ## Payloads of loops around straight-line code -/

/-- The specification was built by `Encoder.I` and all its fields fit. -/
structure Built (i : I) : Prop where
  init : I.init i.opCode i.kwargs = .ok i
  inRange : ∀ part ∈ i.parts, part.2 < 2 ^ part.1

/-- Every LOOP jumps over at most the instructions before it, and no body has a LOOP or a STOP. -/
structure Straight (payload : List I) : Prop where
  built : ∀ i ∈ payload, Built i
  jump_le : ∀ k (_ : k < payload.length), payload[k].opCode = .LOOP → ∀ jump ∈ payload[k].kwargs.jump, jump ≤ k
  body : ∀ k (_ : k < payload.length), payload[k].opCode = .LOOP → ∀ jump ∈ payload[k].kwargs.jump,
    ∀ j ∈ (payload.take k).drop (k - jump), j.opCode ≠ .LOOP ∧ ¬ IsStop j

/-- The counts of the LOOPs before the first STOP. -/
def loopCounts : List I → Nat
  | [] => 0
  | i :: rest =>
    if IsStop i then 0
    else if i.opCode = .LOOP then i.kwargs.count.getD 0 + loopCounts rest
    else loopCounts rest

/-- The executor, started in READY and given the DFI after `w` cycles, is in RUN or IDLE for exactly the next `n`
cycles and in READY behind them. -/
def SpendsCycles (p : PayloadExecutor.Params) (mem : Nat → BitVec 32) (n : Nat) : Prop :=
  ∀ (s : PayloadExecutor.State) (inp : Nat → PayloadExecutor.Input) (w : Nat), s.fsm = .READY → s.loopCounter = 0 →
    (inp 0).start = true → (∀ k < w, (inp (k + 1)).dfiReady = false) → (inp (w + 1)).dfiReady = true →
    (∀ t < w + 2, PayloadExecutor.executing (run (PayloadExecutor.step p mem) s inp t) = false) ∧
    (∀ k < n, PayloadExecutor.executing (run (PayloadExecutor.step p mem) s inp (w + 2 + k)) = true) ∧
    (run (PayloadExecutor.step p mem) s inp (w + 2 + n)).fsm = .READY

/-! ## Instructions and their decoded words -/

section Built
variable {i : I}

theorem get_eq_ok {key : String} {value : Option Nat} {v : Nat} (h : Kwargs.get key value = .ok v) :
    value = some v := by
  cases value with
  | none => cases h
  | some w => exact congrArg some (Except.ok.inj h)

theorem Built.parts_loop (h : Built i) (hop : i.opCode = .LOOP) : ∃ count jump, i.kwargs.count = some count ∧
    i.kwargs.jump = some jump ∧ i.parts = (I.loop count jump).parts := by
  have hinit := h.init
  simp only [hop, I.init, Py.bind_eq_ok] at hinit
  obtain ⟨count, hcount, jump, hjump, hinit⟩ := hinit
  refine ⟨count, jump, get_eq_ok hcount, get_eq_ok hjump, ?_⟩
  rw [← Except.ok.inj hinit]
  rfl

theorem Built.parts_noop (h : Built i) (hop : i.opCode = .NOOP) : ∃ timeslice, i.kwargs.timeslice = some timeslice ∧
    i.parts = (I.noop timeslice).parts := by
  have hinit := h.init
  simp only [hop, I.init, Py.bind_eq_ok] at hinit
  obtain ⟨timeslice, htimeslice, hinit⟩ := hinit
  refine ⟨timeslice, get_eq_ok htimeslice, ?_⟩
  rw [← Except.ok.inj hinit]
  rfl

theorem Built.parts_dfi (h : Built i) (hop : isDfi i.opCode) : ∃ timeslice, i.kwargs.timeslice = some timeslice ∧
    timeslice ≠ 0 ∧ i.parts = (I.dfi i.opCode timeslice i.kwargs.address).parts := by
  have hinit : (Kwargs.get "timeslice" i.kwargs.timeslice >>= fun timeslice =>
      if timeslice = 0 then
        .error (.assertionError "Timeslice for instructions other than NOOP should be > 0")
      else if i.kwargs.address.isNone ∧ i.opCode ∉ [OpCode.REF] then
        .error (.assertionError (i.opCode.name ++ " instruction requires `address`"))
      else .ok ⟨i.opCode, i.kwargs, (I.dfi i.opCode timeslice i.kwargs.address).parts⟩) = Except.ok i := by
    rw [← h.init]
    cases hi : i.opCode <;> first | rfl | exact absurd hop (by rw [hi]; decide)
  rw [Py.bind_eq_ok] at hinit
  obtain ⟨timeslice, htimeslice, hinit⟩ := hinit
  refine ⟨timeslice, get_eq_ok htimeslice, ?_⟩
  split at hinit
  · cases hinit
  · next hne =>
    split at hinit
    · cases hinit
    · refine ⟨hne, ?_⟩
      rw [← Except.ok.inj hinit]

theorem ofSpec_of_parts (g : Geometry) {i j : I} (h : i.parts = j.parts) :
    Decoder.ofSpec g i = Decoder.ofSpec g j := by
  rw [Decoder.ofSpec, Decoder.ofSpec, word, word, encodeSpec, encodeSpec, h]

/-- A LOOP as the decoder sees it. -/
theorem Built.loop (h : Built i) (hop : i.opCode = .LOOP) (g : Geometry) : ∃ count jump,
    i.kwargs.count = some count ∧ i.kwargs.jump = some jump ∧ (Decoder.ofSpec g i).IsLoop ∧
      (Decoder.ofSpec g i).stop = false ∧ (Decoder.ofSpec g i).loopCount = count ∧
      (Decoder.ofSpec g i).loopJump = jump := by
  obtain ⟨count, jump, hcount, hjump, hparts⟩ := h.parts_loop hop
  have hrange := h.inRange
  rw [hparts] at hrange
  have hc : count < 2 ^ 12 := hrange (12, count) (by simp [I.loop, Decoder.LOOP_COUNT])
  have hj : jump < 2 ^ 17 := hrange (17, jump) (by simp [I.loop, Decoder.LOOP_JUMP])
  obtain ⟨hloop, hcount', hjump', hstop⟩ := decode_loop g count jump
  rw [Nat.mod_eq_of_lt hc] at hcount'
  rw [Nat.mod_eq_of_lt hj] at hjump'
  rw [ofSpec_of_parts g hparts]
  exact ⟨count, jump, hcount, hjump, hloop, hstop, hcount', hjump'⟩

/-- An instruction other than LOOP and STOP falls through after its timeslice. -/
theorem Built.plain (h : Built i) (hl : i.opCode ≠ .LOOP) (hs : ¬ IsStop i) (g : Geometry) : ∃ timeslice,
    i.kwargs.timeslice = some timeslice ∧ timeslice ≠ 0 ∧ Plain (Decoder.ofSpec g i) ∧
      (Decoder.ofSpec g i).cycles = timeslice := by
  have hrange := h.inRange
  by_cases hn : i.opCode = .NOOP
  · obtain ⟨timeslice, htimeslice, hparts⟩ := h.parts_noop hn
    have hne : timeslice ≠ 0 := fun hz => hs ⟨hn, hz ▸ htimeslice⟩
    rw [hparts] at hrange
    have hlt : timeslice < 2 ^ 29 :=
      hrange (29, timeslice) (by simp [I.noop, Decoder.TIMESLICE_NOOP, Decoder.TIMESLICE, Decoder.ADDRESS])
    have hmod := Nat.mod_eq_of_lt hlt
    rw [ofSpec_of_parts g hparts]
    refine ⟨timeslice, htimeslice, hne, plain_noop g (by omega), ?_⟩
    rw [cycles_noop, hmod]
    omega
  · have hop : isDfi i.opCode := by simp [isDfi, hn, hl]
    obtain ⟨timeslice, htimeslice, hne, hparts⟩ := h.parts_dfi hop
    rw [hparts] at hrange
    have hlt : timeslice < 2 ^ 5 := hrange (5, timeslice) (by simp [I.dfi, Decoder.TIMESLICE])
    rw [ofSpec_of_parts g hparts]
    refine ⟨timeslice, htimeslice, hne, plain_dfi g hop _ _, ?_⟩
    rw [cycles_dfi g hop, Nat.mod_eq_of_lt hlt]
    omega

theorem Built.stop (h : Built i) (hs : IsStop i) (g : Geometry) : (Decoder.ofSpec g i).stop = true := by
  obtain ⟨timeslice, htimeslice, hparts⟩ := h.parts_noop hs.1
  have hzero : timeslice = 0 := Option.some.inj (htimeslice.symm.trans hs.2)
  rw [ofSpec_of_parts g hparts]
  subst hzero
  exact stop_noop g rfl

end Built

/-! ## One pass over the payload -/

section Pass
variable {g : Geometry} {fetch : Nat → Decoder} {payload : List I}

/-- The timeslices of a loop body are its cycles. -/
theorem mapM_timesliceOf {body : List I} (h : ∀ i ∈ body, Built i ∧ i.opCode ≠ .LOOP ∧ ¬ IsStop i) :
    body.mapM timesliceOf = .ok (body.map fun i => (Decoder.ofSpec g i).cycles) := by
  refine Py.mapM_eq_ok fun i hi => ?_
  obtain ⟨hb, hl, hs⟩ := h i hi
  obtain ⟨timeslice, htimeslice, -, -, hcycles⟩ := hb.plain hl hs g
  rw [timesliceOf, htimeslice, hcycles]

theorem duration_of_map_instr {tr : List Visit} {is : List Decoder} (h : tr.map Visit.instr = is) :
    duration Visit.cycles tr = (is.map Decoder.cycles).sum := by
  rw [duration, ← h, List.map_map]
  rfl

theorem Straight.loop (hp : Straight payload) {pre post : List I} {i : I} (heq : payload = pre ++ i :: post)
    (hl : i.opCode = .LOOP) {jump : Nat} (hjump : i.kwargs.jump = some jump) : jump ≤ pre.length ∧
      ∀ j ∈ pre.drop (pre.length - jump), Built j ∧ j.opCode ≠ .LOOP ∧ ¬ IsStop j := by
  have hlt : pre.length < payload.length := by rw [heq, List.length_append, List.length_cons]; omega
  have hat : payload[pre.length] = i := by simp [heq]
  have htake : payload.take pre.length = pre := by rw [heq, List.take_left]
  refine ⟨hp.jump_le pre.length hlt (by rw [hat]; exact hl) jump (by rw [hat]; exact hjump), fun j hj => ⟨?_, ?_⟩⟩
  · refine hp.built j ?_
    rw [heq]
    exact List.mem_append_left _ (List.mem_of_mem_drop hj)
  · have := hp.body pre.length hlt (by rw [hat]; exact hl) jump (by rw [hat]; exact hjump) j
    rw [htake] at this
    exact this hj

theorem codeAt_body {pre post : List I} {i : I} (heq : payload = pre ++ i :: post) (jump : Nat)
    (hc : CodeAt fetch 0 (payload.map (Decoder.ofSpec g))) :
    CodeAt fetch (pre.length - jump)
      ((pre.drop (pre.length - jump)).map (Decoder.ofSpec g) ++ [Decoder.ofSpec g i]) := by
  have hsplit : payload.map (Decoder.ofSpec g) = (pre.take (pre.length - jump)).map (Decoder.ofSpec g) ++
      (((pre.drop (pre.length - jump)).map (Decoder.ofSpec g) ++ [Decoder.ofSpec g i]) ++
        post.map (Decoder.ofSpec g)) := by
    rw [heq, ← List.map_singleton, ← List.map_append, ← List.map_append, ← List.map_append]
    rw [← List.append_assoc, ← List.append_assoc, List.take_append_drop, List.append_assoc]
    rfl
  rw [hsplit] at hc
  have hright := hc.right
  rw [List.length_map, List.length_take, Nat.zero_add, Nat.min_eq_left (Nat.sub_le _ _)] at hright
  exact hright.left

/-- A LOOP behind its body takes a cycle and, for every jump, those of the body and one more. -/
theorem steps_loop_payload {body : List I} {l : Decoder} {base : Nat}
    (hbody : ∀ j ∈ body, Built j ∧ j.opCode ≠ .LOOP ∧ ¬ IsStop j) (hl : l.IsLoop) (hls : l.stop = false)
    (hlj : l.loopJump = body.length) (hc : CodeAt fetch base (body.map (Decoder.ofSpec g) ++ [l])) :
    ∃ tr, Steps fetch ⟨base + body.length, 0⟩ tr ⟨base + body.length + 1, 0⟩ ∧
      duration Visit.cycles tr =
        1 + l.loopCount * ((body.map fun i => (Decoder.ofSpec g i).cycles).sum + 1) := by
  have hplain : ∀ d ∈ body.map (Decoder.ofSpec g), Plain d := by
    intro d hd
    obtain ⟨j, hj, rfl⟩ := List.mem_map.mp hd
    obtain ⟨hb, hnl, hns⟩ := hbody j hj
    obtain ⟨_, -, -, hp, -⟩ := hb.plain hnl hns g
    exact hp
  obtain ⟨tr, htr, hmap⟩ := steps_loop_reached hplain hl hls (by rw [List.length_map]; exact hlj) hc
  rw [List.length_map] at htr
  refine ⟨tr, htr, ?_⟩
  have hcyc : l.cycles = 1 := if_pos hl
  rw [duration_of_map_instr hmap]
  simp [hcyc, List.map_flatten, Function.comp_def]

/-- A LOOP counts a cycle and `count` times those of its body. -/
theorem expectedFrom_loop {pre rest : List I} {i : I} {count jump : Nat} (heq : payload = pre ++ i :: rest)
    (hs : ¬ IsStop i) (hl : i.opCode = .LOOP) (hcount : i.kwargs.count = some count)
    (hjump : i.kwargs.jump = some jump) (hle : jump ≤ pre.length)
    (hbody : ∀ j ∈ pre.drop (pre.length - jump), Built j ∧ j.opCode ≠ .LOOP ∧ ¬ IsStop j) (cycles : Nat) :
    expectedFrom payload pre.length (i :: rest) cycles = expectedFrom payload (pre.length + 1) rest
      (cycles + 1 + count * ((pre.drop (pre.length - jump)).map fun i => (Decoder.ofSpec g i).cycles).sum) := by
  have hslice : Py.slice payload ((pre.length : Int) - jump) pre.length = pre.drop (pre.length - jump) := by
    rw [heq]
    exact Py.slice_sub_append hle
  rw [expectedFrom, if_neg hs, if_pos hl, jumpOf, hjump, countOf, hcount]
  simp only [bind, Except.bind, hslice, mapM_timesliceOf (g := g) hbody]

/-- Any other instruction counts its timeslice. -/
theorem expectedFrom_plain {i : I} {timeslice : Nat} (hs : ¬ IsStop i) (hl : i.opCode ≠ .LOOP)
    (htimeslice : i.kwargs.timeslice = some timeslice) (n : Nat) (rest : List I) (cycles : Nat) :
    expectedFrom payload n (i :: rest) cycles = expectedFrom payload (n + 1) rest (cycles + 1 + (timeslice - 1)) := by
  rw [expectedFrom, if_neg hs, if_neg hl, timesliceOf, htimeslice]
  rfl

/-- The pass from an index on counts the cycles from there to the STOP, but for those of the jumps. -/
theorem steps_straight_payload (hp : Straight payload) (hc : CodeAt fetch 0 (payload.map (Decoder.ofSpec g))) :
    ∀ (rest pre : List I) (cycles : Nat), payload = pre ++ rest → (∃ i ∈ rest, IsStop i) → ∃ e tr n,
      expectedFrom payload pre.length rest cycles = .ok (cycles + e) ∧
      Steps fetch ⟨pre.length, 0⟩ tr ⟨n, 0⟩ ∧ (fetch n).stop = true ∧
      duration Visit.cycles tr + 1 = e + loopCounts rest := by
  intro rest
  induction rest with
  | nil =>
    intro pre cycles _ hstop
    simp at hstop
  | cons i rest ih =>
    intro pre cycles heq hstop
    have hi : Built i := hp.built i (by rw [heq]; simp)
    have hfetch : fetch pre.length = Decoder.ofSpec g i := by
      have hc' := hc
      rw [heq, List.map_append] at hc'
      have := hc'.right.head
      rwa [List.length_map, Nat.zero_add] at this
    have hnext : payload = (pre ++ [i]) ++ rest := by rw [heq, List.append_assoc]; rfl
    have hlen : (pre ++ [i]).length = pre.length + 1 := List.length_append
    by_cases hs : IsStop i
    · refine ⟨1, [], pre.length, ?_, Steps.refl _, ?_, ?_⟩
      · exact if_pos hs
      · rw [hfetch]
        exact hi.stop hs g
      · rw [loopCounts, if_pos hs]
        rfl
    · have hstop' : ∃ j ∈ rest, IsStop j := by
        obtain ⟨j, hj, hjs⟩ := hstop
        rcases List.mem_cons.mp hj with rfl | hj
        · exact absurd hjs hs
        · exact ⟨j, hj, hjs⟩
      by_cases hl : i.opCode = .LOOP
      · obtain ⟨count, jump, hcount, hjump, hloop, hls, hlc, hlj⟩ := hi.loop hl g
        obtain ⟨hle, hbody⟩ := hp.loop heq hl hjump
        have hlen' : (pre.drop (pre.length - jump)).length = jump := by rw [List.length_drop]; omega
        obtain ⟨tr₀, htr₀, hdur₀⟩ :=
          steps_loop_payload hbody hloop hls (hlj.trans hlen'.symm) (codeAt_body heq jump hc)
        rw [hlen', Nat.sub_add_cancel hle] at htr₀
        obtain ⟨e, tr, n, he, htr, hn, hdur⟩ := ih (pre ++ [i])
          (cycles + 1 + count * ((pre.drop (pre.length - jump)).map fun i => (Decoder.ofSpec g i).cycles).sum)
          hnext hstop'
        rw [hlen] at he htr
        refine ⟨1 + (count * ((pre.drop (pre.length - jump)).map fun i => (Decoder.ofSpec g i).cycles).sum + e), _, n,
          ?_, htr₀.trans htr, hn, ?_⟩
        · rw [expectedFrom_loop heq hs hl hcount hjump hle hbody]
          refine he.trans ?_
          rw [Nat.add_assoc, Nat.add_assoc]
        · rw [duration_append, hdur₀, hlc, loopCounts, if_neg hs, if_pos hl, hcount, Option.getD_some, Nat.mul_add]
          omega
      · obtain ⟨timeslice, htimeslice, hne, hplain, hcycles⟩ := hi.plain hl hs g
        obtain ⟨e, tr, n, he, htr, hn, hdur⟩ := ih (pre ++ [i]) (cycles + 1 + (timeslice - 1)) hnext hstop'
        rw [hlen] at he htr
        refine ⟨timeslice + e, _, n, ?_, (steps_plain hplain hfetch).trans htr, hn, ?_⟩
        · rw [expectedFrom_plain hs hl htimeslice]
          refine he.trans ?_
          congr 1
          omega
        · rw [duration_append, duration_cons, duration_nil, Visit.cycles, hcycles, loopCounts, if_neg hs, if_neg hl]
          omega

theorem loopCounts_eq_zero_iff (hb : ∀ i ∈ payload, Built i) : loopCounts payload = 0 ↔
    ∀ i ∈ payload.takeWhile (¬ IsStop ·), i.opCode = .LOOP → i.kwargs.count = some 0 := by
  induction payload with
  | nil => simp [loopCounts]
  | cons i rest ih =>
    have ih' := ih fun j hj => hb j (List.mem_cons_of_mem i hj)
    by_cases hs : IsStop i
    · simp [loopCounts, hs]
    · by_cases hl : i.opCode = .LOOP
      · obtain ⟨count, jump, hcount, -⟩ := (hb i List.mem_cons_self).parts_loop hl
        rw [loopCounts, if_neg hs, if_pos hl, Nat.add_eq_zero_iff, ih']
        simp [hs, hl, hcount]
      · rw [loopCounts, if_neg hs, if_neg hl, ih']
        simp [hs, hl]

end Pass

/-! ## The executor's time -/

/-- A run of the interpreter that stays below the last word takes the executor its cycles. -/
theorem spendsCycles_of_run {p : PayloadExecutor.Params} {mem : Nat → BitVec 32} {fuel : Nat} {tr : List Visit}
    (hrun : Interp.run (fetch p.geometry mem) fuel ⟨0, 0⟩ = some tr) (hpc : ∀ v ∈ tr, v.pc < p.depth - 1) :
    SpendsCycles p mem (duration Visit.cycles tr) := by
  intro s inp w hs hlc hstart hwait hready
  obtain ⟨hw, hsim⟩ := PayloadExecutor.run_wait p mem hs hlc hstart hwait hready
  obtain ⟨hbusy, hend, -⟩ :=
    PayloadExecutor.run_sim (by simp) (fun k => inp (w + 2 + k)) hrun hpc hsim (by simp)
  refine ⟨fun t ht => ?_, fun k hk => ?_, ?_⟩
  · cases t with
    | zero => rw [run_zero, PayloadExecutor.executing, hs]; rfl
    | succ t => rw [PayloadExecutor.executing, hw t (by omega)]; rfl
  · rw [run_add]
    exact (hbusy k hk).1
  · rw [run_add]
    exact hend

/-- **When the expected execution time is the real one.** The executor runs a payload of loops around straight-line code
for the expected number of cycles if and only if no LOOP before the STOP jumps: a LOOP takes one cycle every time it is
reached, the expectation has one cycle for all of them. -/
theorem expected_cycles_iff (p : PayloadExecutor.Params) (payload : List I) (hp : Straight payload)
    (hstop : ∃ k < p.depth - 1, ∃ i ∈ payload[k]?, IsStop i) (mem : Nat → BitVec 32)
    (hmem : Loads mem (encodePayload payload)) :
    ∃ n, SpendsCycles p mem n ∧ (getExpectedExecutionCycles payload = .ok n ↔
      ∀ i ∈ payload.takeWhile (¬ IsStop ·), i.opCode = .LOOP → i.kwargs.count = some 0) := by
  obtain ⟨k, hk, i, hi, hs⟩ := hstop
  have hmemi : i ∈ payload := List.mem_of_getElem? hi
  have hcode := hmem.codeAt p.geometry
  obtain ⟨e, tr, n, he, htr, hn, hdur⟩ := steps_straight_payload hp hcode payload [] 0 rfl ⟨i, hmemi, hs⟩
  obtain ⟨hlt, rfl⟩ := List.getElem?_eq_some_iff.mp hi
  have hfetchk : (fetch p.geometry mem k).stop = true := by
    have := hcode k (by rw [List.length_map]; exact hlt)
    rw [Nat.zero_add, List.getElem_map] at this
    rw [this]
    exact (hp.built _ hmemi).stop hs p.geometry
  obtain ⟨hbelow, hnle⟩ := htr.pc_lt hfetchk (Nat.zero_le k)
  obtain ⟨fuel, hrun⟩ := run_of_steps htr hn
  have hpc : ∀ v ∈ tr ++ [⟨n, fetch p.geometry mem n⟩], v.pc < p.depth - 1 := by
    intro v hv
    rcases List.mem_append.mp hv with hv | hv
    · have := hbelow v hv
      omega
    · obtain rfl := List.mem_singleton.mp hv
      simp only at hnle ⊢
      omega
  have hlast : (fetch p.geometry mem n).cycles = 1 := PayloadExecutor.cycles_stop (p := p) hn
  have htotal : duration Visit.cycles (tr ++ [⟨n, fetch p.geometry mem n⟩]) = e + loopCounts payload := by
    rw [duration_append, duration_cons, duration_nil, Visit.cycles, hlast, ← hdur]
  refine ⟨_, spendsCycles_of_run hrun hpc, ?_⟩
  rw [← loopCounts_eq_zero_iff hp.built, htotal, getExpectedExecutionCycles]
  rw [Nat.zero_add] at he
  refine (Eq.congr_left he).trans ?_
  rw [Except.ok.injEq]
  omega

/-- ACT and PRE of a row, repeated by a LOOP. -/
def hammerLoop (count : Nat) : List I :=
  [I.dfi .ACT 7 (some 8), I.dfi .PRE 3 (some 0), I.loop count 2, I.noop 0]

theorem straight_hammerLoop {count : Nat} (h : count < 2 ^ 12) : Straight (hammerLoop count) := by
  refine ⟨?_, ?_, ?_⟩
  · intro i hi
    simp only [hammerLoop, List.mem_cons, List.not_mem_nil, or_false] at hi
    rcases hi with rfl | rfl | rfl | rfl
    · exact ⟨rfl, by decide⟩
    · exact ⟨rfl, by decide⟩
    · refine ⟨rfl, ?_⟩
      simpa [I.loop, Decoder.OP_CODE, Decoder.LOOP_COUNT, Decoder.LOOP_JUMP, OpCode.value] using h
    · exact ⟨rfl, by decide⟩
  · intro k hk hl
    simp only [hammerLoop, List.length_cons, List.length_nil] at hk
    interval_cases k <;> simp_all [hammerLoop, I.dfi, I.loop, I.noop]
  · intro k hk hl
    simp only [hammerLoop, List.length_cons, List.length_nil] at hk
    interval_cases k <;> simp_all [hammerLoop, I.dfi, I.loop, I.noop, IsStop]

/-- An executor with a payload memory of eight words. -/
def eightWords : PayloadExecutor.Params := { PayloadExecutor.smallParams with depth := 8 }

theorem expected_cycles_iff_hammerLoop : getExpectedExecutionCycles (hammerLoop 0) = .ok 12 ∧
    SpendsCycles eightWords (loadWords (encodePayload (hammerLoop 0))) 12 := by
  have hok : getExpectedExecutionCycles (hammerLoop 0) = .ok 12 := rfl
  obtain ⟨n, hn, hiff⟩ := expected_cycles_iff eightWords (hammerLoop 0) (straight_hammerLoop (by decide))
    ⟨3, by decide, I.noop 0, rfl, by decide⟩ _ (loads_loadWords _)
  have hcond : ∀ i ∈ (hammerLoop 0).takeWhile (¬ IsStop ·), i.opCode = .LOOP → i.kwargs.count = some 0 := by decide
  have heq := hiff.mpr hcond
  rw [hok] at heq
  cases heq
  exact ⟨hok, hn⟩

/-- ACT, PRE and a LOOP that jumps 3 times take 45 cycles, of which 42 are expected. -/
theorem loop_jumps_unexpected : Straight (hammerLoop 3) ∧
    (∃ k < eightWords.depth - 1, ∃ i ∈ (hammerLoop 3)[k]?, IsStop i) ∧
    SpendsCycles eightWords (loadWords (encodePayload (hammerLoop 3))) 45 ∧
    getExpectedExecutionCycles (hammerLoop 3) = .ok 42 := by
  have hrun : ∃ tr, Interp.run (fetch eightWords.geometry (loadWords (encodePayload (hammerLoop 3)))) 16 ⟨0, 0⟩ =
      some tr ∧ duration Visit.cycles tr = 45 ∧ ∀ v ∈ tr, v.pc < eightWords.depth - 1 := ⟨_, rfl, rfl, by decide⟩
  obtain ⟨tr, hrun, hdur, hpc⟩ := hrun
  refine ⟨straight_hammerLoop (by decide), ⟨3, by decide, I.noop 0, rfl, by decide⟩, ?_, rfl⟩
  rw [← hdur]
  exact spendsCycles_of_run hrun hpc

end RowhammerTester.Scripts
