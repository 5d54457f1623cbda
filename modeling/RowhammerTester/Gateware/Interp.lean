import RowhammerTester.Gateware.Instruction
import RowhammerTester.Hdl.Trace

/-!
# The instruction-set interpreter

What a payload means, without the hardware: one instruction after the other, each taking its cycles.

* `next` : the effect of an instruction other than STOP on the program counter and the loop counter. A LOOP jumps back
  when the counter differs from its count; a jump below address 0 is stuck;
* `run fetch fuel st` : the instructions visited up to the first STOP, `none` if it is not reached;
* `Steps fetch st tr st'` : a part of a run. `run_of_steps` : a part that ends before a STOP gives a run;
* `CodeAt fetch base is` : the instructions `is` stand at `base`; `steps_straight`, `steps_loop` : straight-line code
  and a loop around straight-line code.
-/

namespace RowhammerTester.Gateware
open RowhammerTester.Hdl

/-- The instruction is a LOOP. -/
def Decoder.IsLoop (i : Decoder) : Prop := i.opCode = OpCode.LOOP.value

/-- The instruction sends a DRAM command: it is neither a NOOP nor a LOOP. -/
def Decoder.IsCommand (i : Decoder) : Prop := i.opCode ≠ OpCode.NOOP.value ∧ i.opCode ≠ OpCode.LOOP.value

instance (i : Decoder) : Decidable i.IsLoop := inferInstanceAs (Decidable (_ = _))

instance (i : Decoder) : Decidable i.IsCommand := inferInstanceAs (Decidable (_ ∧ _))

/-- The cycles an instruction takes. -/
def Decoder.cycles (i : Decoder) : Nat := if i.IsLoop then 1 else max 1 i.timeslice

theorem Decoder.cycles_pos (i : Decoder) : 0 < i.cycles := by
  unfold cycles
  split <;> omega

namespace Interp

structure State where
  pc : Nat
  loopCounter : Nat
deriving DecidableEq, Repr

/-- A visited instruction and its address. -/
structure Visit where
  pc : Nat
  instr : Decoder
deriving DecidableEq, Repr

/-- The cycles of a visited instruction. -/
def Visit.cycles (v : Visit) : Nat := v.instr.cycles

/-- The state after an instruction other than STOP. -/
def next (i : Decoder) (st : State) : Option State :=
  if i.IsLoop then
    if st.loopCounter ≠ i.loopCount then
      if i.loopJump ≤ st.pc then some ⟨st.pc - i.loopJump, st.loopCounter + 1⟩ else none
    else some ⟨st.pc + 1, 0⟩
  else some ⟨st.pc + 1, st.loopCounter⟩

/-- The instructions visited from `st` up to and including the first STOP. -/
def run (fetch : Nat → Decoder) : Nat → State → Option (List Visit)
  | 0, _ => none
  | fuel + 1, st =>
    if (fetch st.pc).stop then some [⟨st.pc, fetch st.pc⟩]
    else (next (fetch st.pc) st).bind fun st' => (run fetch fuel st').map (⟨st.pc, fetch st.pc⟩ :: ·)

section Run
variable {fetch : Nat → Decoder}

/-- The two ways a run goes on. -/
theorem run_succ_cases {fuel : Nat} {st : State} {tr : List Visit} (h : run fetch (fuel + 1) st = some tr) :
    ((fetch st.pc).stop = true ∧ tr = [⟨st.pc, fetch st.pc⟩]) ∨
      ((fetch st.pc).stop = false ∧ ∃ st' tr', next (fetch st.pc) st = some st' ∧ run fetch fuel st' = some tr' ∧
        tr = ⟨st.pc, fetch st.pc⟩ :: tr') := by
  rw [run] at h
  split at h
  · next hs =>
    cases h
    exact Or.inl ⟨hs, rfl⟩
  · next hs =>
    rw [Option.bind_eq_some_iff] at h
    obtain ⟨st', hst', h⟩ := h
    rw [Option.map_eq_some_iff] at h
    obtain ⟨tr', htr', rfl⟩ := h
    exact Or.inr ⟨by simpa using hs, st', tr', hst', htr', rfl⟩

/-- The three ways an instruction other than STOP goes on. -/
theorem next_cases {i : Decoder} {st st' : State} (h : next i st = some st') :
    (i.IsLoop ∧ st.loopCounter ≠ i.loopCount ∧ i.loopJump ≤ st.pc ∧
        st' = ⟨st.pc - i.loopJump, st.loopCounter + 1⟩) ∨
      (i.IsLoop ∧ st.loopCounter = i.loopCount ∧ st' = ⟨st.pc + 1, 0⟩) ∨
      (¬ i.IsLoop ∧ st' = ⟨st.pc + 1, st.loopCounter⟩) := by
  unfold next at h
  split at h
  · next hl =>
    split at h
    · next hc =>
      split at h
      · next hj =>
        cases h
        exact Or.inl ⟨hl, hc, hj, rfl⟩
      · cases h
    · next hc =>
      cases h
      exact Or.inr (Or.inl ⟨hl, by simpa using hc, rfl⟩)
  · next hl =>
    cases h
    exact Or.inr (Or.inr ⟨hl, rfl⟩)

/-- A run that starts at address 0 or has passed only instructions other than STOP cannot come back to a STOP: once the
loop counter is out of reach of every count below `m`, every LOOP jumps and the run never ends. -/
theorem run_eq_none_of_counter {m : Nat} (hm : ∀ a, (fetch a).loopCount < m) : ∀ (fuel : Nat) (st : State) (L : Nat),
    m ≤ st.loopCounter → st.pc ≤ L → (fetch L).IsLoop → (∀ a ≤ L, (fetch a).stop = false) →
    run fetch fuel st = none := by
  intro fuel
  induction fuel with
  | zero => intro st L _ _ _ _; rfl
  | succ fuel ih =>
    intro st L hc hpc hL hstop
    cases hr : run fetch (fuel + 1) st with
    | none => rfl
    | some tr =>
      exfalso
      rcases run_succ_cases hr with ⟨hs, -⟩ | ⟨-, st', tr', hn, hr', -⟩
      · rw [hstop st.pc hpc] at hs
        cases hs
      · have hcount := hm st.pc
        -- the counter never meets a count, so only a jump back or a step towards `L` is left
        rcases next_cases hn with ⟨-, -, -, rfl⟩ | ⟨-, heq, -⟩ | ⟨hnl, rfl⟩
        · rw [ih _ L (by simp only; omega) (by simp only; omega) hL hstop] at hr'
          cases hr'
        · omega
        · have hlt : st.pc ≠ L := by
            rintro rfl
            exact hnl hL
          rw [ih ⟨st.pc + 1, st.loopCounter⟩ L hc (by simp only; omega) hL hstop] at hr'
          cases hr'

/-- The trace does not depend on the fuel. -/
theorem run_unique : ∀ {fuel fuel' : Nat} {st : State} {tr tr' : List Visit}, run fetch fuel st = some tr →
    run fetch fuel' st = some tr' → tr = tr' := by
  intro fuel
  induction fuel with
  | zero => intro fuel' st tr tr' h; cases h
  | succ fuel ih =>
    intro fuel' st tr tr' h h'
    cases fuel' with
    | zero => cases h'
    | succ fuel' =>
      rcases run_succ_cases h with ⟨hs, rfl⟩ | ⟨hs, st₁, tr₁, hn, hr, rfl⟩ <;>
        rcases run_succ_cases h' with ⟨hs', rfl⟩ | ⟨hs', st₂, tr₂, hn', hr', rfl⟩
      · rfl
      · rw [hs] at hs'
        cases hs'
      · rw [hs] at hs'
        cases hs'
      · rw [hn] at hn'
        cases hn'
        rw [ih hr hr']

end Run

/-! ## Parts of a run -/

/-- The instructions visited from `st` to `st'`, none of them STOP. -/
inductive Steps (fetch : Nat → Decoder) : State → List Visit → State → Prop
  | refl (st : State) : Steps fetch st [] st
  | step {st st' st'' : State} {tr : List Visit} (hs : (fetch st.pc).stop = false)
      (hn : next (fetch st.pc) st = some st') (h : Steps fetch st' tr st'') :
      Steps fetch st (⟨st.pc, fetch st.pc⟩ :: tr) st''

section Steps
variable {fetch : Nat → Decoder}

theorem Steps.trans {st st' st'' : State} {tr tr' : List Visit} (h : Steps fetch st tr st')
    (h' : Steps fetch st' tr' st'') : Steps fetch st (tr ++ tr') st'' := by
  induction h with
  | refl st => exact h'
  | step hs hn _ ih => exact Steps.step hs hn (ih h')

/-- One instruction. -/
theorem Steps.one {st st' : State} {i : Decoder} (hi : fetch st.pc = i) (hs : i.stop = false)
    (hn : next i st = some st') : Steps fetch st [⟨st.pc, i⟩] st' := by
  subst hi
  exact Steps.step hs hn (Steps.refl _)

/-- A part of a run that ends before a STOP is the whole run. -/
theorem run_of_steps {st st' : State} {tr : List Visit} (h : Steps fetch st tr st')
    (hs : (fetch st'.pc).stop = true) : ∃ fuel, run fetch fuel st = some (tr ++ [⟨st'.pc, fetch st'.pc⟩]) := by
  induction h with
  | refl st => exact ⟨1, by rw [run, if_pos hs]; rfl⟩
  | @step st₁ st₂ st₃ tr hs₁ hn _ ih =>
    obtain ⟨fuel, hf⟩ := ih hs
    refine ⟨fuel + 1, ?_⟩
    rw [run, if_neg (by simp [hs₁]), hn, Option.bind_some, hf]
    rfl

/-- The instructions `is` stand at the addresses from `base` on. -/
def CodeAt (fetch : Nat → Decoder) (base : Nat) (is : List Decoder) : Prop :=
  ∀ k (h : k < is.length), fetch (base + k) = is[k]

theorem CodeAt.head {base : Nat} {i : Decoder} {is : List Decoder} (h : CodeAt fetch base (i :: is)) :
    fetch base = i := h 0 (by simp)

theorem CodeAt.tail {base : Nat} {i : Decoder} {is : List Decoder} (h : CodeAt fetch base (i :: is)) :
    CodeAt fetch (base + 1) is := by
  intro k hk
  have := h (k + 1) (by simpa using hk)
  rw [show base + 1 + k = base + (k + 1) by omega]
  simpa using this

theorem CodeAt.left {base : Nat} {is js : List Decoder} (h : CodeAt fetch base (is ++ js)) :
    CodeAt fetch base is := by
  intro k hk
  have := h k (by rw [List.length_append]; omega)
  rwa [List.getElem_append_left hk] at this

theorem CodeAt.right {base : Nat} {is js : List Decoder} (h : CodeAt fetch base (is ++ js)) :
    CodeAt fetch (base + is.length) js := by
  intro k hk
  have := h (is.length + k) (by rw [List.length_append]; omega)
  rw [Nat.add_assoc, this, List.getElem_append_right (by omega)]
  simp

/-- An instruction that just falls through: neither a LOOP nor a STOP. -/
def Plain (i : Decoder) : Prop := ¬ i.IsLoop ∧ i.stop = false

theorem steps_plain {i : Decoder} (hp : Plain i) {base c : Nat} (hi : fetch base = i) :
    Steps fetch ⟨base, c⟩ [⟨base, i⟩] ⟨base + 1, c⟩ := by
  have hn : next i ⟨base, c⟩ = some ⟨base + 1, c⟩ := by rw [next, if_neg hp.1]
  exact Steps.one hi hp.2 hn

/-- Straight-line code runs through. -/
theorem steps_straight {is : List Decoder} (hp : ∀ i ∈ is, Plain i) : ∀ {base c : Nat}, CodeAt fetch base is →
    ∃ tr, Steps fetch ⟨base, c⟩ tr ⟨base + is.length, c⟩ ∧ tr.map Visit.instr = is := by
  induction is with
  | nil => intro base c _; exact ⟨[], Steps.refl _, rfl⟩
  | cons i is ih =>
    intro base c hc
    obtain ⟨tr, htr, hmap⟩ := ih (fun j hj => hp j (List.mem_cons_of_mem _ hj)) (c := c) hc.tail
    have hone : Steps fetch ⟨base, c⟩ [⟨base, i⟩] ⟨base + 1, c⟩ := steps_plain (hp i (List.mem_cons_self ..)) hc.head
    refine ⟨_, hone.trans (by rwa [show base + 1 + is.length = base + (i :: is).length by simp; omega] at htr), ?_⟩
    simp [hmap]

/-- The rest of a loop around straight-line code, entered with the loop counter at `c`. -/
theorem steps_loop_from {body : List Decoder} {l : Decoder} (hp : ∀ i ∈ body, Plain i) (hl : l.IsLoop)
    (hls : l.stop = false) (hj : l.loopJump = body.length) {base : Nat} (hc : CodeAt fetch base (body ++ [l])) :
    ∀ (n c : Nat), c + n = l.loopCount →
    ∃ tr, Steps fetch ⟨base, c⟩ tr ⟨base + body.length + 1, 0⟩ ∧
      tr.map Visit.instr = (List.replicate (n + 1) (body ++ [l])).flatten := by
  have hfl : fetch (base + body.length) = l := hc.right.head
  intro n
  induction n with
  | zero =>
    intro c hcn
    obtain ⟨tr, htr, hmap⟩ := steps_straight hp (c := c) hc.left
    have hn : next l ⟨base + body.length, c⟩ = some ⟨base + body.length + 1, 0⟩ := by
      rw [next, if_pos hl, if_neg (by simp only; omega)]
    have hlast : Steps fetch ⟨base + body.length, c⟩ [⟨base + body.length, l⟩] ⟨base + body.length + 1, 0⟩ :=
      Steps.one hfl hls hn
    exact ⟨_, htr.trans hlast, by simp [hmap]⟩
  | succ n ih =>
    intro c hcn
    obtain ⟨tr, htr, hmap⟩ := steps_straight hp (c := c) hc.left
    obtain ⟨tr', htr', hmap'⟩ := ih (c + 1) (by omega)
    have hn : next l ⟨base + body.length, c⟩ = some ⟨base, c + 1⟩ := by
      rw [next, if_pos hl, if_pos (by simp only; omega), if_pos (by simp only; omega)]
      simp [hj]
    have hjump : Steps fetch ⟨base + body.length, c⟩ [⟨base + body.length, l⟩] ⟨base, c + 1⟩ :=
      Steps.one hfl hls hn
    refine ⟨_, htr.trans (hjump.trans htr'), ?_⟩
    rw [List.replicate_succ (n := n + 1), List.flatten_cons, ← hmap']
    simp [hmap]

/-- A LOOP reached behind its body: it jumps back `count` times. -/
theorem steps_loop_reached {body : List Decoder} {l : Decoder} (hp : ∀ i ∈ body, Plain i) (hl : l.IsLoop)
    (hls : l.stop = false) (hj : l.loopJump = body.length) {base : Nat} (hc : CodeAt fetch base (body ++ [l])) :
    ∃ tr, Steps fetch ⟨base + body.length, 0⟩ tr ⟨base + body.length + 1, 0⟩ ∧
      tr.map Visit.instr = l :: (List.replicate l.loopCount (body ++ [l])).flatten := by
  have hfl : fetch (base + body.length) = l := hc.right.head
  by_cases hzero : l.loopCount = 0
  · have hn : next l ⟨base + body.length, 0⟩ = some ⟨base + body.length + 1, 0⟩ := by
      rw [next, if_pos hl, if_neg (by simp only; omega)]
    exact ⟨_, Steps.one hfl hls hn, by simp [hzero]⟩
  · have hn : next l ⟨base + body.length, 0⟩ = some ⟨base, 1⟩ := by
      rw [next, if_pos hl, if_pos (by simp only; omega), if_pos (by simp only; omega)]
      simp [hj]
    obtain ⟨tr, htr, hmap⟩ := steps_loop_from hp hl hls hj hc (l.loopCount - 1) 1 (by omega)
    have hjump : Steps fetch ⟨base + body.length, 0⟩ [⟨base + body.length, l⟩] ⟨base, 1⟩ := Steps.one hfl hls hn
    refine ⟨_, hjump.trans htr, ?_⟩
    rw [List.map_append, hmap, show l.loopCount - 1 + 1 = l.loopCount by omega]
    rfl

/-- A part of a run that starts up to a STOP does not get past it. -/
theorem Steps.pc_lt {n : Nat} (hstop : (fetch n).stop = true) {st st' : State} {tr : List Visit}
    (h : Steps fetch st tr st') (hst : st.pc ≤ n) : (∀ v ∈ tr, v.pc < n) ∧ st'.pc ≤ n := by
  induction h with
  | refl st => exact ⟨by simp, hst⟩
  | @step st₁ st₂ st₃ tr hs hn _ ih =>
    have hne : st₁.pc ≠ n := by
      rintro rfl
      rw [hstop] at hs
      cases hs
    have hnext : st₂.pc ≤ n := by
      rcases next_cases hn with ⟨-, -, -, rfl⟩ | ⟨-, -, rfl⟩ | ⟨-, rfl⟩ <;> simp only <;> omega
    obtain ⟨hlt, hle⟩ := ih hnext
    refine ⟨fun v hv => ?_, hle⟩
    rcases List.mem_cons.mp hv with rfl | hv
    · exact Nat.lt_of_le_of_ne hst hne
    · exact hlt v hv

theorem Steps.not_stop {st st' : State} {tr : List Visit} (h : Steps fetch st tr st') :
    ∀ v ∈ tr, (fetch v.pc).stop = false := by
  induction h with
  | refl st => exact fun v hv => absurd hv List.not_mem_nil
  | step hs _ _ ih => exact List.forall_mem_cons.mpr ⟨hs, ih⟩

/-- Memories that agree on the visited addresses have the same run. -/
theorem Steps.congr {fetch' : Nat → Decoder} {st st' : State} {tr : List Visit} (h : Steps fetch st tr st')
    (heq : ∀ v ∈ tr, fetch' v.pc = fetch v.pc) : Steps fetch' st tr st' := by
  induction h with
  | refl st => exact Steps.refl st
  | @step st₁ st₂ st₃ tr hs hn _ ih =>
    obtain ⟨hfirst, hrest⟩ := List.forall_mem_cons.mp heq
    rw [← hfirst] at hs hn ⊢
    exact Steps.step hs hn (ih hrest)

/-- Code that is run through in every memory is not left before its end. -/
theorem exists_steps_within {P : List Visit → Prop} {base : Nat} {is : List Decoder} {st st' : State}
    (h : ∀ fetch, CodeAt fetch base is → ∃ tr, Steps fetch st tr st' ∧ P tr) (hc : CodeAt fetch base is) :
    ∃ tr, Steps fetch st tr st' ∧ P tr ∧ ∀ v ∈ tr, base ≤ v.pc ∧ v.pc < base + is.length := by
  -- in a memory of STOPs around the code nothing else can be visited
  let guarded (a : Nat) : Decoder :=
    if base ≤ a ∧ a < base + is.length then fetch a else { fetch a with stop := true }
  have hcode : CodeAt guarded base is := by
    intro k hk
    have hin : base ≤ base + k ∧ base + k < base + is.length := ⟨Nat.le_add_right _ _, Nat.add_lt_add_left hk _⟩
    exact (if_pos hin).trans (hc k hk)
  obtain ⟨tr, htr, hP⟩ := h guarded hcode
  have hwithin : ∀ v ∈ tr, base ≤ v.pc ∧ v.pc < base + is.length := by
    intro v hv
    by_contra hout
    have hstop := htr.not_stop v hv
    rw [show guarded v.pc = { fetch v.pc with stop := true } from if_neg hout] at hstop
    cases hstop
  exact ⟨tr, htr.congr fun v hv => (if_pos (hwithin v hv)).symm, hP, hwithin⟩

/-- **A loop around straight-line code** runs its body `count + 1` times and leaves the loop counter at 0. -/
theorem steps_loop {body : List Decoder} {l : Decoder} (hp : ∀ i ∈ body, Plain i) (hl : l.IsLoop)
    (hls : l.stop = false) (hj : l.loopJump = body.length) {base : Nat} (hc : CodeAt fetch base (body ++ [l])) :
    ∃ tr, Steps fetch ⟨base, 0⟩ tr ⟨base + body.length + 1, 0⟩ ∧
      tr.map Visit.instr = (List.replicate (l.loopCount + 1) (body ++ [l])).flatten :=
  steps_loop_from hp hl hls hj hc l.loopCount 0 (by omega)

end Steps

/-! ## What is issued in each cycle -/

/-- The instruction that a trace issues in cycle `k`: a LOOP issues nothing, any other instruction itself in its first
cycle. -/
def issuedAt : List Visit → Nat → Option Decoder
  | [], _ => none
  | v :: tr, k =>
    if k = 0 then (if v.instr.IsLoop then none else some v.instr)
    else if k < v.cycles then none
    else issuedAt tr (k - v.cycles)

theorem issuedAt_eq_some_iff {tr : List Visit} : ∀ {t k : Nat} {i : Decoder},
    issuedAt tr k = some i ↔ ∃ v, (t + k, v) ∈ timed Visit.cycles t tr ∧ v.instr = i ∧ ¬ i.IsLoop := by
  induction tr with
  | nil => intro t k i; simp [issuedAt, timed]
  | cons x tr ih =>
    intro t k i
    have hx : 0 < x.cycles := x.instr.cycles_pos
    simp only [issuedAt, timed, List.mem_cons]
    by_cases hk : k = 0
    · subst hk
      rw [if_pos rfl, Nat.add_zero]
      constructor
      · intro h
        split at h
        · cases h
        · next hl =>
          cases h
          exact ⟨x, Or.inl rfl, rfl, hl⟩
      · rintro ⟨v, hv | hv, rfl, hl⟩
        · cases hv
          rw [if_neg hl]
        · have := le_of_mem_timed Visit.cycles hv
          omega
    · rw [if_neg hk]
      by_cases hlt : k < x.cycles
      · rw [if_pos hlt]
        refine ⟨fun h => (by cases h), ?_⟩
        rintro ⟨v, hv | hv, -, -⟩
        · have := (Prod.mk.inj hv).1
          omega
        · have := le_of_mem_timed Visit.cycles hv
          omega
      · rw [if_neg hlt, ih (t := t + x.cycles), show t + x.cycles + (k - x.cycles) = t + k by omega]
        constructor
        · rintro ⟨v, hv, h⟩
          exact ⟨v, Or.inr hv, h⟩
        · rintro ⟨v, hv | hv, h⟩
          · have := (Prod.mk.inj hv).1
            omega
          · exact ⟨v, hv, h⟩

end Interp

end RowhammerTester.Gateware
