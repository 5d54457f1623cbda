import RowhammerTester.Gateware.Codec
import RowhammerTester.Gateware.PayloadExecutor
import Mathlib.Tactic.IntervalCases

/-!
# The payload executor refines the interpreter

`Sim st s` relates the interpreter to the executor at the start of an instruction: RUN, the same counters, and the
memory port showing the word at the program counter. One instruction of the interpreter is `Decoder.cycles` clock edges
of the executor (`sim_next`), the last one is followed by READY (`sim_stop`); `run_sim` puts them together. The loop
counter of a run that reaches STOP never leaves its 12 bits (`run_eq_none_of_counter`).
-/

namespace RowhammerTester.Gateware
open RowhammerTester.Hdl

/-! ## Decoded words -/

theorem Decoder.opCode_decode_lt (g : Geometry) (w : BitVec 32) : (decode g w).opCode < 8 := slice_lt _ _ _

theorem Decoder.loopCount_decode_lt (g : Geometry) (w : BitVec 32) : (decode g w).loopCount < 2 ^ 12 := slice_lt _ _ _

theorem Decoder.stop_decode {g : Geometry} {w : BitVec 32} (h : (decode g w).stop = true) :
    (decode g w).opCode = OpCode.NOOP.value ∧ (decode g w).timeslice = 0 := by
  simp only [decode, Bool.and_eq_true, beq_iff_eq] at h ⊢
  exact h

theorem Decoder.not_isLoop_of_stop {g : Geometry} {w : BitVec 32} (h : (decode g w).stop = true) :
    ¬ (decode g w).IsLoop := by
  rw [IsLoop, (stop_decode h).1]
  decide

theorem Decoder.strobes_decode (g : Geometry) (w : BitVec 32) : (decode g w).cas = (decode g w).opCode.testBit 1 ∧
    (decode g w).ras = (decode g w).opCode.testBit 2 ∧ (decode g w).we = (decode g w).opCode.testBit 0 :=
  ⟨rfl, rfl, rfl⟩

/-- The strobes select READ exactly for the READ op code. -/
theorem Decoder.read_decode (g : Geometry) (w : BitVec 32) :
    ((decode g w).cas && !(decode g w).ras && !(decode g w).we) = decide ((decode g w).opCode = OpCode.READ.value) := by
  obtain ⟨h1, h2, h3⟩ := strobes_decode g w
  rw [h1, h2, h3]
  have h := opCode_decode_lt g w
  generalize (decode g w).opCode = op at h
  interval_cases op <;> decide

namespace PayloadExecutor

/-- The decoded payload memory. -/
def fetch (p : Params) (mem : Nat → BitVec 32) (a : Nat) : Decoder := Decoder.decode p.geometry (mem a)

/-- The command sent in this cycle. -/
def issue (p : Params) (s : State) : Option Decoder := if exec p s then some (decoder p s) else none

/-- The executor starts the instruction that the interpreter is about to execute. -/
structure Sim (p : Params) (mem : Nat → BitVec 32) (st : Interp.State) (s : State) : Prop where
  fsm : s.fsm = .RUN
  pc : s.programCounter = st.pc
  counter : s.loopCounter = st.loopCounter
  instruction : s.instruction = mem st.pc
  wantsDfi : s.wantsDfi = true

section Sim
variable {p : Params} {mem : Nat → BitVec 32} {st st' : Interp.State} {s : State}

theorem Sim.decoder (h : Sim p mem st s) : decoder p s = fetch p mem st.pc := by
  rw [PayloadExecutor.decoder, fetch, h.instruction]

theorem Sim.executing (h : Sim p mem st s) : executing s = true := by simp [PayloadExecutor.executing, h.fsm]

theorem Sim.issue (h : Sim p mem st s) :
    issue p s = if (fetch p mem st.pc).IsLoop then none else some (fetch p mem st.pc) := by
  unfold PayloadExecutor.issue exec
  rw [h.decoder, h.fsm]
  by_cases hl : (fetch p mem st.pc).IsLoop <;> simp [hl]

/-- Waiting in IDLE: `n + 1` cycles without a command, then the next instruction. -/
theorem idle_run {n : Nat} : ∀ (s : State) (inp : Nat → Input), s.fsm = .IDLE → s.idleCounter = n →
    s.programCounter = st.pc → s.loopCounter = st.loopCounter → s.wantsDfi = true → st.pc + 1 < 2 ^ p.pcBits →
    (∀ k ≤ n, PayloadExecutor.executing (run (step p mem) s inp k) = true ∧
      PayloadExecutor.issue p (run (step p mem) s inp k) = none) ∧
    Sim p mem ⟨st.pc + 1, st.loopCounter⟩ (run (step p mem) s inp (n + 1)) := by
  induction n with
  | zero =>
    intro s inp hf hi hpc hlc hw hlt
    obtain ⟨h1, h2, h3, h4, h5⟩ := step_idle_done p mem (inp 0) hf hi
    rw [hpc, Nat.mod_eq_of_lt hlt] at h2 h5
    refine ⟨fun k hk => ?_, ⟨h1, h2, h3.trans hlc, h5, h4.trans hw⟩⟩
    obtain rfl : k = 0 := by omega
    exact ⟨by simp [PayloadExecutor.executing, hf], by simp [PayloadExecutor.issue, exec, hf]⟩
  | succ n ih =>
    intro s inp hf hi hpc hlc hw hlt
    obtain ⟨h1, h2, h3, h4, h5⟩ := step_idle_wait p mem (inp 0) hf (by omega)
    obtain ⟨hbusy, hsim⟩ := ih _ (fun k => inp (k + 1)) h1 (by omega) (h3.trans hpc) (h4.trans hlc)
      (h5.trans hw) hlt
    refine ⟨fun k hk => ?_, by rw [run_succ']; exact hsim⟩
    cases k with
    | zero => exact ⟨by simp [PayloadExecutor.executing, hf], by simp [PayloadExecutor.issue, exec, hf]⟩
    | succ k =>
      rw [run_succ']
      exact hbusy k (by omega)

theorem lt_two_pow_pcBits {a : Nat} (h : a < p.depth - 1) : a < 2 ^ p.pcBits := lt_two_pow_signalMax h

theorem Sim.not_terminates (h : Sim p mem st s) (hs : (fetch p mem st.pc).stop = false) (hpc : st.pc < p.depth - 1) :
    ¬ Terminates p s := by
  unfold Terminates
  rw [h.pc, h.decoder, hs]
  simp only [Bool.false_eq_true, or_false]
  omega

/-- A LOOP that jumps. -/
theorem Sim.step_jump (h : Sim p mem st s) (i : Input) (hT : ¬ Terminates p s) (hpc : st.pc < p.depth - 1)
    (hl : (fetch p mem st.pc).IsLoop) (hne : st.loopCounter ≠ (fetch p mem st.pc).loopCount)
    (hj : (fetch p mem st.pc).loopJump ≤ st.pc) (hc : st.loopCounter + 1 < 2 ^ 12) :
    Sim p mem ⟨st.pc - (fetch p mem st.pc).loopJump, st.loopCounter + 1⟩ (step p mem s i) := by
  have hd := h.decoder
  have hsub : subMod p.pcBits s.programCounter (PayloadExecutor.decoder p s).loopJump =
      st.pc - (fetch p mem st.pc).loopJump := by
    rw [hd, h.pc, subMod_of_le (lt_two_pow_pcBits hpc) hj]
  obtain ⟨e1, e2⟩ := step_run_exit p mem i h.fsm (Or.inl (by rw [hd]; exact hl))
  obtain ⟨e3, e4, e5⟩ := step_run_jump p mem i h.fsm (by rw [hd]; exact hl) (by rw [hd, h.counter]; exact hne)
  rw [if_neg hT] at e1 e2
  rw [hsub] at e3 e5
  rw [h.counter, Nat.mod_eq_of_lt hc] at e4
  exact ⟨e1, e3, e4, e5, e2.trans h.wantsDfi⟩

/-- A LOOP that falls through. -/
theorem Sim.step_fall (h : Sim p mem st s) (i : Input) (hT : ¬ Terminates p s) (hpc : st.pc + 1 < p.depth - 1)
    (hl : (fetch p mem st.pc).IsLoop) (heq : st.loopCounter = (fetch p mem st.pc).loopCount) :
    Sim p mem ⟨st.pc + 1, 0⟩ (step p mem s i) := by
  have hd := h.decoder
  obtain ⟨e1, e2⟩ := step_run_exit p mem i h.fsm (Or.inl (by rw [hd]; exact hl))
  obtain ⟨e3, e4, e5⟩ := step_run_fall p mem i h.fsm (by rw [hd]; exact hl) (by rw [hd, h.counter]; exact heq)
  rw [if_neg hT] at e1 e2
  rw [h.pc, Nat.mod_eq_of_lt (lt_two_pow_pcBits hpc)] at e3 e5
  exact ⟨e1, e3, e4, e5, e2.trans h.wantsDfi⟩

/-- A command or NOOP of one cycle. -/
theorem Sim.step_short (h : Sim p mem st s) (i : Input) (hT : ¬ Terminates p s) (hpc : st.pc + 1 < p.depth - 1)
    (hl : ¬ (fetch p mem st.pc).IsLoop)
    (ht : (fetch p mem st.pc).timeslice = 0 ∨ (fetch p mem st.pc).timeslice = 1) :
    Sim p mem ⟨st.pc + 1, st.loopCounter⟩ (step p mem s i) := by
  have hd := h.decoder
  obtain ⟨e1, e2⟩ := step_run_exit p mem i h.fsm (Or.inr (by rw [hd]; exact ht))
  obtain ⟨e3, e4, e5⟩ := step_run_short p mem i h.fsm (by rw [hd]; exact hl) (by rw [hd]; exact ht)
  rw [if_neg hT] at e1 e2
  rw [h.pc, Nat.mod_eq_of_lt (lt_two_pow_pcBits hpc)] at e3 e5
  exact ⟨e1, e3, e4.trans h.counter, e5, e2.trans h.wantsDfi⟩

/-- A longer one spends the rest of its cycles in IDLE. -/
theorem Sim.run_long (h : Sim p mem st s) (inp : Nat → Input) (hT : ¬ Terminates p s) (hpc : st.pc + 1 < p.depth - 1)
    (hl : ¬ (fetch p mem st.pc).IsLoop) (ht : 2 ≤ (fetch p mem st.pc).timeslice) :
    (∀ k ≤ (fetch p mem st.pc).timeslice - 2,
      PayloadExecutor.executing (run (step p mem) s inp (k + 1)) = true ∧
        PayloadExecutor.issue p (run (step p mem) s inp (k + 1)) = none) ∧
    Sim p mem ⟨st.pc + 1, st.loopCounter⟩ (run (step p mem) s inp ((fetch p mem st.pc).timeslice - 2 + 1 + 1)) := by
  have hd := h.decoder
  obtain ⟨e1, e2, e3, e4, e5⟩ := step_run_long p mem (inp 0) h.fsm (by rw [hd]; exact hl) (by rw [hd]; exact ht)
  rw [if_neg hT] at e5
  rw [hd] at e2
  obtain ⟨hbusy, hsim⟩ := idle_run _ (fun k => inp (k + 1)) e1 e2 (e3.trans h.pc) (e4.trans h.counter)
    (e5.trans h.wantsDfi) (lt_two_pow_pcBits hpc)
  refine ⟨fun k hk => ?_, by rw [run_succ']; exact hsim⟩
  rw [run_succ']
  exact hbusy k hk

/-- The executor does one instruction of the interpreter in its cycles. -/
theorem sim_next (inp : Nat → Input) (h : Sim p mem st s) (hs : (fetch p mem st.pc).stop = false)
    (hn : Interp.next (fetch p mem st.pc) st = some st') (hpc : st.pc < p.depth - 1) (hpc' : st'.pc < p.depth - 1)
    (hc : st'.loopCounter < 2 ^ 12) :
    (∀ k < (fetch p mem st.pc).cycles, PayloadExecutor.executing (run (step p mem) s inp k) = true ∧
      PayloadExecutor.issue p (run (step p mem) s inp k) =
        if k = 0 then (if (fetch p mem st.pc).IsLoop then none else some (fetch p mem st.pc)) else none) ∧
    Sim p mem st' (run (step p mem) s inp (fetch p mem st.pc).cycles) := by
  have hT := h.not_terminates hs hpc
  have hone : ∀ k < 1, PayloadExecutor.executing (run (step p mem) s inp k) = true ∧
      PayloadExecutor.issue p (run (step p mem) s inp k) =
        if k = 0 then (if (fetch p mem st.pc).IsLoop then none else some (fetch p mem st.pc)) else none := by
    intro k hk
    obtain rfl : k = 0 := by omega
    exact ⟨h.executing, by rw [if_pos rfl]; exact h.issue⟩
  rcases Interp.next_cases hn with ⟨hl, hne, hj, rfl⟩ | ⟨hl, heq, rfl⟩ | ⟨hl, rfl⟩
  · rw [Decoder.cycles, if_pos hl]
    exact ⟨hone, h.step_jump (inp 0) hT hpc hl hne hj hc⟩
  · rw [Decoder.cycles, if_pos hl]
    exact ⟨hone, h.step_fall (inp 0) hT hpc' hl heq⟩
  · by_cases ht : (fetch p mem st.pc).timeslice = 0 ∨ (fetch p mem st.pc).timeslice = 1
    · rw [Decoder.cycles, if_neg hl, show max 1 (fetch p mem st.pc).timeslice = 1 by omega]
      exact ⟨hone, h.step_short (inp 0) hT hpc' hl ht⟩
    · obtain ⟨hbusy, hsim⟩ := h.run_long inp hT hpc' hl (by omega)
      rw [Decoder.cycles, if_neg hl,
        show max 1 (fetch p mem st.pc).timeslice = (fetch p mem st.pc).timeslice - 2 + 1 + 1 by omega]
      refine ⟨fun k hk => ?_, hsim⟩
      cases k with
      | zero => exact hone 0 (by omega)
      | succ k =>
        rw [if_neg (by omega)]
        exact hbusy k (by omega)

theorem sim_stop (i : Input) (h : Sim p mem st s) (hs : (fetch p mem st.pc).stop = true) :
    (step p mem s i).fsm = .READY ∧ (step p mem s i).wantsDfi = false := by
  have hts : (fetch p mem st.pc).timeslice = 0 := (Decoder.stop_decode hs).2
  have hterm : Terminates p s := Or.inr (by rw [h.decoder]; exact hs)
  have := step_run_exit p mem i h.fsm (Or.inr (Or.inl (by rw [h.decoder]; exact hts)))
  rwa [if_pos hterm, if_pos hterm] at this

theorem cycles_stop {a : Nat} (hs : (fetch p mem a).stop = true) : (fetch p mem a).cycles = 1 := by
  have hl : ¬ (fetch p mem a).IsLoop := Decoder.not_isLoop_of_stop hs
  have hts : (fetch p mem a).timeslice = 0 := (Decoder.stop_decode hs).2
  rw [Decoder.cycles, if_neg hl, hts]
  rfl

/-- The loop counter of a run that reaches STOP stays within its 12 bits: past them every LOOP would jump. -/
theorem loopCounter_lt {fuel : Nat} {tr : List Interp.Visit} (hc : st.loopCounter < 2 ^ 12)
    (hstops : ∀ a ≤ st.pc, (fetch p mem a).stop = false) (hn : Interp.next (fetch p mem st.pc) st = some st')
    (hrun : Interp.run (fetch p mem) fuel st' = some tr) : st'.loopCounter < 2 ^ 12 := by
  have hcount : ∀ a, (fetch p mem a).loopCount < 2 ^ 12 := fun a => Decoder.loopCount_decode_lt _ _
  by_contra hge
  rcases Interp.next_cases hn with ⟨hl, -, -, rfl⟩ | ⟨-, -, rfl⟩ | ⟨-, rfl⟩
  · rw [Interp.run_eq_none_of_counter hcount fuel _ st.pc (Nat.le_of_not_lt hge) (Nat.sub_le _ _) hl hstops] at hrun
    cases hrun
  · exact hge (Nat.two_pow_pos 12)
  · exact hge hc

/-- The executor follows a whole run of the interpreter. -/
theorem run_sim (hstops : ∀ a < st.pc, (fetch p mem a).stop = false) {fuel : Nat} : ∀ {tr : List Interp.Visit}
    (inp : Nat → Input), Interp.run (fetch p mem) fuel st = some tr → (∀ v ∈ tr, v.pc < p.depth - 1) →
    Sim p mem st s → st.loopCounter < 2 ^ 12 →
    (∀ k < duration Interp.Visit.cycles tr, PayloadExecutor.executing (run (step p mem) s inp k) = true ∧
      PayloadExecutor.issue p (run (step p mem) s inp k) = Interp.issuedAt tr k) ∧
    (run (step p mem) s inp (duration Interp.Visit.cycles tr)).fsm = .READY ∧
    (run (step p mem) s inp (duration Interp.Visit.cycles tr)).wantsDfi = false := by
  induction fuel generalizing st s with
  | zero => intro tr inp h; cases h
  | succ fuel ih =>
    intro tr inp hrun hvisit hsim hcount
    rcases Interp.run_succ_cases hrun with ⟨hs, rfl⟩ | ⟨hs, st', tr', hn, hrun', rfl⟩
    · rw [duration_cons, duration_nil, Interp.Visit.cycles, cycles_stop hs]
      refine ⟨fun k hk => ?_, sim_stop (inp 0) hsim hs⟩
      obtain rfl : k = 0 := by omega
      exact ⟨hsim.executing, by rw [run_zero, hsim.issue, Interp.issuedAt, if_pos rfl]⟩
    · have hpc := hvisit _ (List.mem_cons_self ..)
      have hvisit' : ∀ v ∈ tr', v.pc < p.depth - 1 := fun v hv => hvisit v (List.mem_cons_of_mem _ hv)
      have hpc' : st'.pc < p.depth - 1 := by
        cases fuel with
        | zero => cases hrun'
        | succ fuel =>
          rcases Interp.run_succ_cases hrun' with ⟨-, rfl⟩ | ⟨-, _, _, -, -, rfl⟩ <;>
            exact hvisit' _ (List.mem_cons_self ..)
      have hstops₁ : ∀ a ≤ st.pc, (fetch p mem a).stop = false := by
        intro a ha
        rcases Nat.lt_or_eq_of_le ha with ha | rfl
        · exact hstops a ha
        · exact hs
      have hstops' : ∀ a < st'.pc, (fetch p mem a).stop = false := by
        intro a ha
        rcases Interp.next_cases hn with ⟨-, -, -, rfl⟩ | ⟨-, -, rfl⟩ | ⟨-, rfl⟩ <;>
          exact hstops₁ a (by simp only at ha; omega)
      have hc : st'.loopCounter < 2 ^ 12 := loopCounter_lt hcount hstops₁ hn hrun'
      obtain ⟨hfirst, hsim'⟩ := sim_next inp hsim hs hn hpc hpc' hc
      obtain ⟨hrest, hend⟩ := ih hstops' (fun k => inp ((fetch p mem st.pc).cycles + k)) hrun' hvisit' hsim' hc
      rw [duration_cons, Interp.Visit.cycles, run_add]
      refine ⟨fun k hk => ?_, hend⟩
      by_cases hk' : k < (fetch p mem st.pc).cycles
      · obtain ⟨h1, h2⟩ := hfirst k hk'
        refine ⟨h1, ?_⟩
        rw [h2, Interp.issuedAt, Interp.Visit.cycles]
        by_cases hk0 : k = 0
        · rw [if_pos hk0, if_pos hk0]
        · rw [if_neg hk0, if_neg hk0, if_pos hk']
      · obtain ⟨j, rfl⟩ := Nat.exists_eq_add_of_le (Nat.le_of_not_lt hk')
        have hpos := (fetch p mem st.pc).cycles_pos
        rw [run_add, Interp.issuedAt, Interp.Visit.cycles, if_neg (by omega), if_neg hk', Nat.add_sub_cancel_left]
        exact hrest j (Nat.lt_of_add_lt_add_left hk)

end Sim

/-! ## Refinement -/

/-- The phase of a command: `rdphase` for READ, phase 0 otherwise. -/
def sendPhase (p : Params) (d : Decoder) : Nat := if d.opCode = OpCode.READ.value then p.rdphase else 0

theorem commandPhase_decoder {p : Params} (hrd : p.rdphase < 2 ^ DfiExecutor.phaseBits p.nphases) (s : State) :
    commandPhase p (decoder p s) = sendPhase p (decoder p s) := by
  have hread := Decoder.read_decode p.geometry s.instruction
  unfold commandPhase sendPhase decoder
  rw [hread, Nat.mod_eq_of_lt hrd]
  by_cases h : (Decoder.decode p.geometry s.instruction).opCode = OpCode.READ.value <;> simp [h]

section Phases
variable {p : Params} {mem : Nat → BitVec 32} {s : State} {i : Input}

theorem decoder_of_issue {d : Decoder} (h : issue p s = some d) : exec p s = true ∧ decoder p s = d := by
  unfold issue at h
  split at h
  · next he => exact ⟨he, Option.some.inj h⟩
  · cases h

/-- A NOOP selects nothing. -/
theorem step_noop (he : exec p s = true) (hop : (decoder p s).opCode = OpCode.NOOP.value) (k : Nat) :
    ((step p mem s i).phases k).Deselected p.nranks := by
  by_cases hk : k = commandPhase p (decoder p s)
  · subst hk
    obtain ⟨h1, h2, h3⟩ := Decoder.strobes_decode p.geometry s.instruction
    have hop' : (Decoder.decode p.geometry s.instruction).opCode = 0 := hop
    rw [hop', Nat.zero_testBit] at h1 h2 h3
    exact (step_shows p mem i he).deselected_of_noop hop h1 h2 h3
  · exact step_deselected_other p mem i he hk

/-- The phases after a cycle, from the command issued in it. -/
theorem step_phases_of_issue (hrd : p.rdphase < 2 ^ DfiExecutor.phaseBits p.nphases) (k : Nat)
    (h : ∀ d, issue p s = some d → d.IsCommand → k ≠ sendPhase p d) :
    ((step p mem s i).phases k).Deselected p.nranks := by
  by_cases he : exec p s = true
  · by_cases hop : (decoder p s).opCode = OpCode.NOOP.value
    · exact step_noop he hop k
    · have hl : (decoder p s).opCode ≠ OpCode.LOOP.value := by
        simp only [exec, Bool.and_eq_true, Bool.not_eq_true', decide_eq_false_iff_not] at he
        exact he.2
      refine step_deselected_other p mem i he ?_
      rw [commandPhase_decoder hrd]
      exact h _ (by rw [issue, if_pos he]) ⟨hop, hl⟩
  · exact step_deselected p mem i (by simpa using he) k

end Phases

/-- From the start pulse to the first RUN cycle. -/
theorem run_wait (p : Params) (mem : Nat → BitVec 32) {s : State} (hs : s.fsm = .READY) (hlc : s.loopCounter = 0)
    {inp : Nat → Input} (hstart : (inp 0).start = true) {w : Nat}
    (hwait : ∀ k < w, (inp (k + 1)).dfiReady = false) (hready : (inp (w + 1)).dfiReady = true) :
    (∀ k ≤ w, (run (step p mem) s inp (k + 1)).fsm = .WAIT_DFI) ∧
      Sim p mem ⟨0, 0⟩ (run (step p mem) s inp (w + 2)) := by
  have hinv : ∀ k ≤ w, (run (step p mem) s inp (k + 1)).fsm = .WAIT_DFI ∧
      (run (step p mem) s inp (k + 1)).wantsDfi = true ∧ (run (step p mem) s inp (k + 1)).loopCounter = 0 := by
    intro k
    induction k with
    | zero =>
      intro _
      obtain ⟨h1, h2, h3⟩ := step_start p mem (inp 0) hs hstart
      exact ⟨h1, h2, h3.trans hlc⟩
    | succ k ih =>
      intro hk
      obtain ⟨h1, h2, h3⟩ := ih (by omega)
      obtain ⟨e1, e2, e3⟩ := step_wait p mem (inp (k + 1)) h1 (hwait k (by omega))
      exact ⟨e1, e2.trans h2, e3.trans h3⟩
  obtain ⟨h1, h2, h3⟩ := hinv w (le_refl w)
  obtain ⟨e1, e2, e3, e4, e5⟩ := step_dfiReady p mem (inp (w + 1)) h1 hready
  exact ⟨fun k hk => (hinv k hk).1, ⟨e1, e4, e3.trans h3, e5, e2.trans h2⟩⟩

/-- Only RUN cycles send a command, and the first of them is cycle `w + 2`. -/
theorem le_of_exec {s : State} {inp : Nat → Input} {w u : Nat} (hs : s.fsm = .READY)
    (hw : ∀ k ≤ w, (run (step p mem) s inp (k + 1)).fsm = .WAIT_DFI) (he : exec p (run (step p mem) s inp u) = true) :
    w + 2 ≤ u := by
  by_contra hlt
  have hne : (run (step p mem) s inp u).fsm ≠ .RUN := by
    rcases Nat.eq_zero_or_pos u with rfl | hpos
    · rw [run_zero, hs]
      decide
    · obtain ⟨k, rfl⟩ := Nat.exists_eq_add_of_le' hpos
      rw [hw k (by omega)]
      decide
  rw [exec_of_not_run p hne] at he
  cases he

/-- **The executor refines the interpreter.** If the interpreter, started at address 0 with loop counter 0, reaches a
STOP while visiting only addresses up to `depth - 2`, then the executor, started from READY and given the DFI after `w`
cycles, executes for exactly the interpreter's cycles and is back in READY. Every command of the interpreter is sent in
its cycle, counted from the first RUN cycle, and stands on its phase of the DFI one clock edge later; no other cycle
selects any phase. -/
theorem executor_refines_interp (p : Params) (mem : Nat → BitVec 32) (hd : 2 ≤ p.depth)
    (hrd : p.rdphase < 2 ^ DfiExecutor.phaseBits p.nphases) (fuel : Nat) (tr : List Interp.Visit)
    (hrun : Interp.run (fetch p mem) fuel ⟨0, 0⟩ = some tr) (hvisit : ∀ v ∈ tr, v.pc ≤ p.depth - 2)
    (s : State) (hs : s.fsm = .READY) (hlc : s.loopCounter = 0) (inp : Nat → Input)
    (hstart : (inp 0).start = true) (w : Nat) (hwait : ∀ k < w, (inp (k + 1)).dfiReady = false)
    (hready : (inp (w + 1)).dfiReady = true) :
    (∀ t, 1 ≤ t → t < w + 2 → (run (step p mem) s inp t).fsm = .WAIT_DFI) ∧
    (run (step p mem) s inp (w + 2)).fsm = .RUN ∧
    (∀ k < duration Interp.Visit.cycles tr, executing (run (step p mem) s inp (w + 2 + k)) = true) ∧
    (run (step p mem) s inp (w + 2 + duration Interp.Visit.cycles tr)).fsm = .READY ∧
    (run (step p mem) s inp (w + 2 + duration Interp.Visit.cycles tr)).wantsDfi = false ∧
    (∀ k v, (k, v) ∈ timed Interp.Visit.cycles 0 tr → v.instr.IsCommand →
      issue p (run (step p mem) s inp (w + 2 + k)) = some v.instr ∧
      ((run (step p mem) s inp (w + 2 + k + 1)).phases (sendPhase p v.instr)).Shows p.nranks v.instr) ∧
    (∀ t, 1 ≤ t → t ≤ w + 2 + duration Interp.Visit.cycles tr → ∀ ph,
      (¬ ∃ k v, (k, v) ∈ timed Interp.Visit.cycles 0 tr ∧ v.instr.IsCommand ∧ t = w + 2 + k + 1 ∧
        ph = sendPhase p v.instr) →
      ((run (step p mem) s inp t).phases ph).Deselected p.nranks) := by
  obtain ⟨hw, hsim⟩ := run_wait p mem hs hlc hstart hwait hready
  have hvisit' : ∀ v ∈ tr, v.pc < p.depth - 1 := fun v hv => by have := hvisit v hv; omega
  obtain ⟨hbusy, hend, hrel⟩ := run_sim (by simp) (fun k => inp (w + 2 + k)) hrun hvisit' hsim (by simp)
  have hissue : ∀ k < duration Interp.Visit.cycles tr,
      issue p (run (step p mem) s inp (w + 2 + k)) = Interp.issuedAt tr k := by
    intro k hk
    rw [run_add]
    exact (hbusy k hk).2
  have hcyc : ∀ v : Interp.Visit, 0 < v.cycles := fun v => v.instr.cycles_pos
  refine ⟨fun t ht1 ht2 => ?_, hsim.fsm, fun k hk => ?_, ?_, ?_, fun k v hv hcmd => ?_, fun t ht1 ht2 ph hno => ?_⟩
  · obtain ⟨k, rfl⟩ := Nat.exists_eq_add_of_le' ht1
    exact hw k (by omega)
  · rw [run_add]
    exact (hbusy k hk).1
  · rw [run_add]
    exact hend
  · rw [run_add]
    exact hrel
  · have hk : k < duration Interp.Visit.cycles tr := by
      have := lt_of_mem_timed Interp.Visit.cycles hcyc hv
      omega
    have hat : Interp.issuedAt tr k = some v.instr :=
      Interp.issuedAt_eq_some_iff.mpr ⟨v, by rw [Nat.zero_add]; exact hv, rfl, hcmd.2⟩
    have hi := (hissue k hk).trans hat
    obtain ⟨he, hdec⟩ := decoder_of_issue hi
    refine ⟨hi, ?_⟩
    rw [run_succ, ← hdec, ← commandPhase_decoder hrd]
    exact step_shows p mem _ he
  · obtain ⟨u, rfl⟩ := Nat.exists_eq_add_of_le' ht1
    rw [run_succ]
    refine step_phases_of_issue hrd ph (fun d hdi hcmd hph => hno ?_)
    obtain ⟨he, -⟩ := decoder_of_issue hdi
    have hge : w + 2 ≤ u := le_of_exec hs hw he
    obtain ⟨k, rfl⟩ := Nat.exists_eq_add_of_le hge
    have hk : k < duration Interp.Visit.cycles tr := by omega
    rw [hissue k hk, Interp.issuedAt_eq_some_iff (t := 0), Nat.zero_add] at hdi
    obtain ⟨v, hv, rfl, -⟩ := hdi
    exact ⟨k, v, hv, hcmd, rfl, hph⟩

/-- A small executor: four phases, one rank, a payload memory of four words. -/
def smallParams : Params :=
  { depth := 4, geometry := ⟨0, 3, 14, 10, Geometry.sample_fits⟩, nphases := 4, rdphase := 2 }

/-- READ for two cycles, executed twice, then STOP. -/
def readTwice : Nat → BitVec 32 :=
  fun a => [Encoder.word (Encoder.I.dfi .READ 2 (some 8)), Encoder.word (Encoder.I.loop 1 1)].getD a 0

theorem executor_refines_interp_readTwice :
    ∃ tr, Interp.run (fetch smallParams readTwice) 8 ⟨0, 0⟩ = some tr ∧ duration Interp.Visit.cycles tr = 7 ∧
      (run (step smallParams readTwice) (reset smallParams readTwice) (fun _ => ⟨true, true⟩) 9).fsm = .READY :=
  ⟨_, rfl, rfl, (executor_refines_interp smallParams readTwice (by decide) (by decide) 8 _ rfl (by decide)
    (reset smallParams readTwice) rfl rfl (fun _ => ⟨true, true⟩) rfl 0 (by simp) rfl).2.2.2.1⟩

end PayloadExecutor

end RowhammerTester.Gateware
