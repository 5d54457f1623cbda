import RowhammerTester.Gateware.Bist.Reader

/-!
# Start pulses on a busy BIST `Reader`

* `step_start` : an edge on which neither FSM is in READY ignores the start pulse;
* `gated` : the inputs without the pulses that arrive while the Reader is not ready;
* `gated_run` : those pulses have no effect iff the address FSM is never in READY when they arrive.
-/

namespace RowhammerTester.Gateware.Bist
open RowhammerTester.Hdl

namespace Reader

variable {aw w k rb : Nat} {cfg : Settings w k rb}

theorem addrStep_start {a : Addr aw k} (h : a.fsm ≠ .READY) (b b' fifoReady dmaReady : Bool) :
    addrStep cfg a b fifoReady dmaReady = addrStep cfg a b' fifoReady dmaReady := by
  unfold addrStep
  cases hf : a.fsm with
  | READY => exact absurd hf h
  | _ => rfl

theorem patternStep_start {p : Pattern w k rb} (h : p.fsm ≠ .READY) (x : PatternIn aw w) (b : Bool) :
    patternStep cfg p { x with start := b } = patternStep cfg p x := by
  unfold patternStep
  cases hf : p.fsm with
  | READY => exact absurd hf h
  | _ => rfl

section Start
variable {word : Nat → BitVec aw → BitVec w} {F : Fifo (BitVec aw)} {G : Fifo (ErrorRecord w)} {s : State F G k rb}

/-- An edge on which neither FSM is in READY ignores the start pulse. -/
theorem step_start (haddr : s.addr.fsm ≠ .READY) (hpattern : s.pattern.fsm ≠ .READY) (i : Input) (b : Bool) :
    step cfg word s { i with start := b } = step cfg word s i := by
  have ha : addrStep cfg s.addr b (F.ready s.addressFifo) i.dmaReady = _ := addrStep_start haddr b i.start ..
  have hp : patternStep cfg s.pattern _ = _ := patternStep_start hpattern (patternIn word s i) b
  unfold step
  rw [← hp, ← ha]
  rfl

variable (cfg word s) (inp : Nat → Input)

/-- The inputs without the start pulses that arrive while the Reader is not ready. -/
def gated (t : Nat) : Input := { inp t with start := (inp t).start && ready (run (step cfg word) s inp t) }

/-- A start pulse that arrives while the Reader is not ready finds the address FSM at work. -/
def PulsesFindBusy : Prop :=
  ∀ t, (inp t).start = true → ready (run (step cfg word) s inp t) = false →
    (run (step cfg word) s inp t).addr.fsm ≠ .READY

variable {cfg word s inp}

theorem run_gated (h : PulsesFindBusy cfg word s inp) (t : Nat) :
    run (step cfg word) s (gated cfg word s inp) t = run (step cfg word) s inp t := by
  induction t with
  | zero => rfl
  | succ t ih =>
    rw [run_succ, run_succ, ih, gated]
    cases hstart : (inp t).start with
    | false =>
      congr 1
      rw [Bool.false_and, ← hstart]
    | true =>
      cases hready : ready (run (step cfg word) s inp t) with
      | true =>
        congr 1
        rw [Bool.true_and, ← hstart]
      | false =>
        apply step_start (h t hstart hready)
        exact beq_eq_false_iff_ne.mp hready

theorem events_gated {β : Type} {out : State F G k rb → Input → Option β}
    (hout : ∀ s i b, out s { i with start := b } = out s i) (h : PulsesFindBusy cfg word s inp) (t : Nat) :
    events (step cfg word) s (gated cfg word s inp) out t = events (step cfg word) s inp out t := by
  induction t with
  | zero => rfl
  | succ t ih =>
    rw [events_succ, events_succ, ih, run_gated h]
    congr 2
    exact hout ..

/-- A pulse that finds the address FSM in READY starts it. -/
theorem step_addr_fsm (h : s.addr.fsm = .READY) (i : Input) :
    (step cfg word s i).addr.fsm = if i.start then .COMPUTE_MEM_ADDR else .READY := by
  simp only [step, addrStep, h]
  split
  · rfl
  · exact h

theorem pulsesFindBusy_of_run_gated
    (h : ∀ t, run (step cfg word) s (gated cfg word s inp) t = run (step cfg word) s inp t) :
    PulsesFindBusy cfg word s inp := by
  intro t hstart hready hf
  have hnext := congrArg (fun s => s.addr.fsm) (h (t + 1))
  have hgated : (gated cfg word s inp t).start = false := by
    rw [gated, hready, Bool.and_false]
  rw [run_succ, run_succ, h t, step_addr_fsm hf, step_addr_fsm hf, hgated, hstart] at hnext
  cases hnext

/-- **Late start pulses.** The registers are those of the run without the pulses that arrive while the Reader is not
ready iff these pulses never find the address FSM in READY, and then the commands, the comparisons and the error records
are the same too. -/
theorem gated_run (cfg : Settings w k rb) (word : Nat → BitVec aw → BitVec w) (s : State F G k rb) (inp : Nat → Input) :
    ((∀ t, run (step cfg word) s (gated cfg word s inp) t = run (step cfg word) s inp t) ↔
      PulsesFindBusy cfg word s inp) ∧
    (PulsesFindBusy cfg word s inp → ∀ t,
      events (step cfg word) s (gated cfg word s inp) command t = events (step cfg word) s inp command t ∧
      events (step cfg word) s (gated cfg word s inp) (comparison word) t =
        events (step cfg word) s inp (comparison word) t ∧
      events (step cfg word) s (gated cfg word s inp) record t = events (step cfg word) s inp record t ∧
      done (run (step cfg word) s (gated cfg word s inp) t) = done (run (step cfg word) s inp t) ∧
      errorCount (run (step cfg word) s (gated cfg word s inp) t) = errorCount (run (step cfg word) s inp t)) := by
  refine ⟨⟨pulsesFindBusy_of_run_gated, run_gated⟩, fun h t => ?_⟩
  rw [run_gated h]
  refine ⟨?_, ?_, ?_, rfl, rfl⟩
  · exact events_gated (fun _ _ _ => rfl) h t
  · exact events_gated (fun _ _ _ => rfl) h t
  · exact events_gated (fun _ _ _ => rfl) h t

end Start

/-- One word. -/
def oneWord : Settings 8 1 1 := { Settings.twoWords false with count := 1, rowbits_le := Settings.one_le_six }

def constantWord (_ : Nat) (_ : BitVec 4) : BitVec 8 := 0x0f

/-- A second pulse at the time `u`, and a DMA that answers late. -/
def secondPulse (u t : Nat) : Input := ⟨t == 0 || t == u, true, decide (12 ≤ t), false, true⟩

theorem gated_run_oneWord :
    let sys := step oneWord constantWord (F := .fallThrough 3) (G := .buffered 1)
    ready (run sys reset (secondPulse 2) 2) = false ∧
      events sys reset (gated oneWord constantWord reset (secondPulse 2)) command 20 =
        events sys reset (secondPulse 2) command 20 := by
  have hbusy : PulsesFindBusy oneWord constantWord (F := .fallThrough 3) (G := .buffered 1) reset (secondPulse 2) := by
    intro t hstart hready
    obtain rfl | rfl : t = 0 ∨ t = 2 := by simpa [secondPulse] using hstart
    · cases hready
    · decide +kernel
  exact ⟨by decide +kernel, ((gated_run oneWord constantWord reset (secondPulse 2)).2 hbusy 20).1⟩

/-- A pulse that arrives between the last command and its data issues the command again. -/
theorem late_pulse_restarts :
    let sys := step oneWord constantWord (F := .fallThrough 3) (G := .buffered 1)
    Idle (reset : State (Fifo.fallThrough 3 : Fifo (BitVec 4)) (Fifo.buffered 1 : Fifo (ErrorRecord 8)) 1 1) ∧
      ready (run sys reset (secondPulse 8) 8) = false ∧
      events sys reset (secondPulse 8) command 20 = [2, 2] ∧
      events sys reset (gated oneWord constantWord reset (secondPulse 8)) command 20 = [2] := by
  refine ⟨reset_idle, ?_, ?_, ?_⟩ <;> decide +kernel

end Reader

end RowhammerTester.Gateware.Bist
