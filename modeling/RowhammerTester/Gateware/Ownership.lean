import RowhammerTester.Gateware.Refinement

/-!
# Who drives the DFI

The payload executor and the DFI switch together, from reset, for every payload and every sequence of start pulses and
refreshes.

* `OwnsDfi` : an executing executor wants the DFI and the switch has given it;
* `StopsAfterLast` : once the instruction at the last address has taken its cycles, the executor is in READY until the
  next start;
* `LongLast` : the executor starts an instruction of two or more cycles at the last address. The termination test
  releases the DFI, but the later assignment of IDLE wins and the program counter wraps into another pass;
* `ownsDfi_iff` : both properties hold along a run exactly when the run has no such cycle.
-/

namespace RowhammerTester.Gateware
open RowhammerTester.Hdl PayloadExecutor

namespace System

/-- While executing, the executor wants the DFI and the switch is in PAYLOAD-EXECUTION. -/
def OwnsDfi (s : System) : Prop :=
  executing s.executor = true → s.executor.wantsDfi = true ∧ s.switch.fsm = .PAYLOAD_EXECUTION

instance (s : System) : Decidable (OwnsDfi s) := inferInstanceAs (Decidable (_ → _))

/-- The instruction at the last address is about to be executed. -/
def AtLast (p : Params) (s : System) : Prop := s.executor.fsm = .RUN ∧ s.executor.programCounter = p.depth - 1

/-- An instruction at the last address that goes through IDLE. -/
def LongLast (p : Params) (s : System) : Prop :=
  AtLast p s ∧ ¬ (decoder p s.executor).IsLoop ∧ 2 ≤ (decoder p s.executor).timeslice

section Run
variable (p : Params) (ddr5 : Bool) (mem : Nat → BitVec 32) (inp : Nat → Input)

/-- The registers in cycle `t` of a run from reset. -/
abbrev cycle (t : Nat) : System := run (step p ddr5 mem) (reset p mem) inp t

/-- If cycle `t` starts the instruction at the last address, the executor is in READY after its cycles, executes nothing
and fetches nothing until the next start pulse. -/
def StopsAfterLast (t : Nat) : Prop :=
  AtLast p (cycle p ddr5 mem inp t) →
    ∀ u, t + (decoder p (cycle p ddr5 mem inp t).executor).cycles ≤ u →
      (∀ v, t + (decoder p (cycle p ddr5 mem inp t).executor).cycles ≤ v → v < u → (inp v).start = false) →
      (cycle p ddr5 mem inp u).executor.fsm = .READY ∧ executing (cycle p ddr5 mem inp u).executor = false ∧
        fetchAddress p (cycle p ddr5 mem inp u).executor = 0

end Run

/-! ## The invariant -/

/-- The DFI is wanted exactly outside READY, and owned while executing. -/
structure Inv (s : System) : Prop where
  ready : s.executor.fsm = .READY → s.executor.wantsDfi = false
  wait : s.executor.fsm = .WAIT_DFI → s.executor.wantsDfi = true
  owns : OwnsDfi s

variable {p : Params} {ddr5 : Bool} {mem : Nat → BitVec 32}

theorem inv_reset : Inv (reset p mem) :=
  ⟨fun _ => rfl, fun h => (by cases h), fun h => (by cases h)⟩

/-- A step into READY with the DFI released keeps the invariant. -/
theorem inv_of_ready {s : System} (h : s.executor.fsm = .READY) (hw : s.executor.wantsDfi = false) : Inv s :=
  ⟨fun _ => hw, fun h' => (by rw [h] at h'; cases h'), fun h' => (by simp [executing, h] at h')⟩

/-- A step that waits for the DFI keeps the invariant. -/
theorem inv_of_wait {s : System} (h : s.executor.fsm = .WAIT_DFI) (hw : s.executor.wantsDfi = true) : Inv s :=
  ⟨fun h' => (by rw [h] at h'; cases h'), fun _ => hw, fun h' => (by simp [executing, h] at h')⟩

/-- A step that keeps executing with the DFI owned keeps the invariant. -/
theorem inv_of_executing {s : System} (h : s.executor.fsm = .RUN ∨ s.executor.fsm = .IDLE)
    (hw : s.executor.wantsDfi = true) (hsw : s.switch.fsm = .PAYLOAD_EXECUTION) : Inv s := by
  refine ⟨fun h' => ?_, fun h' => ?_, fun _ => ⟨hw, hsw⟩⟩ <;> rcases h with h | h <;> rw [h] at h' <;> cases h'

theorem step_switch_owned (p : Params) (ddr5 : Bool) (mem : Nat → BitVec 32) {s : System} (i : Input)
    (hw : s.executor.wantsDfi = true)
    (hsw : s.switch.fsm = .PAYLOAD_EXECUTION) : (step p ddr5 mem s i).switch.fsm = .PAYLOAD_EXECUTION := by
  simp only [step, DfiSwitch.step, hw]
  exact DfiSwitch.nextFsm_of_wantsDfi i.switch hsw

theorem step_inv {s : System} (h : Inv s) (hlong : ¬ LongLast p s) (i : Input) : Inv (step p ddr5 mem s i) := by
  cases hf : s.executor.fsm with
  | READY =>
    cases hst : i.start with
    | false =>
      obtain ⟨h1, h2, -⟩ := PayloadExecutor.step_ready p mem (executorInput s i) hf hst
      exact inv_of_ready h1 (h2.trans (h.ready hf))
    | true =>
      obtain ⟨h1, h2, -⟩ := PayloadExecutor.step_start p mem (executorInput s i) hf hst
      exact inv_of_wait h1 h2
  | WAIT_DFI =>
    cases hd : DfiSwitch.dfiReady s.switch with
    | false =>
      obtain ⟨h1, h2, -⟩ := PayloadExecutor.step_wait p mem (executorInput s i) hf hd
      exact inv_of_wait h1 (h2.trans (h.wait hf))
    | true =>
      obtain ⟨h1, h2, -⟩ := PayloadExecutor.step_dfiReady p mem (executorInput s i) hf hd
      have hsw : s.switch.fsm = .PAYLOAD_EXECUTION := by simpa [DfiSwitch.dfiReady] using hd
      exact inv_of_executing (Or.inl h1) (h2.trans (h.wait hf)) (step_switch_owned p ddr5 mem i (h.wait hf) hsw)
  | RUN =>
    obtain ⟨hw, hsw⟩ := h.owns (by simp [executing, hf])
    have hsw' := step_switch_owned p ddr5 mem i hw hsw
    by_cases ht : (decoder p s.executor).IsLoop ∨ (decoder p s.executor).timeslice = 0 ∨
        (decoder p s.executor).timeslice = 1
    · obtain ⟨h1, h2⟩ := PayloadExecutor.step_run_exit p mem (executorInput s i) hf ht
      by_cases hT : Terminates p s.executor
      · rw [if_pos hT] at h1 h2
        exact inv_of_ready h1 h2
      · rw [if_neg hT] at h1 h2
        exact inv_of_executing (Or.inl h1) (h2.trans hw) hsw'
    · -- a long instruction: not at the last address, and a STOP is never long
      have hl : ¬ (decoder p s.executor).IsLoop := fun hl => ht (Or.inl hl)
      have hts : 2 ≤ (decoder p s.executor).timeslice := by omega
      have hT : ¬ Terminates p s.executor := by
        rintro (hpc | hstop)
        · exact hlong ⟨⟨hf, hpc⟩, hl, hts⟩
        · have : (decoder p s.executor).timeslice = 0 := (Decoder.stop_decode hstop).2
          omega
      obtain ⟨h1, -, -, -, h2⟩ := PayloadExecutor.step_run_long p mem (executorInput s i) hf hl hts
      rw [if_neg hT] at h2
      exact inv_of_executing (Or.inr h1) (h2.trans hw) hsw'
  | IDLE =>
    obtain ⟨hw, hsw⟩ := h.owns (by simp [executing, hf])
    have hsw' := step_switch_owned p ddr5 mem i hw hsw
    by_cases hc : s.executor.idleCounter = 0
    · obtain ⟨h1, -, -, h2, -⟩ := PayloadExecutor.step_idle_done p mem (executorInput s i) hf hc
      exact inv_of_executing (Or.inl h1) (h2.trans hw) hsw'
    · obtain ⟨h1, -, -, -, h2⟩ := PayloadExecutor.step_idle_wait p mem (executorInput s i) hf hc
      exact inv_of_executing (Or.inr h1) (h2.trans hw) hsw'

theorem inv_run {inp : Nat → Input} (hlong : ∀ t, ¬ LongLast p (cycle p ddr5 mem inp t)) (t : Nat) :
    Inv (cycle p ddr5 mem inp t) :=
  run_induction _ _ _ inv_reset (fun t ih => step_inv ih (hlong t) (inp t)) t

/-! ## Termination -/

/-- READY is kept until the next start pulse. -/
theorem ready_until_start {inp : Nat → Input} {t : Nat} (h : (cycle p ddr5 mem inp t).executor.fsm = .READY) :
    ∀ u, t ≤ u → (∀ v, t ≤ v → v < u → (inp v).start = false) → (cycle p ddr5 mem inp u).executor.fsm = .READY := by
  intro u htu
  induction u, htu using Nat.le_induction with
  | base => exact fun _ => h
  | succ u hu ih =>
    intro hno
    have h' := ih (fun v hv hvu => hno v hv (by omega))
    exact (PayloadExecutor.step_ready p mem (executorInput (cycle p ddr5 mem inp u) (inp u)) h'
      (hno u hu (by omega))).1

theorem stopsAfterLast {inp : Nat → Input} (hlong : ∀ t, ¬ LongLast p (cycle p ddr5 mem inp t)) (t : Nat) :
    StopsAfterLast p ddr5 mem inp t := by
  intro hlast
  have hshort : (decoder p (cycle p ddr5 mem inp t).executor).IsLoop ∨
      (decoder p (cycle p ddr5 mem inp t).executor).timeslice = 0 ∨
      (decoder p (cycle p ddr5 mem inp t).executor).timeslice = 1 := by
    by_contra hno
    exact hlong t ⟨hlast, fun hl => hno (Or.inl hl), by omega⟩
  have hcyc : (decoder p (cycle p ddr5 mem inp t).executor).cycles = 1 := by
    unfold Decoder.cycles
    split
    · rfl
    · next hl => have := hshort.resolve_left hl; omega
  have hready : (cycle p ddr5 mem inp (t + 1)).executor.fsm = .READY := by
    have := (PayloadExecutor.step_run_exit p mem (executorInput (cycle p ddr5 mem inp t) (inp t)) hlast.1 hshort).1
    rwa [if_pos (show Terminates p _ from Or.inl hlast.2)] at this
  rw [hcyc]
  intro u hu hno
  have h := ready_until_start hready u hu hno
  exact ⟨h, by simp [executing, h], by simp [fetchAddress, h]⟩

/-- A long instruction at the last address releases the DFI and keeps executing. -/
theorem not_ownsDfi_of_longLast {s : System} (h : LongLast p s) (i : Input) : ¬ OwnsDfi (step p ddr5 mem s i) := by
  obtain ⟨⟨hf, hpc⟩, hl, hts⟩ := h
  obtain ⟨h1, -, -, -, h2⟩ := PayloadExecutor.step_run_long p mem (executorInput s i) hf hl hts
  rw [if_pos (show Terminates p _ from Or.inl hpc)] at h2
  intro howns
  have := (howns (by simp [executing, show (step p ddr5 mem s i).executor.fsm = .IDLE from h1])).1
  rw [show (step p ddr5 mem s i).executor.wantsDfi = false from h2] at this
  cases this

/-- **DFI ownership and clean termination** hold along a run exactly when no cycle of it starts an instruction of two or
more cycles at the last address. -/
theorem ownsDfi_iff (p : Params) (ddr5 : Bool) (mem : Nat → BitVec 32) (inp : Nat → Input) :
    (∀ t, OwnsDfi (cycle p ddr5 mem inp t) ∧ StopsAfterLast p ddr5 mem inp t) ↔
      ∀ t, ¬ LongLast p (cycle p ddr5 mem inp t) := by
  constructor
  · intro h t hlong
    exact not_ownsDfi_of_longLast hlong (inp t) (h (t + 1)).1
  · intro hlong t
    exact ⟨(inv_run hlong t).owns, stopsAfterLast hlong t⟩

/-- NOOPs of one cycle up to a last one of two. -/
def longLastPayload : Nat → BitVec 32 :=
  fun a => Encoder.word (Encoder.I.noop (if a = 3 then 2 else 1))

/-- In the eighth cycle the executor runs address 0 again although the memory controller has the DFI. -/
theorem ownsDfi_fails : ¬ ∀ t, OwnsDfi (cycle smallParams false longLastPayload
    (fun _ => ⟨true, ⟨DfiPhase.reset 1, false, 0, false⟩⟩) t) := by
  intro h
  exact absurd (h 8) (by decide +kernel)

/-! ## Depths that the program counter cannot count -/

theorem programCounter_lt (p : Params) (ddr5 : Bool) (mem : Nat → BitVec 32) (inp : Nat → Input) (t : Nat) :
    (cycle p ddr5 mem inp t).executor.programCounter < 2 ^ p.pcBits := by
  refine run_induction _ _ _ (P := fun s : System => s.executor.programCounter < 2 ^ p.pcBits)
    (Nat.two_pow_pos _) (fun t ih => ?_) t
  rcases PayloadExecutor.step_programCounter p mem (executorInput (cycle p ddr5 mem inp t) (inp t))
    (cycle p ddr5 mem inp t).executor with h | h | h
  · exact lt_of_eq_of_lt h ih
  · exact lt_of_eq_of_lt h (Nat.two_pow_pos _)
  · exact lt_of_eq_of_lt h (fetchAddress_lt p _)

/-- With a payload memory of `2^k + 1` words the program counter has `k` bits: the last address is never executed, and a
payload without STOP wraps around instead of terminating. -/
theorem not_atLast_of_depth {k : Nat} (hk : 1 ≤ k) (hd : p.depth = 2 ^ k + 1) (inp : Nat → Input) (t : Nat) :
    ¬ AtLast p (cycle p ddr5 mem inp t) := by
  rintro ⟨-, hpc⟩
  have hlt := programCounter_lt p ddr5 mem inp t
  have hbits : p.pcBits ≤ k := by
    unfold Params.pcBits signalMax
    exact bitLength_le_of_lt (by have := Nat.one_lt_two_pow (show k ≠ 0 by omega); omega)
  have hle : 2 ^ p.pcBits ≤ 2 ^ k := Nat.pow_le_pow_right (by decide) hbits
  omega

end System

end RowhammerTester.Gateware
