import RowhammerTester.Gateware.Dfi
import RowhammerTester.Gateware.Interp

/-!
# `PayloadExecutor`

* `Params` : the parameters the executor is built with; `pcBits` : the width of the program counter;
* `State` : its registers (the output of the synchronous payload-memory port is the register `instruction`);
* `fetchAddress`, `exec`, `phase`, `ready`, `executing` : the combinational signals;
* `step` : one clock edge; `step_run_*`, `step_idle_*`, ... : what it does in every state and branch;
* `System` : the executor together with the DFI switch, as they are connected.
-/

namespace RowhammerTester.Gateware
open RowhammerTester.Hdl

/-- `a - b` truncated to `w` bits. -/
def subMod (w a b : Nat) : Nat := (a + (2 ^ w - b % 2 ^ w)) % 2 ^ w

theorem subMod_of_le {w a b : Nat} (ha : a < 2 ^ w) (hb : b ≤ a) : subMod w a b = a - b := by
  unfold subMod
  rw [Nat.mod_eq_of_lt (show b < 2 ^ w by omega), show a + (2 ^ w - b) = a - b + 2 ^ w by omega,
    Nat.add_mod_right, Nat.mod_eq_of_lt (by omega)]

namespace PayloadExecutor

/-- The parameters of a payload executor. -/
structure Params where
  /-- `mem_payload.depth`. -/
  depth : Nat
  geometry : Geometry
  nphases : Nat
  rdphase : Nat

def Params.nranks (p : Params) : Nat := 2 ^ p.geometry.rankbits

/-- The width of `program_counter` and `fetch_address`. -/
def Params.pcBits (p : Params) : Nat := signalMax (p.depth - 1)

inductive Fsm where
  | READY | WAIT_DFI | RUN | IDLE
deriving DecidableEq, Repr

/-- The registers of the executor and of its DFI phases. -/
structure State where
  fsm : Fsm
  programCounter : Nat
  loopCounter : Nat
  idleCounter : Nat
  /-- `payload_port.dat_r`. -/
  instruction : BitVec 32
  /-- `dfi_switch.wants_dfi`. -/
  wantsDfi : Bool
  phases : Nat → DfiPhase

/-- What the executor reads in one cycle. -/
structure Input where
  start : Bool
  /-- `dfi_switch.dfi_ready`. -/
  dfiReady : Bool
deriving DecidableEq, Repr

/-- The registers after reset; the memory port shows the word at address 0. -/
def reset (p : Params) (mem : Nat → BitVec 32) : State :=
  { fsm := .READY, programCounter := 0, loopCounter := 0, idleCounter := 0, instruction := mem 0, wantsDfi := false,
    phases := fun _ => DfiPhase.reset p.nranks }

section Comb
variable (p : Params) (s : State)

def decoder : Decoder := Decoder.decode p.geometry s.instruction

def ready : Bool := s.fsm == .READY

def executing : Bool := s.fsm == .RUN || s.fsm == .IDLE

/-- `scratchpad.reset`. -/
def scratchpadReset : Bool := s.fsm == .WAIT_DFI

def fetchAddress : Nat :=
  match s.fsm with
  | .READY => 0
  | .WAIT_DFI => 0
  | .RUN =>
    if (decoder p s).IsLoop then
      -- If a loop instruction with count=0 is found it will be a NOOP
      if s.loopCounter ≠ (decoder p s).loopCount then subMod p.pcBits s.programCounter (decoder p s).loopJump
      else (s.programCounter + 1) % 2 ^ p.pcBits
    else if (decoder p s).timeslice = 0 ∨ (decoder p s).timeslice = 1 then (s.programCounter + 1) % 2 ^ p.pcBits
    else 0
  | .IDLE => if s.idleCounter = 0 then (s.programCounter + 1) % 2 ^ p.pcBits else 0

/-- `dfi_executor.exec`. -/
def exec : Bool := s.fsm == .RUN && !decide (decoder p s).IsLoop

/-- The phase a command is sent on. -/
def commandPhase (d : Decoder) : Nat :=
  if d.cas && !d.ras && !d.we then p.rdphase % 2 ^ DfiExecutor.phaseBits p.nphases else 0

/-- `dfi_executor.phase`. -/
def phase : Nat := if exec p s then commandPhase p (decoder p s) else 0

end Comb

/-- The termination test of the RUN state: the last address, or STOP. -/
def Terminates (p : Params) (s : State) : Prop := s.programCounter = p.depth - 1 ∨ (decoder p s).stop = true

instance (p : Params) (s : State) : Decidable (Terminates p s) := inferInstanceAs (Decidable (_ ∨ _))

/-- The state machine's registers after one clock edge. -/
def stepFsm (p : Params) (s : State) (i : Input) : State :=
  match s.fsm with
  | .READY => if i.start then { s with wantsDfi := true, fsm := .WAIT_DFI } else s
  | .WAIT_DFI => if i.dfiReady then { s with programCounter := 0, fsm := .RUN } else s
  | .RUN =>
    -- Terminate after executing the whole program or when STOP instruction is encountered
    let s' := if Terminates p s then { s with wantsDfi := false, fsm := .READY } else s
    -- Execute instruction; an assignment of the state here overrides the one above
    if (decoder p s).IsLoop then
      if s.loopCounter ≠ (decoder p s).loopCount then
        { s' with programCounter := fetchAddress p s, loopCounter := (s.loopCounter + 1) % 2 ^ Decoder.LOOP_COUNT }
      else
        { s' with programCounter := fetchAddress p s, loopCounter := 0 }
    else if (decoder p s).timeslice = 0 ∨ (decoder p s).timeslice = 1 then
      { s' with programCounter := fetchAddress p s }
    else
      { s' with idleCounter := (decoder p s).timeslice - 2, fsm := .IDLE }
  | .IDLE =>
    if s.idleCounter = 0 then { s with programCounter := fetchAddress p s, fsm := .RUN }
    else { s with idleCounter := s.idleCounter - 1 }

/-- One clock edge: the state machine, the memory port and the DFI phases. -/
def step (p : Params) (mem : Nat → BitVec 32) (s : State) (i : Input) : State :=
  { stepFsm p s i with
    instruction := mem (fetchAddress p s)
    phases := fun k => DfiExecutor.step p.nranks (decoder p s) (exec p s) (phase p s) k (s.phases k) }

/-! ## One clock edge, state by state -/

section Step
variable (p : Params) (mem : Nat → BitVec 32) {s : State} (i : Input)

theorem step_phases (s : State) (k : Nat) : (step p mem s i).phases k =
    DfiExecutor.step p.nranks (decoder p s) (exec p s) (phase p s) k (s.phases k) := rfl

theorem step_instruction (s : State) : (step p mem s i).instruction = mem (fetchAddress p s) := rfl

/-- A cycle in which no command is sent deselects every phase. -/
theorem step_deselected (h : exec p s = false) (k : Nat) : ((step p mem s i).phases k).Deselected p.nranks :=
  DfiExecutor.step_inactive _ (by simp [h])

/-- A cycle that sends a command shows it on its phase. -/
theorem step_shows (h : exec p s = true) :
    ((step p mem s i).phases (commandPhase p (decoder p s))).Shows p.nranks (decoder p s) := by
  rw [step_phases, phase, if_pos h, h]
  exact DfiExecutor.step_selected _ _ _ _

/-- A cycle that sends a command deselects the other phases. -/
theorem step_deselected_other (h : exec p s = true) {k : Nat} (hk : k ≠ commandPhase p (decoder p s)) :
    ((step p mem s i).phases k).Deselected p.nranks := by
  rw [step_phases, phase, if_pos h]
  exact DfiExecutor.step_inactive _ (fun hc => hk hc.1.symm)

theorem exec_of_not_run (h : s.fsm ≠ .RUN) : exec p s = false := by
  unfold exec
  rw [Bool.and_eq_false_iff]
  exact Or.inl (beq_eq_false_iff_ne.mpr h)

theorem step_ready (h : s.fsm = .READY) (hs : i.start = false) : (step p mem s i).fsm = .READY ∧
    (step p mem s i).wantsDfi = s.wantsDfi ∧ (step p mem s i).loopCounter = s.loopCounter := by
  simp [step, stepFsm, h, hs]

theorem step_start (h : s.fsm = .READY) (hs : i.start = true) : (step p mem s i).fsm = .WAIT_DFI ∧
    (step p mem s i).wantsDfi = true ∧ (step p mem s i).loopCounter = s.loopCounter := by
  simp [step, stepFsm, h, hs]

theorem step_wait (h : s.fsm = .WAIT_DFI) (hd : i.dfiReady = false) : (step p mem s i).fsm = .WAIT_DFI ∧
    (step p mem s i).wantsDfi = s.wantsDfi ∧ (step p mem s i).loopCounter = s.loopCounter := by
  simp [step, stepFsm, h, hd]

theorem step_dfiReady (h : s.fsm = .WAIT_DFI) (hd : i.dfiReady = true) : (step p mem s i).fsm = .RUN ∧
    (step p mem s i).wantsDfi = s.wantsDfi ∧ (step p mem s i).loopCounter = s.loopCounter ∧
    (step p mem s i).programCounter = 0 ∧ (step p mem s i).instruction = mem 0 := by
  simp [step, stepFsm, fetchAddress, h, hd]

/-- The registers that an executed instruction hands to the next state. -/
theorem step_run_exit (h : s.fsm = .RUN)
    (ht : (decoder p s).IsLoop ∨ (decoder p s).timeslice = 0 ∨ (decoder p s).timeslice = 1) :
    (step p mem s i).fsm = (if Terminates p s then .READY else .RUN) ∧
      (step p mem s i).wantsDfi = (if Terminates p s then false else s.wantsDfi) := by
  simp only [step, stepFsm, h]
  by_cases hl : (decoder p s).IsLoop
  · rw [if_pos hl]
    by_cases hc : s.loopCounter ≠ (decoder p s).loopCount <;> by_cases hT : Terminates p s <;> simp [hc, hT, h]
  · rw [if_neg hl, if_pos (ht.resolve_left hl)]
    by_cases hT : Terminates p s <;> simp [hT, h]

/-- A long instruction goes to IDLE whatever its address: the idle state overrides the termination. -/
theorem step_run_long (h : s.fsm = .RUN) (hl : ¬ (decoder p s).IsLoop) (ht : 2 ≤ (decoder p s).timeslice) :
    (step p mem s i).fsm = .IDLE ∧ (step p mem s i).idleCounter = (decoder p s).timeslice - 2 ∧
      (step p mem s i).programCounter = s.programCounter ∧ (step p mem s i).loopCounter = s.loopCounter ∧
      (step p mem s i).wantsDfi = (if Terminates p s then false else s.wantsDfi) := by
  have hts : ¬ ((decoder p s).timeslice = 0 ∨ (decoder p s).timeslice = 1) := by omega
  simp only [step, stepFsm, h, if_neg hl, if_neg hts]
  by_cases hT : Terminates p s <;> simp [hT]

/-- The counters after a LOOP that jumps. -/
theorem step_run_jump (h : s.fsm = .RUN) (hl : (decoder p s).IsLoop) (hc : s.loopCounter ≠ (decoder p s).loopCount) :
    (step p mem s i).programCounter = subMod p.pcBits s.programCounter (decoder p s).loopJump ∧
      (step p mem s i).loopCounter = (s.loopCounter + 1) % 2 ^ 12 ∧
      (step p mem s i).instruction = mem (subMod p.pcBits s.programCounter (decoder p s).loopJump) := by
  have hf : fetchAddress p s = subMod p.pcBits s.programCounter (decoder p s).loopJump := by
    simp only [fetchAddress, h, if_pos hl, if_pos hc]
  rw [step_instruction, hf]
  simp only [step, stepFsm, h, if_pos hl, if_pos hc, hf, Decoder.LOOP_COUNT, and_self]

/-- The counters after a LOOP that falls through. -/
theorem step_run_fall (h : s.fsm = .RUN) (hl : (decoder p s).IsLoop) (hc : s.loopCounter = (decoder p s).loopCount) :
    (step p mem s i).programCounter = (s.programCounter + 1) % 2 ^ p.pcBits ∧ (step p mem s i).loopCounter = 0 ∧
      (step p mem s i).instruction = mem ((s.programCounter + 1) % 2 ^ p.pcBits) := by
  have hc' : ¬ s.loopCounter ≠ (decoder p s).loopCount := by simpa using hc
  have hf : fetchAddress p s = (s.programCounter + 1) % 2 ^ p.pcBits := by
    simp only [fetchAddress, h, if_pos hl, if_neg hc']
  rw [step_instruction, hf]
  simp only [step, stepFsm, h, if_pos hl, if_neg hc', hf, and_self]

/-- The counters after an instruction of one cycle. -/
theorem step_run_short (h : s.fsm = .RUN) (hl : ¬ (decoder p s).IsLoop)
    (ht : (decoder p s).timeslice = 0 ∨ (decoder p s).timeslice = 1) :
    (step p mem s i).programCounter = (s.programCounter + 1) % 2 ^ p.pcBits ∧
      (step p mem s i).loopCounter = s.loopCounter ∧
      (step p mem s i).instruction = mem ((s.programCounter + 1) % 2 ^ p.pcBits) := by
  have hf : fetchAddress p s = (s.programCounter + 1) % 2 ^ p.pcBits := by
    simp only [fetchAddress, h, if_neg hl, if_pos ht]
  rw [step_instruction, hf]
  simp only [step, stepFsm, h, if_neg hl, if_pos ht, hf]
  split <;> simp

theorem step_idle_wait (h : s.fsm = .IDLE) (hc : s.idleCounter ≠ 0) : (step p mem s i).fsm = .IDLE ∧
    (step p mem s i).idleCounter = s.idleCounter - 1 ∧ (step p mem s i).programCounter = s.programCounter ∧
    (step p mem s i).loopCounter = s.loopCounter ∧ (step p mem s i).wantsDfi = s.wantsDfi := by
  simp [step, stepFsm, h, hc]

theorem step_idle_done (h : s.fsm = .IDLE) (hc : s.idleCounter = 0) : (step p mem s i).fsm = .RUN ∧
    (step p mem s i).programCounter = (s.programCounter + 1) % 2 ^ p.pcBits ∧
    (step p mem s i).loopCounter = s.loopCounter ∧ (step p mem s i).wantsDfi = s.wantsDfi ∧
    (step p mem s i).instruction = mem ((s.programCounter + 1) % 2 ^ p.pcBits) := by
  simp [step, stepFsm, fetchAddress, h, hc]

theorem fetchAddress_lt (s : State) : fetchAddress p s < 2 ^ p.pcBits := by
  have hpos := Nat.two_pow_pos p.pcBits
  have hmod : ∀ a, a % 2 ^ p.pcBits < 2 ^ p.pcBits := fun a => Nat.mod_lt a hpos
  unfold fetchAddress
  split
  · exact hpos
  · exact hpos
  · split_ifs
    · exact hmod _
    · exact hmod _
    · exact hmod _
    · exact hpos
  · split_ifs
    · exact hmod _
    · exact hpos

/-- The three sources of the program counter. -/
theorem step_programCounter (s : State) : (step p mem s i).programCounter = s.programCounter ∨
    (step p mem s i).programCounter = 0 ∨ (step p mem s i).programCounter = fetchAddress p s := by
  simp only [step, stepFsm]
  split <;> split_ifs <;> simp

end Step

end PayloadExecutor

/-! ## The executor and the switch -/

/-- The payload executor connected to the DFI switch. -/
structure System where
  executor : PayloadExecutor.State
  switch : DfiSwitch.State

namespace System

/-- What the two read from outside in one cycle. -/
structure Input where
  start : Bool
  switch : DfiSwitch.Input
deriving DecidableEq, Repr

def reset (p : PayloadExecutor.Params) (mem : Nat → BitVec 32) : System :=
  { executor := PayloadExecutor.reset p mem, switch := DfiSwitch.reset }

/-- What the executor sees. -/
def executorInput (s : System) (i : Input) : PayloadExecutor.Input :=
  { start := i.start, dfiReady := DfiSwitch.dfiReady s.switch }

/-- One clock edge of both. -/
def step (p : PayloadExecutor.Params) (ddr5 : Bool) (mem : Nat → BitVec 32) (s : System) (i : Input) : System :=
  { executor := PayloadExecutor.step p mem s.executor (executorInput s i)
    switch := DfiSwitch.step ddr5 s.executor.wantsDfi s.switch i.switch }

end System

end RowhammerTester.Gateware
