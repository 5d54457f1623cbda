import RowhammerTester.Gateware.Instruction
import RowhammerTester.Hdl.Machine

/-!
# The DFI side: phases, `DFIExecutor`, `RefreshCounter`, `DFISwitch`

* `DfiPhase` : the registered signals of one DFI phase; `DfiPhase.Deselected`, `DfiPhase.Shows` : what it carries;
* `DfiExecutor.step` : one clock edge of a phase of `DFIExecutor`;
* `DfiSwitch.step` : one clock edge of the switch between the memory controller and the payload executor. The phase 0
  of the DFI master is an input: the DFI injector that selects its source is not part of this repository.
-/

namespace RowhammerTester.Gateware
open RowhammerTester.Hdl

/-! ## Phases -/

/-- The registers of one DFI phase. -/
structure DfiPhase where
  cke : Nat
  odt : Nat
  resetN : Nat
  csN : Nat
  casN : Bool
  rasN : Bool
  weN : Bool
  address : Nat
  bank : Nat
  rddataEn : Bool
deriving DecidableEq, Repr

/-- `Replicate(1, nranks)`. -/
def replicateOne (nranks : Nat) : Nat := 2 ^ nranks - 1

/-- The one-hot decoder of `migen.genlib.coding`. -/
def oneHot (width i : Nat) : Nat := if i < width then 1 <<< i else 0

/-- The reset value of a phase: nothing selected. -/
def DfiPhase.reset (nranks : Nat) : DfiPhase :=
  { cke := 0, odt := 0, resetN := 0, csN := replicateOne nranks, casN := true, rasN := true, weN := true,
    address := 0, bank := 0, rddataEn := false }

/-- No rank is selected and all strobes are inactive. -/
def DfiPhase.Deselected (nranks : Nat) (p : DfiPhase) : Prop :=
  p.csN = replicateOne nranks ∧ p.casN = true ∧ p.rasN = true ∧ p.weN = true

instance (nranks : Nat) (p : DfiPhase) : Decidable (p.Deselected nranks) :=
  inferInstanceAs (Decidable (_ ∧ _))

/-! ## `DFIExecutor` -/

namespace DfiExecutor

/-- The width of `DFIExecutor.phase`. -/
def phaseBits (nphases : Nat) : Nat := signalMax (nphases - 1)

/-- The chip select lines of a command. -/
def csN (nranks : Nat) (decoder : Decoder) : Nat :=
  if decoder.opCode = OpCode.NOOP.value then replicateOne nranks
  -- select all ranks on refresh
  else if decoder.opCode = OpCode.REF.value then 0
  else replicateOne nranks ^^^ oneHot nranks decoder.dfiRank

/-- One clock edge of phase `i`: send the command on the selected phase. The inactive branch keeps `address`, `bank` and
`rddata_en`. -/
def step (nranks : Nat) (decoder : Decoder) (exec : Bool) (phase i : Nat) (p : DfiPhase) : DfiPhase :=
  let p := { p with
    cke := replicateOne nranks
    odt := replicateOne nranks
    resetN := replicateOne nranks }
  if phase = i ∧ exec then
    { p with
      casN := !decoder.cas
      rasN := !decoder.ras
      weN := !decoder.we
      address := decoder.dfiAddress
      bank := decoder.dfiBank
      rddataEn := decoder.opCode == OpCode.READ.value
      csN := csN nranks decoder }
  else
    { p with
      csN := replicateOne nranks
      casN := true
      rasN := true
      weN := true }

end DfiExecutor

/-- The phase carries the command of `decoder`. -/
def DfiPhase.Shows (nranks : Nat) (decoder : Decoder) (p : DfiPhase) : Prop :=
  p.casN = !decoder.cas ∧ p.rasN = !decoder.ras ∧ p.weN = !decoder.we ∧ p.csN = DfiExecutor.csN nranks decoder ∧
    p.bank = decoder.dfiBank ∧ p.address = decoder.dfiAddress

theorem DfiExecutor.step_selected (nranks : Nat) (decoder : Decoder) (i : Nat) (p : DfiPhase) :
    (DfiExecutor.step nranks decoder true i i p).Shows nranks decoder := by
  unfold DfiExecutor.step
  rw [if_pos ⟨rfl, rfl⟩]
  exact ⟨rfl, rfl, rfl, rfl, rfl, rfl⟩

theorem DfiExecutor.step_inactive {nranks : Nat} {decoder : Decoder} {exec : Bool} {phase i : Nat} (p : DfiPhase)
    (h : ¬ (phase = i ∧ exec = true)) :
    (DfiExecutor.step nranks decoder exec phase i p).Deselected nranks := by
  unfold DfiExecutor.step
  rw [if_neg h]
  exact ⟨rfl, rfl, rfl, rfl⟩

/-- A NOOP leaves its phase deselected. -/
theorem DfiPhase.Shows.deselected_of_noop {nranks : Nat} {decoder : Decoder} {p : DfiPhase}
    (h : p.Shows nranks decoder) (hop : decoder.opCode = OpCode.NOOP.value) (hcas : decoder.cas = false)
    (hras : decoder.ras = false) (hwe : decoder.we = false) : p.Deselected nranks := by
  obtain ⟨h1, h2, h3, h4, -, -⟩ := h
  rw [DfiExecutor.csN, if_pos hop] at h4
  rw [hcas] at h1
  rw [hras] at h2
  rw [hwe] at h3
  exact ⟨h4, h1, h2, h3⟩

/-! ## `RefreshCounter` and `DFISwitch` -/

namespace DfiSwitch

inductive Fsm where
  | MEMORY_CONTROLLER | PAYLOAD_EXECUTION
deriving DecidableEq, Repr

/-- The registers of the switch; `wants_dfi` is written by the payload executor and lives in its state. -/
structure State where
  fsm : Fsm
  /-- `RefreshCounter.counter`. -/
  counter : Nat
  mcOngoingD : Bool
  refreshCount : Nat
deriving DecidableEq, Repr

def reset : State := { fsm := .MEMORY_CONTROLLER, counter := 0, mcOngoingD := false, refreshCount := 0 }

/-- What the switch reads in one cycle. -/
structure Input where
  /-- Phase 0 of the DFI master. -/
  master : DfiPhase
  withRefresh : Bool
  atRefresh : Nat
  /-- `refresh_update.re`. -/
  refreshUpdate : Bool
deriving DecidableEq, Repr

/-- `RefreshCounter.refresh`. -/
def refresh (ddr5 : Bool) (dfiPhase : DfiPhase) : Bool :=
  if ddr5 then slice dfiPhase.address 0 5 == 0b10011
  else dfiPhase.csN == 0 && !dfiPhase.casN && !dfiPhase.rasN && dfiPhase.weN

def refreshMatches (s : State) (atRefresh : Nat) : Bool := atRefresh == 0 || atRefresh == s.counter + 1

def dfiReady (s : State) : Bool := s.fsm == .PAYLOAD_EXECUTION

def refresherReset (s : State) (wantsDfi : Bool) : Bool := s.fsm == .PAYLOAD_EXECUTION && !wantsDfi

def nextFsm (ddr5 wantsDfi : Bool) (s : State) (i : Input) : Fsm :=
  match s.fsm with
  | .MEMORY_CONTROLLER =>
    if wantsDfi then
      if i.withRefresh then
        if refresh ddr5 i.master && refreshMatches s i.atRefresh then .PAYLOAD_EXECUTION else .MEMORY_CONTROLLER
      else .PAYLOAD_EXECUTION
    else .MEMORY_CONTROLLER
  | .PAYLOAD_EXECUTION => if wantsDfi then .PAYLOAD_EXECUTION else .MEMORY_CONTROLLER

/-- One clock edge of the switch, with its CSRs. -/
def step (ddr5 wantsDfi : Bool) (s : State) (i : Input) : State :=
  let mcToPe := s.mcOngoingD && s.fsm == .PAYLOAD_EXECUTION
  { fsm := nextFsm ddr5 wantsDfi s i
    counter := if refresh ddr5 i.master then (s.counter + 1) % 2 ^ 32 else s.counter
    mcOngoingD := s.fsm == .MEMORY_CONTROLLER
    refreshCount := if mcToPe || i.refreshUpdate then s.counter else s.refreshCount }

theorem nextFsm_of_wantsDfi {ddr5 : Bool} {s : State} (i : Input) (h : s.fsm = .PAYLOAD_EXECUTION) :
    nextFsm ddr5 true s i = .PAYLOAD_EXECUTION := by
  simp [nextFsm, h]

end DfiSwitch

end RowhammerTester.Gateware
