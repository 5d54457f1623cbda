import RowhammerTester.Hdl.Fifo
import RowhammerTester.Gateware.Bist.Pattern

/-!
# The BIST `Reader`

* `Addr`, `addrStep` : the address FSM, which pushes each address to the address FIFO and then to the DMA;
* `Dma` : the reads in flight, answered in order at any time by any words;
* `Pattern`, `patternStep` : the pattern FSM, which compares the words with the pattern;
* `Error`, `errorStep` : the error FSM, which offers the error records to their consumer;
* `State`, `step` : the Reader with its two FIFOs; `command`, `comparison`, `record` : what a cycle emits.
-/

namespace RowhammerTester.Gateware.Bist
open RowhammerTester.Hdl

namespace Reader

/-- `error_desc`. -/
structure ErrorRecord (w : Nat) where
  offset : BitVec 32
  data : BitVec w
  expected : BitVec w
deriving DecidableEq, Repr

instance {w : Nat} : Inhabited (ErrorRecord w) := ⟨⟨0, 0, 0⟩⟩

variable {aw w k rb : Nat}

/-! ## The address FSM -/

inductive AddrFsm where
  | READY | COMPUTE_MEM_ADDR | WAIT_FOR_DRAM_ADDR | COMPUTE_DRAM_ADDR | PUSH_TO_FIFO | PUSH_TO_DMA
deriving DecidableEq, Repr

structure Addr (aw k : Nat) where
  fsm : AddrFsm
  counterAddr : BitVec 32
  memAddr : BitVec k
  dramAddr : BitVec aw
  /-- `addr_port.dat_r`. -/
  datR : BitVec 32
deriving DecidableEq, Repr

section Addr
variable (cfg : Settings w k rb) (a : Addr aw k)

/-- The memory port reads at every edge. -/
def Addr.clock : Addr aw k := { a with datR := cfg.addrMem a.memAddr }

/-- One clock edge of `fsm_addr`; `fifoReady` and `dmaReady` are `address_fifo.sink.ready` and `dma.sink.ready`. -/
def addrStep (start fifoReady dmaReady : Bool) : Addr aw k :=
  match a.fsm with
  | .READY =>
    if start then { a.clock cfg with counterAddr := 0, memAddr := 0, fsm := .COMPUTE_MEM_ADDR } else a.clock cfg
  | .COMPUTE_MEM_ADDR =>
    { a.clock cfg with
      memAddr := cfg.computeMemAddr a.counterAddr a.memAddr
      fsm := if a.counterAddr ≥ cfg.count then .READY else .WAIT_FOR_DRAM_ADDR }
  | .WAIT_FOR_DRAM_ADDR => { a.clock cfg with fsm := .COMPUTE_DRAM_ADDR }
  | .COMPUTE_DRAM_ADDR =>
    { a.clock cfg with dramAddr := cfg.computeDramAddr aw a.datR a.counterAddr, fsm := .PUSH_TO_FIFO }
  | .PUSH_TO_FIFO => if fifoReady then { a.clock cfg with fsm := .PUSH_TO_DMA } else a.clock cfg
  | .PUSH_TO_DMA =>
    if dmaReady then
      { a.clock cfg with
        counterAddr := a.counterAddr + 1
        memAddr := cfg.advance a.memAddr
        fsm := .COMPUTE_MEM_ADDR }
    else a.clock cfg

end Addr

/-! ## The DMA -/

/-- The addresses of the reads in flight and the number of words returned. -/
structure Dma (aw : Nat) where
  pending : List (BitVec aw)
  returned : Nat
deriving DecidableEq, Repr

/-- One clock edge: the command accepted, and whether a word is taken. -/
def Dma.step (d : Dma aw) (command : Option (BitVec aw)) (taken : Bool) : Dma aw :=
  { pending := (if taken then d.pending.tail else d.pending) ++ command.toList
    returned := if taken then d.returned + 1 else d.returned }

/-! ## The pattern FSM -/

inductive PatternFsm where
  | READY | COMPUTE_MEM_ADDR | WAIT_FOR_DRAM_ADDR | INVERT_COMPUTE | RD_DATA | WR_ERR
deriving DecidableEq, Repr

structure Pattern (w k rb : Nat) where
  fsm : PatternFsm
  counterGen : BitVec 32
  dataMemAddr : BitVec k
  waitCounter : BitVec 2
  /-- `data_port.dat_r`. -/
  datR : BitVec w
  errorCount : BitVec 32
  /-- Its output is `data_expected`. -/
  inverter : RowDataInverter w rb
  /-- The payload of `error_fifo.sink`. -/
  sink : ErrorRecord w
deriving DecidableEq, Repr

/-- What the pattern FSM reads in one cycle. -/
structure PatternIn (aw w : Nat) where
  start : Bool
  /-- `address_fifo.source`. -/
  fifoValid : Bool
  address : BitVec aw
  /-- `dma.source`. -/
  sourceValid : Bool
  data : BitVec w
  /-- `error_fifo.sink.ready`. -/
  errorReady : Bool
  skipFifo : Bool
deriving DecidableEq, Repr

section Pattern
variable (cfg : Settings w k rb) (p : Pattern w k rb) (x : PatternIn aw w)

/-- The memory port reads and the inverter steps at every edge. -/
def Pattern.clock : Pattern w k rb :=
  { p with datR := cfg.dataMem p.dataMemAddr, inverter := p.inverter.step cfg x.address p.datR }

/-- RD_DATA takes the word of the DMA and the address of the FIFO in one cycle. -/
def Pattern.takes : Bool := p.fsm == .RD_DATA && x.sourceValid

/-- One clock edge of `fsm_pattern`. -/
def patternStep : Pattern w k rb :=
  match p.fsm with
  | .READY =>
    if x.start then
      { p.clock cfg x with counterGen := 0, dataMemAddr := 0, errorCount := 0, fsm := .COMPUTE_MEM_ADDR }
    else p.clock cfg x
  | .COMPUTE_MEM_ADDR =>
    { p.clock cfg x with
      dataMemAddr := cfg.computeMemAddr p.counterGen p.dataMemAddr
      fsm := if p.counterGen ≥ cfg.count then .READY else .WAIT_FOR_DRAM_ADDR }
  | .WAIT_FOR_DRAM_ADDR =>
    if x.fifoValid then { p.clock cfg x with waitCounter := 0, fsm := .INVERT_COMPUTE } else p.clock cfg x
  | .INVERT_COMPUTE =>
    { p.clock cfg x with
      waitCounter := p.waitCounter + 1
      fsm := if p.waitCounter == 2 then .RD_DATA else .INVERT_COMPUTE }
  | .RD_DATA =>
    if x.sourceValid then
      if x.data != p.inverter.dataOut then
        { p.clock cfg x with
          counterGen := p.counterGen + 1
          errorCount := p.errorCount + 1
          sink := ⟨x.address.setWidth 32, x.data, p.inverter.dataOut⟩
          fsm := if x.skipFifo then .COMPUTE_MEM_ADDR else .WR_ERR }
      else { p.clock cfg x with counterGen := p.counterGen + 1, fsm := .COMPUTE_MEM_ADDR }
    else p.clock cfg x
  | .WR_ERR =>
    if x.errorReady || x.skipFifo then { p.clock cfg x with fsm := .COMPUTE_MEM_ADDR } else p.clock cfg x

end Pattern

/-! ## The error FSM -/

inductive ErrorFsm where
  | INVALID | VALID
deriving DecidableEq, Repr

/-- `fsm_error` and the payload of `error_reg`. -/
structure Error (w : Nat) where
  fsm : ErrorFsm
  reg : ErrorRecord w
deriving DecidableEq, Repr

section Error
variable (e : Error w) (fifoValid : Bool) (payload : ErrorRecord w) (skipFifo ready : Bool)

/-- `error_fifo.source.ready`. -/
def Error.takes : Bool :=
  match e.fsm with
  | .INVALID => fifoValid
  | .VALID => ready && fifoValid

/-- One clock edge of `fsm_error`; `ready` is `error.ready`. -/
def errorStep : Error w :=
  match e.fsm with
  | .INVALID => if fifoValid then (if !skipFifo then { fsm := .VALID, reg := payload } else e) else e
  | .VALID =>
    if ready && fifoValid then
      if !skipFifo then { e with reg := payload } else { e with fsm := .INVALID }
    else if ready then { e with fsm := .INVALID }
    else e

end Error

/-! ## The Reader -/

/-- The registers of the Reader, with the address FIFO `F` and the error FIFO `G`. -/
structure State (F : Fifo (BitVec aw)) (G : Fifo (ErrorRecord w)) (k rb : Nat) where
  addr : Addr aw k
  addressFifo : F.State
  dma : Dma aw
  pattern : Pattern w k rb
  errorFifo : G.State
  error : Error w

structure Input where
  start : Bool
  /-- `dma.sink.ready`. -/
  dmaReady : Bool
  /-- The oldest read in flight, if any, is answered. -/
  answered : Bool
  skipFifo : Bool
  /-- `error.ready`. -/
  errorReady : Bool
deriving DecidableEq, Repr

section Reader
variable (cfg : Settings w k rb) (word : Nat → BitVec aw → BitVec w) {F : Fifo (BitVec aw)} {G : Fifo (ErrorRecord w)}
  (s : State F G k rb) (i : Input)

def ready : Bool := s.pattern.fsm == .READY

def done : BitVec 32 := s.pattern.counterGen

def errorCount : BitVec 32 := s.pattern.errorCount

/-- What the pattern FSM reads; `word n a` answers the `n`-th read command, of address `a`. -/
def patternIn : PatternIn aw w where
  start := i.start
  fifoValid := F.valid s.addressFifo
  address := F.payload s.addressFifo
  sourceValid := i.answered && !s.dma.pending.isEmpty
  data := word s.dma.returned (s.dma.pending.headD 0)
  errorReady := G.ready s.errorFifo
  skipFifo := i.skipFifo

/-- The read command that the DMA accepts in a cycle. -/
def command : Option (BitVec aw) := if s.addr.fsm == .PUSH_TO_DMA && i.dmaReady then some s.addr.dramAddr else none

/-- A word is taken from the DMA in this cycle. -/
def taken : Bool := s.pattern.takes (patternIn word s i)

/-- The word taken and the one it is compared with. -/
def comparison : Option (BitVec w × BitVec w) :=
  if taken word s i then some ((patternIn word s i).data, s.pattern.inverter.dataOut) else none

/-- The error record that its consumer accepts in a cycle. -/
def record : Option (ErrorRecord w) := if s.error.fsm == .VALID && i.errorReady then some s.error.reg else none

/-- One clock edge. -/
def step : State F G k rb where
  addr := addrStep cfg s.addr i.start (F.ready s.addressFifo) i.dmaReady
  addressFifo := F.step s.addressFifo (s.addr.fsm == .PUSH_TO_FIFO) s.addr.dramAddr (taken word s i)
  dma := s.dma.step (command s i) (taken word s i)
  pattern := patternStep cfg s.pattern (patternIn word s i)
  errorFifo := G.step s.errorFifo (s.pattern.fsm == .WR_ERR) s.pattern.sink
    (s.error.takes (G.valid s.errorFifo) i.errorReady)
  error := errorStep s.error (G.valid s.errorFifo) (G.payload s.errorFifo) i.skipFifo i.errorReady

/-- Both FSMs are in READY, the FIFOs and the error register are empty and no read is in flight. -/
structure Idle : Prop where
  addr : s.addr.fsm = .READY
  addressFifo : F.contents s.addressFifo = []
  dma : s.dma.pending = []
  pattern : s.pattern.fsm = .READY
  errorFifo : G.contents s.errorFifo = []
  error : s.error.fsm = .INVALID

end Reader

/-- The registers after reset, with an address FIFO of four entries and a buffered error FIFO of two. -/
def reset : State (Fifo.fallThrough 3 : Fifo (BitVec aw)) (Fifo.buffered 1 : Fifo (ErrorRecord w)) k rb where
  addr := ⟨.READY, 0, 0, 0, 0⟩
  addressFifo := ([] : List (BitVec aw))
  dma := ⟨[], 0⟩
  pattern := ⟨.READY, 0, 0, 0, 0, 0, ⟨0, false, 0⟩, default⟩
  errorFifo := (([], none) : List (ErrorRecord w) × Option (ErrorRecord w))
  error := ⟨.INVALID, default⟩

theorem reset_idle : Idle (reset : State (Fifo.fallThrough 3 : Fifo (BitVec aw))
    (Fifo.buffered 1 : Fifo (ErrorRecord w))
    k rb) := ⟨rfl, rfl, rfl, rfl, rfl, rfl⟩

end Reader

end RowhammerTester.Gateware.Bist
