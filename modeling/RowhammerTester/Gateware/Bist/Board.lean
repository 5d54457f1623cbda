import RowhammerTester.Hdl.Host
import RowhammerTester.Gateware.Bist.RoundTrip

/-!
# The BIST modules on the bus

The Writer and the Reader, their pattern memories and CSRs, and the DRAM.

* `Status`, `Control`, `PatternMem`, `Access` : what the host reads and writes;
* `Csrs`, `Csrs.write` : the storages and the pattern memories; `setLane` : a 32-bit word of a wide memory entry;
* `Board`, `clock`, `answer`, `board` : the modules with the DRAM as a device on the bus;
* `Resting`, `Filling`, `Testing` : no transfer, one of the Writer and one of the Reader, edge by edge.
-/

namespace RowhammerTester.Gateware.Bist
open RowhammerTester.Hdl

/-! ## Accesses -/

/-- The status registers of `add_csrs` that the scripts read. -/
inductive Status where
  | writerReady | writerDone | readerReady | readerDone
  | readerErrorReady | readerErrorOffset | readerErrorData | readerErrorExpected
deriving DecidableEq, Repr

/-- The registers that the scripts write. -/
inductive Control where
  | writerStart | writerCount | writerMemMask | writerDataMask
  | readerStart | readerCount | readerMemMask | readerDataMask | readerSkipFifo | readerErrorContinue
deriving DecidableEq, Repr

inductive PatternMem where
  | writerPatternData | writerPatternAddr | readerPatternData | readerPatternAddr
deriving DecidableEq, Repr

/-- An access over the bus; a pattern memory is written in 32-bit words. -/
inductive Access where
  | read (r : Status)
  | write (r : Control) (v : Nat)
  | store (m : PatternMem) (i v : Nat)
deriving DecidableEq, Repr

/-- The access writes to the register, which is the `re` pulse of a CSR. -/
def Access.pulses (a : Option Access) (r : Control) : Bool :=
  match a with
  | some (.write r' _) => r' == r
  | _ => false

variable {aw w k rb : Nat}

/-! ## Storages -/

/-- The `i`-th 32-bit word of `d` replaced by `v`. -/
def setLane (d : BitVec w) (i : Nat) (v : BitVec 32) : BitVec w :=
  (d &&& ~~~((BitVec.allOnes 32).setWidth w <<< (32 * i))) ||| (v.setWidth w <<< (32 * i))

theorem getLsbD_setLane (d : BitVec w) (i : Nat) (v : BitVec 32) {j : Nat} (hj : j < w) :
    (setLane d i v).getLsbD j = if 32 * i ≤ j ∧ j < 32 * i + 32 then v.getLsbD (j - 32 * i) else d.getLsbD j := by
  unfold setLane
  simp only [BitVec.getLsbD_or, BitVec.getLsbD_and, BitVec.getLsbD_not, BitVec.getLsbD_shiftLeft,
    BitVec.getLsbD_setWidth, BitVec.getLsbD_allOnes, hj, decide_true, Bool.true_and]
  by_cases hlo : j < 32 * i
  · simp [hlo]
  · by_cases hhi : j < 32 * i + 32
    · simp [hlo, show j - 32 * i < w by omega, show j - 32 * i < 32 by omega, show 32 * i ≤ j by omega, hhi]
    · simp [hlo, show ¬ j - 32 * i < 32 by omega, hhi, BitVec.getLsbD_of_ge v (j - 32 * i) (by omega)]

/-- The 32-bit word `v` is stored at the bus address `i` of a memory of entries of width `w`. -/
def storeWord (mem : BitVec k → BitVec w) (i v : Nat) : BitVec k → BitVec w :=
  Function.update mem (BitVec.ofNat k (i / (w / 32)))
    (setLane (mem (BitVec.ofNat k (i / (w / 32)))) (i % (w / 32)) (BitVec.ofNat 32 v))

/-- The storages and the pattern memories of both modules. -/
structure Csrs (w k rb : Nat) where
  writer : Settings w k rb
  reader : Settings w k rb
  skipFifo : Bool

/-- The storages after an access. -/
def Csrs.write (c : Csrs w k rb) : Access → Csrs w k rb
  | .write .writerCount v => { c with writer := { c.writer with count := BitVec.ofNat 32 v } }
  | .write .writerMemMask v => { c with writer := { c.writer with memMask := BitVec.ofNat 32 v } }
  | .write .writerDataMask v => { c with writer := { c.writer with dataMask := BitVec.ofNat k v } }
  | .write .readerCount v => { c with reader := { c.reader with count := BitVec.ofNat 32 v } }
  | .write .readerMemMask v => { c with reader := { c.reader with memMask := BitVec.ofNat 32 v } }
  | .write .readerDataMask v => { c with reader := { c.reader with dataMask := BitVec.ofNat k v } }
  | .write .readerSkipFifo v => { c with skipFifo := v % 2 == 1 }
  | .store .writerPatternData i v => { c with writer := { c.writer with dataMem := storeWord c.writer.dataMem i v } }
  | .store .writerPatternAddr i v => { c with writer := { c.writer with addrMem := storeWord c.writer.addrMem i v } }
  | .store .readerPatternData i v => { c with reader := { c.reader with dataMem := storeWord c.reader.dataMem i v } }
  | .store .readerPatternAddr i v => { c with reader := { c.reader with addrMem := storeWord c.reader.addrMem i v } }
  | _ => c

/-! ## The board -/

/-- What the DMAs do in a cycle: both `dma.sink.ready`, and whether the oldest read in flight is answered. -/
structure Stalls where
  writerReady : Bool
  readerReady : Bool
  answered : Bool
deriving DecidableEq, Repr

variable {F : Fifo (BitVec aw)} {G : Fifo (Reader.ErrorRecord w)}

/-- The modules and the DRAM. -/
structure Board (F : Fifo (BitVec aw)) (G : Fifo (Reader.ErrorRecord w)) (k rb : Nat) where
  csrs : Csrs w k rb
  writer : Writer.State aw w k rb
  reader : Reader.State F G k rb
  dram : BitVec aw → BitVec w

namespace Board
variable (b : Board F G k rb) (x : Stalls) (a : Option Access)

def writerInput : Writer.Input := ⟨Access.pulses a .writerStart, x.writerReady⟩

def readerInput : Reader.Input :=
  ⟨Access.pulses a .readerStart, x.readerReady, x.answered, b.csrs.skipFifo, Access.pulses a .readerErrorContinue⟩

/-- One clock edge. A storage takes its value at the edge, and a write accepted by the DMA is in the DRAM after it. -/
def clock : Board F G k rb where
  csrs := a.elim b.csrs b.csrs.write
  writer := Writer.step b.csrs.writer b.writer (writerInput x a)
  reader := Reader.step b.csrs.reader (answers b.dram) b.reader (readerInput b x a)
  dram := store b.dram (Writer.write b.writer (writerInput x a)).toList

/-- What an access reads. -/
def answer : Access → Nat
  | .read .writerReady => (Writer.ready b.writer).toNat
  | .read .writerDone => (Writer.done b.writer).toNat
  | .read .readerReady => (Reader.ready b.reader).toNat
  | .read .readerDone => (Reader.done b.reader).toNat
  | .read .readerErrorReady => (b.reader.error.fsm == .VALID).toNat
  | .read .readerErrorOffset => b.reader.error.reg.offset.toNat
  | .read .readerErrorData => b.reader.error.reg.data.toNat
  | .read .readerErrorExpected => b.reader.error.reg.expected.toNat
  | _ => 0

end Board

/-- The board as a device on the bus. -/
def board : Device (Board F G k rb) Stalls Access Nat := ⟨Board.clock, Board.answer⟩

theorem store_append (mem : BitVec aw → BitVec w) (W V : List (BitVec aw × BitVec w)) :
    store mem (W ++ V) = store (store mem W) V := List.foldl_append

/-! ## No transfer -/

section Resting
variable (cs : Csrs w k rb) (mem : BitVec aw → BitVec w)

/-- Both modules are idle. -/
structure Resting (b : Board F G k rb) : Prop where
  csrs : b.csrs = cs
  writer : b.writer.fsm = .READY
  reader : Reader.Idle b.reader
  dram : b.dram = mem

/-- A transfer of the Writer into the DRAM `mem`, or its end. -/
structure Filling (b : Board F G k rb) : Prop where
  csrs : b.csrs = cs
  reader : Reader.Idle b.reader
  writes : ∃ W, Writer.Inv cs.writer b.writer W ∧ b.dram = store mem W

/-- A transfer of the Reader on the DRAM `mem`, or its end; the records `R` are delivered. -/
structure Testing (R : List (Reader.ErrorRecord w)) (b : Board F G k rb) : Prop where
  csrs : b.csrs = cs
  skipFifo : cs.skipFifo = false
  writer : b.writer.fsm = .READY
  dram : b.dram = mem
  inv : ∃ r C D, Reader.Inv cs.reader (answers mem) r b.reader C D
  held : R ++ Reader.held b.reader = Reader.errors cs.reader (answers mem) 0 b.reader.pattern.compared

variable {cs mem} {b : Board F G k rb} {x : Stalls}

theorem clock_dram_of_ready (h : b.writer.fsm = .READY) (a : Option Access) : (b.clock x a).dram = b.dram := by
  rw [Board.clock, Writer.write_of_ready _ h]
  rfl

theorem clock_writer_of_ready (h : b.writer.fsm = .READY) {a : Option Access}
    (ha : Access.pulses a .writerStart = false) : (b.clock x a).writer.fsm = .READY := by
  rw [Board.clock, Writer.step_of_ready _ h ha]
  exact h

theorem clock_reader_of_ready (h : b.reader.pattern.fsm = .READY) {a : Option Access}
    (ha : Access.pulses a .readerStart = false) : (b.clock x a).reader.pattern.fsm = .READY := by
  simp only [Board.clock, Reader.step, Reader.patternStep, h, Reader.patternIn, Board.readerInput, ha,
    Bool.false_eq_true, if_false]
  exact h

theorem Resting.clock (h : Resting cs mem b) {a : Option Access} (hw : Access.pulses a .writerStart = false)
    (hr : Access.pulses a .readerStart = false) : Resting (a.elim cs cs.write) mem (b.clock x a) where
  csrs := by
    rw [Board.clock, h.csrs]
  writer := clock_writer_of_ready h.writer hw
  reader := h.reader.stays hr
  dram := (clock_dram_of_ready h.writer a).trans h.dram

theorem Resting.start_writer (h : Resting cs mem b) (v : Nat) :
    Filling cs mem (b.clock x (some (.write .writerStart v))) where
  csrs := h.csrs
  reader := h.reader.stays rfl
  writes := by
    refine ⟨[], ?_, (clock_dram_of_ready h.writer _).trans h.dram⟩
    rw [← h.csrs]
    exact Writer.start_inv _ h.writer rfl

theorem Resting.start_reader (h : Resting cs mem b) (hskip : cs.skipFifo = false) (v : Nat) :
    Testing cs mem [] (b.clock x (some (.write .readerStart v))) where
  csrs := h.csrs
  skipFifo := hskip
  writer := clock_writer_of_ready h.writer rfl
  dram := (clock_dram_of_ready h.writer _).trans h.dram
  inv := by
    rw [← h.csrs, ← h.dram]
    exact ⟨_, [], [], Reader.start_inv h.reader rfl⟩
  held := by
    have hheld : Reader.held (b.clock x (some (.write .readerStart v))).reader = [] := h.reader.held_start rfl
    have hpattern : (b.clock x (some (.write .readerStart v))).reader.pattern.compared = 0 := by
      simp [Board.clock, Board.readerInput, Reader.step, Reader.patternStep, h.reader.pattern, Reader.patternIn,
        Access.pulses, Reader.Pattern.compared]
    rw [hheld, hpattern]
    rfl

/-! ## A transfer of the Writer -/

theorem Filling.clock (h : Filling cs mem b) : Filling cs mem (b.clock x none) where
  csrs := h.csrs
  reader := h.reader.stays rfl
  writes := by
    obtain ⟨W, hinv, hdram⟩ := h.writes
    refine ⟨W ++ (Writer.write b.writer (Board.writerInput x none)).toList, ?_, ?_⟩
    · rw [← h.csrs] at hinv ⊢
      exact Writer.quiet_inv _ rfl hinv
    · rw [store_append, ← hdram]
      rfl

/-- When the Writer is ready, all is written. -/
theorem Filling.resting (h : Filling cs mem b) (hready : b.writer.fsm = .READY) :
    Resting cs (store mem (Writer.writes cs.writer aw cs.writer.count.toNat)) b where
  csrs := h.csrs
  writer := hready
  reader := h.reader
  dram := by
    obtain ⟨W, hinv, hdram⟩ := h.writes
    have hp := hinv.phase
    rw [Writer.Phase, hready] at hp
    rw [hdram, hinv.writes, show b.writer.cmdCounter.toNat = _ from hp]

/-! ## A transfer of the Reader -/

namespace Testing
variable {R : List (Reader.ErrorRecord w)}

/-- An edge that starts nothing and changes no storage. -/
theorem clock_record (h : Testing cs mem R b) {a : Option Access} (hcsrs : a.elim b.csrs b.csrs.write = b.csrs)
    (hw : Access.pulses a .writerStart = false) (hr : Access.pulses a .readerStart = false) :
    Testing cs mem (R ++ (Reader.record b.reader (b.readerInput x a)).toList) (b.clock x a) where
  csrs := hcsrs.trans h.csrs
  skipFifo := h.skipFifo
  writer := clock_writer_of_ready h.writer hw
  dram := (clock_dram_of_ready h.writer a).trans h.dram
  inv := by
    obtain ⟨r, C, D, hinv⟩ := h.inv
    rw [← h.csrs, ← h.dram] at hinv ⊢
    exact ⟨_, _, _, Reader.step_inv hinv hr⟩
  held := by
    obtain ⟨r, C, D, hinv⟩ := h.inv
    have hheld := h.held
    have hskip : (b.readerInput x a).skipFifo = false := (congrArg Csrs.skipFifo h.csrs).trans h.skipFifo
    rw [← h.csrs, ← h.dram] at hinv hheld ⊢
    exact hinv.step_held hr hskip hheld

theorem clock (h : Testing cs mem R b) : Testing cs mem R (b.clock x none) := by
  have hrecord : Reader.record b.reader (b.readerInput x none) = none := by
    rw [Reader.record, show (b.readerInput x none).errorReady = false from rfl, Bool.and_false]
    rfl
  have := h.clock_record (x := x) (a := none) rfl rfl rfl
  rwa [hrecord, Option.toList_none, List.append_nil] at this

/-- A continue pulse takes the error that is offered. -/
theorem continue_clock (h : Testing cs mem R b) (hvalid : b.reader.error.fsm = .VALID) (v : Nat) :
    Testing cs mem (R ++ [b.reader.error.reg]) (b.clock x (some (.write .readerErrorContinue v))) := by
  have hrecord : Reader.record b.reader (b.readerInput x (some (.write .readerErrorContinue v))) =
      some b.reader.error.reg := by
    rw [Reader.record, hvalid]
    rfl
  have := h.clock_record (x := x) (a := some (.write .readerErrorContinue v)) rfl rfl rfl
  rwa [hrecord] at this

end Testing

end Resting

/-! ## Time -/

/-- No stall of a DMA lasts forever. -/
structure FairStalls (env : Nat → Stalls) : Prop where
  writerReady : ∀ t, ∃ u, t ≤ u ∧ (env u).writerReady = true
  readerReady : ∀ t, ∃ u, t ≤ u ∧ (env u).readerReady = true
  answered : ∀ t, ∃ u, t ≤ u ∧ (env u).answered = true

section Time
variable {cs : Csrs w k rb} {mem : BitVec aw → BitVec w} {env : Nat → Stalls} {c : At (Board F G k rb)}

theorem Resting.later (h : Resting cs mem c.device) (n : Nat) : Resting cs mem (later board env c n).device :=
  later_induction (P := Resting cs mem) board env (fun _ _ hb => hb.clock (a := none) rfl rfl) h n

theorem Filling.later (h : Filling cs mem c.device) (n : Nat) : Filling cs mem (later board env c n).device :=
  later_induction (P := Filling cs mem) board env (fun _ _ hb => hb.clock) h n

theorem Filling.later_writer (h : Filling cs mem c.device) (n : Nat) :
    (Hdl.later board env c n).device.writer =
      run (Writer.step cs.writer) c.device.writer (fun j => ⟨false, (env (c.time + j)).writerReady⟩) n := by
  induction n with
  | zero => rfl
  | succ n ih =>
    have hcsrs : (Hdl.later board env c n).device.csrs = cs := (h.later n).csrs
    rw [later_succ_device, run_succ, ← ih, ← hcsrs]
    rfl

/-- A later time is as good for what happens again and again. -/
theorem exists_later {P : Nat → Prop} (h : ∀ t, ∃ u, t ≤ u ∧ P u) (T : Nat) : ∀ t, ∃ u, t ≤ u ∧ P (T + u) := by
  intro t
  obtain ⟨u, hu, hP⟩ := h (T + t)
  obtain ⟨d, rfl⟩ := Nat.exists_eq_add_of_le hu
  exact ⟨t + d, by omega, by rwa [← Nat.add_assoc]⟩

/-- The Writer is ready from some time after its start on. -/
theorem Resting.exists_ready (h : Resting cs mem c.device) (hfair : FairStalls env) (v : Nat) :
    ∃ d, ∀ n, d ≤ n →
      (Hdl.later board env (perform board env c (.write .writerStart v)) n).device.writer.fsm = .READY := by
  have hfill : Filling cs mem (perform board env c (.write .writerStart v)).device := h.start_writer v
  have hrun : ∀ n, (Hdl.later board env (perform board env c (.write .writerStart v)) n).device.writer =
      run (Writer.step cs.writer) c.device.writer (fun j => ⟨j == 0, (env (c.time + j)).writerReady⟩) (n + 1) := by
    intro n
    rw [hfill.later_writer, run_succ', ← h.csrs]
    congr 1
    funext j
    rw [show (perform board env c (.write .writerStart v)).time + j = c.time + (j + 1) from Nat.add_right_comm ..]
    rfl
  obtain ⟨T, hT, -, hready⟩ := @Writer.exists_ready _ _ _ _ cs.writer _
    (fun j => ⟨j == 0, (env (c.time + j)).writerReady⟩) h.writer rfl (exists_later hfair.writerReady c.time)
  obtain ⟨T, rfl⟩ := Nat.exists_eq_add_of_le' hT
  refine ⟨T, fun n hn => ?_⟩
  rw [hrun]
  induction n, hn using Nat.le_induction with
  | base => exact beq_iff_eq.mp hready
  | succ n _ ih =>
    rw [run_succ, Writer.step_of_ready _ ih rfl]
    exact ih

namespace Testing
variable {R : List (Reader.ErrorRecord w)}

protected theorem later (h : Testing cs mem R c.device) (n : Nat) : Testing cs mem R (later board env c n).device :=
  later_induction (P := Testing cs mem R) board env (fun _ _ hb => hb.clock) h n

/-- While the host does not continue, the Reader runs as with these inputs. -/
def waiting (env : Nat → Stalls) (t j : Nat) : Reader.Input :=
  ⟨false, (env (t + j)).readerReady, (env (t + j)).answered, false, false⟩

theorem later_reader (h : Testing cs mem R c.device) (n : Nat) :
    (Hdl.later board env c n).device.reader =
      run (Reader.step cs.reader (answers mem)) c.device.reader (waiting env c.time) n := by
  induction n with
  | zero => rfl
  | succ n ih =>
    have hn : Testing cs mem R (Hdl.later board env c n).device := h.later n
    have hinput : waiting env c.time n = (Hdl.later board env c n).device.readerInput (env (c.time + n)) none := by
      rw [Board.readerInput, hn.csrs, h.skipFifo]
      rfl
    rw [later_succ_device, run_succ, ← ih, hinput, ← hn.csrs, ← hn.dram]
    rfl

theorem exists_offered (h : Testing cs mem R c.device) (hfair : FairStalls env) :
    ∃ d, ∀ n, d ≤ n → (Hdl.later board env c n).device.reader.error.fsm = .VALID ∨
      (Hdl.later board env c n).device.reader.pattern.fsm = .READY := by
  obtain ⟨r, C, D, hinv⟩ := h.inv
  have hdma : Reader.DmaFair (waiting env c.time) :=
    ⟨exists_later hfair.readerReady c.time, exists_later hfair.answered c.time⟩
  obtain ⟨T, hT⟩ := Reader.exists_offered hinv (fun _ => rfl) hdma
  refine ⟨T, fun n hn => ?_⟩
  rw [h.later_reader]
  exact hT n hn

/-- A ready Reader stays ready. -/
theorem later_ready (hready : c.device.reader.pattern.fsm = .READY) (n : Nat) :
    (Hdl.later board env c n).device.reader.pattern.fsm = .READY :=
  later_induction (P := fun b => b.reader.pattern.fsm = .READY) board env
    (fun _ _ hb => clock_reader_of_ready (a := none) hb rfl) hready n

/-- The error that is offered stays there. -/
theorem later_error (hvalid : c.device.reader.error.fsm = .VALID) (n : Nat) :
    (Hdl.later board env c n).device.reader.error = c.device.reader.error :=
  later_induction (P := fun b => b.reader.error = c.device.reader.error) board env
    (fun b x hb => by
      rw [← hb] at hvalid ⊢
      exact Reader.errorStep_of_rests (by rw [Reader.ErrorRests, hvalid]; rfl) ..) rfl n

/-- A free error register takes the head of the FIFO. -/
theorem later_one_valid (h : Testing cs mem R c.device) (hvalid : G.valid c.device.reader.errorFifo = true)
    (hfree : c.device.reader.error.fsm = .INVALID) : (Hdl.later board env c 1).device.reader.error.fsm = .VALID := by
  rw [h.later_reader]
  simp only [run, Reader.step, Reader.errorStep, hfree, hvalid, waiting, Bool.not_false, if_true]

/-- An error in the FIFO is offered when the FIFO has brought it to its head. -/
theorem later_valid (h : Testing cs mem R c.device) {l : Nat} (hlag : G.lag c.device.reader.errorFifo ≤ l)
    (hne : G.contents c.device.reader.errorFifo ≠ []) :
    (Hdl.later board env c (l + 1)).device.reader.error.fsm = .VALID := by
  induction l using Nat.strongRecOn generalizing c with
  | ind l ih =>
    cases hf : c.device.reader.error.fsm with
    | VALID => rw [later_error hf, hf]
    | INVALID =>
      rw [Nat.add_comm, ← later_later]
      cases hv : G.valid c.device.reader.errorFifo with
      | true =>
        have hone : (Hdl.later board env c 1).device.reader.error.fsm = .VALID := h.later_one_valid hv hf
        rw [later_error hone, hone]
      | false =>
        have hstep : (Hdl.later board env c 1).device.reader.errorFifo =
            G.step c.device.reader.errorFifo (c.device.reader.pattern.fsm == .WR_ERR) c.device.reader.pattern.sink
              (c.device.reader.error.takes (G.valid c.device.reader.errorFifo) false) := rfl
        have hless := G.lag_step _ (c.device.reader.pattern.fsm == .WR_ERR) c.device.reader.pattern.sink
          (c.device.reader.error.takes (G.valid c.device.reader.errorFifo) false) hne hv
        rw [← hstep] at hless
        obtain ⟨l, rfl⟩ := Nat.exists_eq_add_of_le' (show 1 ≤ l by omega)
        apply ih l (Nat.lt_succ_self l) (h.later 1) (by omega)
        rw [hstep, G.contents_step, hv]
        intro hnil
        exact hne (List.append_eq_nil_iff.mp hnil).1

/-- If no error is offered after a while, there was none. -/
theorem free_of_later (h : Testing cs mem R c.device) (hlag : ∀ q, G.lag q ≤ 3) {n : Nat} (hn : 4 ≤ n)
    (hfree : (Hdl.later board env c n).device.reader.error.fsm = .INVALID) :
    c.device.reader.error.fsm = .INVALID ∧ G.contents c.device.reader.errorFifo = [] := by
  constructor
  · cases hf : c.device.reader.error.fsm with
    | INVALID => rfl
    | VALID =>
      rw [later_error hf, hf] at hfree
      cases hfree
  · apply Classical.byContradiction
    intro hne
    have hvalid : (Hdl.later board env c 4).device.reader.error.fsm = .VALID := h.later_valid (hlag _) hne
    obtain ⟨d, rfl⟩ := Nat.exists_eq_add_of_le hn
    rw [← later_later, later_error hvalid, hvalid] at hfree
    cases hfree

/-- The rank of the Reader does not rise. -/
theorem later_rank (h : Testing cs mem R c.device) (n : Nat) :
    Reader.rank cs.reader (Hdl.later board env c n).device.reader ≤ Reader.rank cs.reader c.device.reader := by
  induction n with
  | zero => exact Nat.le_refl _
  | succ n ih =>
    have hn : Testing cs mem R (Hdl.later board env c n).device := h.later n
    obtain ⟨r, C, D, hinv⟩ := hn.inv
    rw [h.later_reader, run_succ, ← h.later_reader]
    obtain hlt | hrest := Reader.rank_step (i := waiting env c.time n) hinv rfl
    · exact Nat.le_trans (Nat.le_of_lt hlt) ih
    · rw [Reader.rank_of_rests hrest rfl]
      exact ih

/-- A continue pulse lowers it. -/
theorem continue_rank (h : Testing cs mem R c.device) (hvalid : c.device.reader.error.fsm = .VALID) (v : Nat) :
    Reader.rank cs.reader (perform board env c (.write .readerErrorContinue v)).device.reader <
      Reader.rank cs.reader c.device.reader := by
  obtain ⟨r, C, D, hinv⟩ := h.inv
  rw [← h.csrs, ← h.dram] at hinv
  rw [← h.csrs]
  obtain hlt | hrest := Reader.rank_step
    (i := c.device.readerInput (env c.time) (some (.write .readerErrorContinue v))) hinv rfl
  · exact hlt
  · have := hrest.error
    rw [Reader.ErrorRests, hvalid] at this
    cases this

end Testing

end Time

end RowhammerTester.Gateware.Bist
