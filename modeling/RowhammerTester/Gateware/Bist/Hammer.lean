import RowhammerTester.Gateware.Bist.Board
import RowhammerTester.Gateware.Bist.ReaderStart

/-!
# The BIST Reader as an attacker

The registers that only the attack writes, and the read commands that leave the Reader.

* `HammerAccess`, `Csrs.writeHammer` : an access of the attack, and the storages after it;
* `Hammered`, `hammerBoard` : the board with all the read commands that the DMA has accepted;
* `Reader.spent` : a lower bound on the cycles that the address FSM has taken (`spent_step`, `busy_of_spent`);
* `Attacked` : a transfer whose errors are skipped, edge by edge (`Attacked.clock`, `Attacked.pulse`);
* `Attacked.exists_ready`, `Attacked.finish` : the Reader becomes ready, and is idle one edge later.
-/

namespace RowhammerTester.Gateware.Bist
open RowhammerTester.Hdl

variable {aw w k rb : Nat}

/-! ## Time spent by the address FSM -/

namespace Reader
variable {cfg : Settings w k rb} {a : Addr aw k}

/-- Every command takes the address FSM five cycles at least. -/
def spent (a : Addr aw k) : Nat :=
  5 * a.issued +
    match a.fsm with
    | .READY => 1
    | .COMPUTE_MEM_ADDR => 0
    | .WAIT_FOR_DRAM_ADDR => 1
    | .COMPUTE_DRAM_ADDR => 2
    | .PUSH_TO_FIFO => 3
    | .PUSH_TO_DMA => 4

/-- An edge without a start pulse is one cycle. -/
theorem spent_step (h : AddrPhase cfg a a.issued) (fifoReady dmaReady : Bool) :
    spent (addrStep cfg a false fifoReady dmaReady) ≤ spent a + 1 := by
  have hissued := addrStep_issued fifoReady dmaReady h
  unfold spent
  rw [hissued]
  cases hf : a.fsm with
  | READY => simp [addrStep, hf, Addr.clock]
  | COMPUTE_MEM_ADDR =>
    by_cases hdone : a.counterAddr ≥ cfg.count <;> simp [addrStep, hf, hdone]
  | WAIT_FOR_DRAM_ADDR => simp [addrStep, hf]
  | COMPUTE_DRAM_ADDR => simp [addrStep, hf]
  | PUSH_TO_FIFO =>
    cases fifoReady <;> simp [addrStep, hf, Addr.clock]
  | PUSH_TO_DMA =>
    cases dmaReady with
    | false => simp [addrStep, hf, Addr.clock]
    | true =>
      simp [addrStep, hf]
      omega

/-- Before five cycles for each command are over, neither FSM is in READY. -/
theorem busy_of_spent {word : Nat → BitVec aw → BitVec w} {r : Nat} {F : Fifo (BitVec aw)}
    {G : Fifo (ErrorRecord w)} {s : State F G k rb} {C : List (BitVec aw)} {D : List (BitVec w × BitVec w)}
    (h : Inv cfg word r s C D) (hspent : spent s.addr < 5 * cfg.count.toNat) :
    s.addr.fsm ≠ .READY ∧ s.pattern.fsm ≠ .READY := by
  have hissued : s.addr.issued < cfg.count.toNat := by
    unfold spent at hspent
    omega
  constructor
  · intro hf
    have hphase := h.addr
    rw [AddrPhase, hf] at hphase
    exact Nat.ne_of_lt hissued hphase
  · intro hf
    have hphase := h.pattern
    rw [PatternPhase, hf] at hphase
    have := h.le
    omega

/-- Once all commands are issued the address FSM goes to READY. -/
theorem addrStep_ready (h : AddrPhase cfg a a.issued) (hall : a.issued = cfg.count.toNat) (fifoReady dmaReady : Bool) :
    (addrStep cfg a false fifoReady dmaReady).fsm = .READY := by
  unfold AddrPhase at h
  cases hf : a.fsm with
  | READY => simp [addrStep, hf, Addr.clock]
  | COMPUTE_MEM_ADDR =>
    have hle : a.counterAddr ≥ cfg.count := BitVec.le_def.mpr (Nat.le_of_eq hall.symm)
    simp only [addrStep, hf, if_pos hle]
  | WAIT_FOR_DRAM_ADDR =>
    rw [hf] at h
    exact absurd hall (Nat.ne_of_lt h.lt)
  | COMPUTE_DRAM_ADDR =>
    rw [hf] at h
    exact absurd hall (Nat.ne_of_lt h.1.lt)
  | PUSH_TO_FIFO =>
    rw [hf] at h
    exact absurd hall (Nat.ne_of_lt h.1.lt)
  | PUSH_TO_DMA =>
    rw [hf] at h
    exact absurd hall (Nat.ne_of_lt h.1.lt)

/-- One edge after the Reader has become ready, it is idle if no error is left. -/
theorem Inv.idle_next {word : Nat → BitVec aw → BitVec w} {r : Nat} {F : Fifo (BitVec aw)} {G : Fifo (ErrorRecord w)}
    {s : State F G k rb} {C : List (BitVec aw)} {D : List (BitVec w × BitVec w)} {i : Input}
    (h : Inv cfg word r s C D) (hi : i.start = false) (hready : s.pattern.fsm = .READY)
    (hready' : (step cfg word s i).pattern.fsm = .READY) (hfifo : G.contents (step cfg word s i).errorFifo = [])
    (herror : (step cfg word s i).error.fsm = .INVALID) : Idle (step cfg word s i) := by
  have hinv := step_inv h hi
  have hall := compared_of_ready h (beq_iff_eq.mpr hready)
  have hall' := compared_of_ready hinv (beq_iff_eq.mpr hready')
  have haddr : (step cfg word s i).addr.fsm = .READY := by
    rw [step, hi]
    exact addrStep_ready h.addr hall.2 _ _
  have hpushed : (step cfg word s i).addr.pushed = cfg.count.toNat := by
    rw [Addr.pushed, haddr, hall'.2]
    rfl
  refine ⟨haddr, ?_, ?_, hready', hfifo, herror⟩
  · rw [hinv.fifo, hall'.1, hpushed, window_eq_nil]
  · rw [hinv.pending, hall'.1, hall'.2, window_eq_nil]

/-- With `skip_fifo` at 1 no error record is made. -/
theorem patternStep_ne_wrErr {p : Pattern w k rb} {x : PatternIn aw w} (hskip : x.skipFifo = true)
    (h : p.fsm ≠ .WR_ERR) : (patternStep cfg p x).fsm ≠ .WR_ERR := by
  cases hf : p.fsm with
  | READY =>
    cases hs : x.start <;> simp [patternStep, hf, hs, Pattern.clock]
  | COMPUTE_MEM_ADDR =>
    simp only [patternStep, hf]
    split <;> simp
  | WAIT_FOR_DRAM_ADDR =>
    cases hs : x.fifoValid <;> simp [patternStep, hf, hs, Pattern.clock]
  | INVERT_COMPUTE =>
    simp only [patternStep, hf]
    split <;> simp
  | RD_DATA =>
    cases hs : x.sourceValid with
    | false => simp [patternStep, hf, hs, Pattern.clock]
    | true =>
      simp only [patternStep, hf, hs, hskip, if_true]
      split <;> simp
  | WR_ERR => exact absurd hf h

/-- No error record is on its way. -/
structure NoRecord {F : Fifo (BitVec aw)} {G : Fifo (ErrorRecord w)} (s : State F G k rb) : Prop where
  pattern : s.pattern.fsm ≠ .WR_ERR
  fifo : G.contents s.errorFifo = []
  error : s.error.fsm = .INVALID

theorem NoRecord.step {F : Fifo (BitVec aw)} {G : Fifo (ErrorRecord w)} {s : State F G k rb} (h : NoRecord s)
    {word : Nat → BitVec aw → BitVec w} {i : Input} (hskip : i.skipFifo = true) :
    NoRecord (Reader.step cfg word s i) := by
  have hvalid : G.valid s.errorFifo = false := by
    rw [← Bool.not_eq_true]
    exact fun hv => G.ne_nil_of_valid hv h.fifo
  refine ⟨patternStep_ne_wrErr hskip h.pattern, ?_, ?_⟩
  · rw [Reader.step, G.contents_step, h.fifo, beq_eq_false_iff_ne.mpr h.pattern, hvalid, Bool.and_false]
    rfl
  · simp only [Reader.step, errorStep, h.error, hvalid, Bool.false_eq_true, if_false]

end Reader

/-! ## The board -/

/-- An access of the attack: to the registers of the memory tests, or to one of the two that only the attack writes. -/
inductive HammerAccess where
  | bist (a : Access)
  | writeReaderModulo (v : Nat)
  | writeReaderDataDiv (v : Nat)
deriving DecidableEq, Repr

/-- The access as the modules see it. -/
def HammerAccess.toBist : Option HammerAccess → Option Access
  | some (.bist a) => some a
  | _ => none

/-- The storages after an access. -/
def Csrs.writeHammer (c : Csrs w k rb) : Option HammerAccess → Csrs w k rb
  | none => c
  | some (.bist a) => c.write a
  | some (.writeReaderModulo v) => { c with reader := { c.reader with modulo := v % 2 == 1 } }
  | some (.writeReaderDataDiv v) => { c with reader := { c.reader with dataDiv := BitVec.ofNat k v } }

variable {F : Fifo (BitVec aw)} {G : Fifo (Reader.ErrorRecord w)}

/-- The board with the read commands that the DMA has accepted, oldest first. -/
structure Hammered (F : Fifo (BitVec aw)) (G : Fifo (Reader.ErrorRecord w)) (k rb : Nat) where
  board : Board F G k rb
  commands : List (BitVec aw)

namespace Hammered
variable (h : Hammered F G k rb) (x : Stalls) (a : Option HammerAccess)

/-- The read command of a cycle. -/
def command : Option (BitVec aw) := Reader.command h.board.reader (h.board.readerInput x (HammerAccess.toBist a))

def clock : Hammered F G k rb where
  board := { h.board.clock x (HammerAccess.toBist a) with csrs := h.board.csrs.writeHammer a }
  commands := h.commands ++ (h.command x a).toList

def answer : HammerAccess → Nat
  | .bist a => h.board.answer a
  | _ => 0

end Hammered

/-- The board as a device on the bus. -/
def hammerBoard : Device (Hammered F G k rb) Stalls HammerAccess Nat := ⟨Hammered.clock, Hammered.answer⟩

/-! ## No transfer -/

/-- The modules are idle, and `commands` have been read. -/
structure HammerResting (cs : Csrs w k rb) (mem : BitVec aw → BitVec w) (commands : List (BitVec aw))
    (h : Hammered F G k rb) : Prop where
  resting : Resting cs mem h.board
  commands : h.commands = commands

section Rest
variable {cs : Csrs w k rb} {mem : BitVec aw → BitVec w} {commands : List (BitVec aw)} {h : Hammered F G k rb}

theorem HammerResting.clock (hr : HammerResting cs mem commands h) (x : Stalls) {a : Option HammerAccess}
    (hw : Access.pulses (HammerAccess.toBist a) .writerStart = false)
    (hs : Access.pulses (HammerAccess.toBist a) .readerStart = false) :
    HammerResting (cs.writeHammer a) mem commands (h.clock x a) where
  resting := by
    have hclock := hr.resting.clock (x := x) hw hs
    exact ⟨congrArg (Csrs.writeHammer · a) hr.resting.csrs, hclock.writer, hclock.reader, hclock.dram⟩
  commands := by
    have hcommand : h.command x a = none := hr.resting.reader.command
    rw [Hammered.clock, hcommand, hr.commands]
    exact List.append_nil commands

end Rest

/-! ## A transfer with the errors skipped -/

/-- The commands `C` of a transfer of the Reader follow `before`. -/
structure Attacked (cs : Csrs w k rb) (mem : BitVec aw → BitVec w) (before C : List (BitVec aw))
    (h : Hammered F G k rb) : Prop where
  csrs : h.board.csrs = cs
  skipFifo : cs.skipFifo = true
  writer : h.board.writer.fsm = .READY
  dram : h.board.dram = mem
  inv : ∃ r D, Reader.Inv cs.reader (answers mem) r h.board.reader C D
  quiet : Reader.NoRecord h.board.reader
  commands : h.commands = before ++ C

section Attack
variable {cs : Csrs w k rb} {mem : BitVec aw → BitVec w} {before C : List (BitVec aw)} {h : Hammered F G k rb}

theorem HammerResting.start (hr : HammerResting cs mem before h) (hskip : cs.skipFifo = true) (x : Stalls) (v : Nat) :
    Attacked cs mem before [] (h.clock x (some (.bist (.write .readerStart v)))) ∧
      Reader.spent (h.clock x (some (.bist (.write .readerStart v)))).board.reader.addr = 0 := by
  have hidle := hr.resting.reader
  have hcommand : h.command x (some (.bist (.write .readerStart v))) = none := hidle.command
  refine ⟨⟨?_, hskip, ?_, ?_, ?_, ?_, ?_⟩, ?_⟩
  · exact hr.resting.csrs
  · exact clock_writer_of_ready hr.resting.writer rfl
  · exact (clock_dram_of_ready hr.resting.writer _).trans hr.resting.dram
  · rw [← hr.resting.csrs, ← hr.resting.dram]
    exact ⟨_, [], Reader.start_inv hidle rfl⟩
  · have hnone : Reader.NoRecord h.board.reader := ⟨by rw [hidle.pattern]; nofun, hidle.errorFifo, hidle.error⟩
    apply hnone.step
    rw [Board.readerInput, hr.resting.csrs]
    exact hskip
  · rw [Hammered.clock, hcommand, hr.commands]
    rfl
  · simp [Hammered.clock, Board.clock, Board.readerInput, HammerAccess.toBist, Access.pulses, Reader.step,
      Reader.addrStep, hidle.addr, Reader.spent, Reader.Addr.issued]

namespace Attacked

/-- An edge that starts nothing and changes no storage. -/
theorem clock (ha : Attacked cs mem before C h) (x : Stalls) {a : Option HammerAccess}
    (hcsrs : h.board.csrs.writeHammer a = h.board.csrs)
    (hw : Access.pulses (HammerAccess.toBist a) .writerStart = false)
    (hs : Access.pulses (HammerAccess.toBist a) .readerStart = false) :
    Attacked cs mem before (C ++ (h.command x a).toList) (h.clock x a) where
  csrs := hcsrs.trans ha.csrs
  skipFifo := ha.skipFifo
  writer := clock_writer_of_ready ha.writer hw
  dram := (clock_dram_of_ready ha.writer _).trans ha.dram
  inv := by
    obtain ⟨r, D, hinv⟩ := ha.inv
    rw [← ha.csrs, ← ha.dram] at hinv ⊢
    exact ⟨r, _, Reader.step_inv hinv hs⟩
  quiet := by
    apply ha.quiet.step
    rw [Board.readerInput, ha.csrs]
    exact ha.skipFifo
  commands := by
    rw [Hammered.clock, ha.commands]
    exact List.append_assoc ..

theorem clock_spent (ha : Attacked cs mem before C h) (x : Stalls) :
    Reader.spent (h.clock x none).board.reader.addr ≤ Reader.spent h.board.reader.addr + 1 := by
  obtain ⟨r, D, hinv⟩ := ha.inv
  rw [← ha.csrs] at hinv
  exact Reader.spent_step hinv.addr ..

/-- A second start pulse has no effect while the first commands are still being made. -/
theorem pulse (ha : Attacked cs mem before C h) (hspent : Reader.spent h.board.reader.addr < 5 * cs.reader.count.toNat)
    (x : Stalls) (v : Nat) : h.clock x (some (.bist (.write .readerStart v))) = h.clock x none := by
  obtain ⟨r, D, hinv⟩ := ha.inv
  obtain ⟨haddr, hpattern⟩ := Reader.busy_of_spent hinv hspent
  have hreader : Reader.step h.board.csrs.reader (answers h.board.dram) h.board.reader
      (h.board.readerInput x (some (.write .readerStart v))) = Reader.step h.board.csrs.reader (answers h.board.dram)
      h.board.reader (h.board.readerInput x none) :=
    Reader.step_start haddr hpattern (h.board.readerInput x none) true
  unfold Hammered.clock Board.clock HammerAccess.toBist
  rw [hreader]
  rfl

/-- When the Reader is ready, all reads have been commanded. -/
theorem commands_of_ready (ha : Attacked cs mem before C h) (hready : h.board.reader.pattern.fsm = .READY) :
    C = (List.range cs.reader.count.toNat).map (cs.reader.address aw) := by
  obtain ⟨r, D, hinv⟩ := ha.inv
  rw [hinv.commands, (Reader.compared_of_ready hinv (beq_iff_eq.mpr hready)).2]

/-- One edge later it is idle. -/
theorem finish (ha : Attacked cs mem before C h) (hready : h.board.reader.pattern.fsm = .READY) (x : Stalls)
    {a : Option HammerAccess} (hcsrs : h.board.csrs.writeHammer a = h.board.csrs)
    (hw : Access.pulses (HammerAccess.toBist a) .writerStart = false)
    (hs : Access.pulses (HammerAccess.toBist a) .readerStart = false) :
    HammerResting cs mem (before ++ (List.range cs.reader.count.toNat).map (cs.reader.address aw)) (h.clock x a) := by
  have hnext := ha.clock x hcsrs hw hs
  have hready' : (h.clock x a).board.reader.pattern.fsm = .READY := clock_reader_of_ready hready hs
  obtain ⟨r, D, hinv⟩ := ha.inv
  rw [← ha.csrs, ← ha.dram] at hinv
  refine ⟨⟨hnext.csrs, hnext.writer, ?_, hnext.dram⟩, ?_⟩
  · exact hinv.idle_next hs hready hready' hnext.quiet.fifo hnext.quiet.error
  · rw [hnext.commands, hnext.commands_of_ready hready']

end Attacked

/-! ## Time -/

namespace Attacked
variable {env : Nat → Stalls} {c : At (Hammered F G k rb)}

variable (env) in
theorem later_exists (ha : Attacked cs mem before C c.device) (n : Nat) :
    ∃ C', Attacked cs mem before C' (later hammerBoard env c n).device := by
  apply later_induction (P := fun h => ∃ C', Attacked cs mem before C' h) hammerBoard env _ ⟨C, ha⟩
  intro h x hC
  obtain ⟨C', hC'⟩ := hC
  exact ⟨_, hC'.clock x rfl rfl rfl⟩

theorem later_spent (ha : Attacked cs mem before C c.device) (n : Nat) :
    Reader.spent (later hammerBoard env c n).device.board.reader.addr ≤ Reader.spent c.device.board.reader.addr + n := by
  induction n with
  | zero => exact Nat.le_refl _
  | succ n ih =>
    obtain ⟨C', hC'⟩ := ha.later_exists env n
    have hstep := hC'.clock_spent (env (c.time + n))
    rw [later_succ_device]
    exact Nat.le_trans hstep (Nat.succ_le_succ ih)

/-- While the host only reads, the Reader runs as with these inputs. -/
def skipping (env : Nat → Stalls) (t j : Nat) : Reader.Input :=
  ⟨false, (env (t + j)).readerReady, (env (t + j)).answered, true, false⟩

theorem later_reader (ha : Attacked cs mem before C c.device) (n : Nat) :
    (later hammerBoard env c n).device.board.reader =
      run (Reader.step cs.reader (answers mem)) c.device.board.reader (skipping env c.time) n := by
  induction n with
  | zero => rfl
  | succ n ih =>
    obtain ⟨C', hC'⟩ := ha.later_exists env n
    have hinput : skipping env c.time n =
        (later hammerBoard env c n).device.board.readerInput (env (c.time + n)) none := by
      rw [Board.readerInput, hC'.csrs, ha.skipFifo]
      rfl
    rw [later_succ_device, run_succ, ← ih, hinput, ← hC'.csrs, ← hC'.dram]
    rfl

/-- The Reader is ready from some edge on. -/
theorem exists_ready (ha : Attacked cs mem before C c.device) (hfair : FairStalls env) :
    ∃ d, ∀ n, d ≤ n → (later hammerBoard env c n).device.board.reader.pattern.fsm = .READY := by
  obtain ⟨r, D, hinv⟩ := ha.inv
  have hall : Reader.Fair (skipping env c.time) :=
    ⟨exists_later hfair.readerReady c.time, exists_later hfair.answered c.time, fun t => ⟨t, Nat.le_refl t, Or.inr rfl⟩⟩
  have hquiet : ∀ t, (skipping env c.time t).start = false := fun _ => rfl
  obtain ⟨T, hT⟩ := Reader.exists_restsFrom hinv hquiet
  refine ⟨T, fun n hn => ?_⟩
  rw [ha.later_reader]
  exact (hT.still hn).patternFsm.trans (hT.pattern_ready hall.dma (hT.not_wrErr hall))

end Attacked

end Attack

end RowhammerTester.Gateware.Bist
