import Mathlib.Data.Nat.Find
import RowhammerTester.Hdl.Machine
import RowhammerTester.Gateware.Bist.Pattern

/-!
# The BIST `Writer`

* `State`, `Input`, `step` : its registers and one clock edge, the DMA being its environment;
* `write`, `ready`, `done` : the accepted DMA write of a cycle and the status signals;
* `writes` : the transfers that the settings describe;
* `Inv` : what holds in every state of the FSM while a transfer is under way (`step_inv`, `run_inv`);
* `transfer` : a start pulse writes the pattern, whatever the stalls and the later pulses.
-/

namespace RowhammerTester.Gateware.Bist
open RowhammerTester.Hdl

namespace Writer

inductive Fsm where
  | READY | COMPUTE_MEM_ADDR | WAIT_FOR_DRAM_ADDR | COMPUTE_DRAM_ADDR | INVERT_COMPUTE | SEND
deriving DecidableEq, Repr

/-- The registers of the Writer, of its memory ports and of its inverter. -/
structure State (aw w k rb : Nat) where
  fsm : Fsm
  cmdCounter : BitVec 32
  memAddr : BitVec k
  dramAddr : BitVec aw
  waitCounter : BitVec 2
  /-- `addr_port.dat_r`. -/
  addrDatR : BitVec 32
  /-- `data_port.dat_r`. -/
  dataDatR : BitVec w
  inverter : RowDataInverter w rb
deriving DecidableEq, Repr

variable {aw w k rb : Nat}

/-- The registers after reset. -/
def reset : State aw w k rb :=
  { fsm := .READY, cmdCounter := 0, memAddr := 0, dramAddr := 0, waitCounter := 0, addrDatR := 0, dataDatR := 0,
    inverter := ⟨0, false, 0⟩ }

structure Input where
  start : Bool
  /-- `dma.sink.ready`. -/
  dmaReady : Bool
deriving DecidableEq, Repr

variable (cfg : Settings w k rb) (s : State aw w k rb) (i : Input)

def ready : Bool := s.fsm == .READY

def done : BitVec 32 := s.cmdCounter

/-- The write that the DMA accepts in a cycle: its address and its data. -/
def write : Option (BitVec aw × BitVec w) :=
  if s.fsm == .SEND && i.dmaReady then some (s.dramAddr, s.inverter.dataOut) else none

/-- What every edge loads, in all states: the outputs of the memory ports and the inverter. -/
def clock : State aw w k rb :=
  { s with
    addrDatR := cfg.addrMem s.memAddr
    dataDatR := cfg.dataMem s.memAddr
    inverter := s.inverter.step cfg s.dramAddr s.dataDatR }

/-- One clock edge. -/
def step : State aw w k rb :=
  match s.fsm with
  | .READY =>
    if i.start then { clock cfg s with cmdCounter := 0, memAddr := 0, fsm := .COMPUTE_MEM_ADDR } else clock cfg s
  | .COMPUTE_MEM_ADDR =>
    { clock cfg s with
      memAddr := cfg.computeMemAddr s.cmdCounter s.memAddr
      fsm := if s.cmdCounter ≥ cfg.count then .READY else .WAIT_FOR_DRAM_ADDR }
  | .WAIT_FOR_DRAM_ADDR => { clock cfg s with fsm := .COMPUTE_DRAM_ADDR }
  | .COMPUTE_DRAM_ADDR =>
    { clock cfg s with
      waitCounter := 0
      dramAddr := cfg.computeDramAddr aw s.addrDatR s.cmdCounter
      fsm := .INVERT_COMPUTE }
  | .INVERT_COMPUTE =>
    { clock cfg s with
      waitCounter := s.waitCounter + 1
      fsm := if s.waitCounter == 2 then .SEND else .INVERT_COMPUTE }
  | .SEND =>
    if i.dmaReady then
      { clock cfg s with
        cmdCounter := s.cmdCounter + 1
        memAddr := cfg.advance s.memAddr
        fsm := .COMPUTE_MEM_ADDR }
    else clock cfg s

/-! ## The transfers -/

/-- The `n`-th transfer that the settings describe. -/
def writeAt (aw n : Nat) : BitVec aw × BitVec w :=
  (cfg.address aw n, cfg.dataAt (cfg.address aw n) (cfg.dataMem (cfg.index n)))

/-- The first `n` transfers. -/
def writes (aw n : Nat) : List (BitVec aw × BitVec w) := (List.range n).map (writeAt cfg aw)

theorem writes_succ (n : Nat) : writes cfg aw (n + 1) = writes cfg aw n ++ [writeAt cfg aw n] := by
  rw [writes, List.range_succ, List.map_append]
  rfl

/-- The `n`-th transfer is due, `a` is its DMA address and `d` its pattern word. -/
structure Loaded (n : Nat) (m : BitVec k) (a : BitVec aw) (d : BitVec w) : Prop extends cfg.Due n m where
  dramAddr : a = cfg.address aw n
  dataDatR : d = cfg.dataMem (cfg.index n)

/-- What holds in each state of the FSM after `n` transfers. -/
def Phase (n : Nat) : Prop :=
  match s.fsm with
  | .READY => n = cfg.count.toNat
  | .COMPUTE_MEM_ADDR => n ≤ cfg.count.toNat ∧ (cfg.modulo = true → s.memAddr = cfg.index n)
  | .WAIT_FOR_DRAM_ADDR => cfg.Due n s.memAddr
  | .COMPUTE_DRAM_ADDR => cfg.Due n s.memAddr ∧ s.addrDatR = cfg.addrMem (cfg.index n)
  | .INVERT_COMPUTE => Loaded cfg n s.memAddr s.dramAddr s.dataDatR ∧
    (s.waitCounter = 0 ∨ s.waitCounter = 1 ∧ s.inverter.Decoded cfg s.dramAddr ∨
      s.waitCounter = 2 ∧ s.inverter.Decoded cfg s.dramAddr ∧ s.inverter.Selected cfg s.dramAddr)
  | .SEND => Loaded cfg n s.memAddr s.dramAddr s.dataDatR ∧
    s.inverter.Decoded cfg s.dramAddr ∧ s.inverter.Selected cfg s.dramAddr ∧
    s.inverter.dataOut = cfg.dataAt s.dramAddr s.dataDatR

variable {cfg s} in
theorem Phase.le_count {n : Nat} (h : Phase cfg s n) : n ≤ cfg.count.toNat := by
  unfold Phase at h
  split at h
  · exact Nat.le_of_eq h
  · exact h.1
  · exact Nat.le_of_lt h.lt
  · exact Nat.le_of_lt h.1.lt
  · exact Nat.le_of_lt h.1.lt
  · exact Nat.le_of_lt h.1.lt

/-- The invariant of a transfer: `W` are the writes accepted since its start pulse. -/
structure Inv (W : List (BitVec aw × BitVec w)) : Prop where
  writes : W = Writer.writes cfg aw s.cmdCounter.toNat
  phase : Phase cfg s s.cmdCounter.toNat

section Step
variable {cfg s}

theorem start_inv (h : s.fsm = .READY) (hi : i.start = true) : Inv cfg (step cfg s i) [] := by
  have hstep : step cfg s i = { clock cfg s with cmdCounter := 0, memAddr := 0, fsm := .COMPUTE_MEM_ADDR } := by
    rw [step, h]
    exact if_pos hi
  rw [hstep]
  refine ⟨rfl, Nat.zero_le _, fun hm => ?_⟩
  exact (cfg.index_zero hm).symm

/-- The read port shows the same word again. -/
theorem Loaded.reload {n : Nat} {m : BitVec k} {a : BitVec aw} {d : BitVec w} (h : Loaded cfg n m a d) :
    cfg.dataMem m = d := by
  rw [h.memAddr, h.dataDatR]

theorem computeMemAddr_phase (h : s.fsm = .COMPUTE_MEM_ADDR) (hp : Phase cfg s s.cmdCounter.toNat) :
    Phase cfg (step cfg s i) (step cfg s i).cmdCounter.toNat := by
  rw [Phase, h] at hp
  obtain ⟨hle, hm⟩ := hp
  have hstep : step cfg s i = { clock cfg s with
      memAddr := cfg.computeMemAddr s.cmdCounter s.memAddr
      fsm := if s.cmdCounter ≥ cfg.count then .READY else .WAIT_FOR_DRAM_ADDR } := by
    rw [step, h]
  rw [hstep]
  by_cases hge : s.cmdCounter ≥ cfg.count
  · rw [if_pos hge]
    exact Nat.le_antisymm hle hge
  · rw [if_neg hge]
    exact ⟨Nat.lt_of_not_le hge, cfg.computeMemAddr_eq hm⟩

theorem waitForDramAddr_phase (h : s.fsm = .WAIT_FOR_DRAM_ADDR) (hp : Phase cfg s s.cmdCounter.toNat) :
    Phase cfg (step cfg s i) (step cfg s i).cmdCounter.toNat := by
  rw [Phase, h] at hp
  have hstep : step cfg s i = { clock cfg s with fsm := .COMPUTE_DRAM_ADDR } := by
    rw [step, h]
  rw [hstep]
  exact ⟨hp, congrArg cfg.addrMem hp.memAddr⟩

theorem computeDramAddr_phase (h : s.fsm = .COMPUTE_DRAM_ADDR) (hp : Phase cfg s s.cmdCounter.toNat) :
    Phase cfg (step cfg s i) (step cfg s i).cmdCounter.toNat := by
  rw [Phase, h] at hp
  obtain ⟨hd, ha⟩ := hp
  have hstep : step cfg s i = { clock cfg s with
      waitCounter := 0
      dramAddr := cfg.computeDramAddr aw s.addrDatR s.cmdCounter
      fsm := .INVERT_COMPUTE } := by
    rw [step, h]
  rw [hstep]
  refine ⟨⟨hd, ?_, congrArg cfg.dataMem hd.memAddr⟩, Or.inl rfl⟩
  rw [ha]
  exact cfg.computeDramAddr_eq s.cmdCounter

theorem invertCompute_phase (h : s.fsm = .INVERT_COMPUTE) (hp : Phase cfg s s.cmdCounter.toNat) :
    Phase cfg (step cfg s i) (step cfg s i).cmdCounter.toNat := by
  rw [Phase, h] at hp
  obtain ⟨hl, hw⟩ := hp
  have hd : (s.inverter.step cfg s.dramAddr s.dataDatR).Decoded cfg s.dramAddr := RowDataInverter.step_decoded ..
  have hl' : Loaded cfg s.cmdCounter.toNat s.memAddr s.dramAddr (cfg.dataMem s.memAddr) := by
    rw [hl.reload]
    exact hl
  have hstep : step cfg s i = { clock cfg s with
      waitCounter := s.waitCounter + 1
      fsm := if s.waitCounter == 2 then .SEND else .INVERT_COMPUTE } := by
    rw [step, h]
  rw [hstep]
  -- the wait counts the three stages of the inverter
  obtain hw | ⟨hw, hdec⟩ | ⟨hw, hdec, hsel⟩ := hw
  · rw [hw]
    exact ⟨hl', Or.inr (Or.inl ⟨rfl, hd⟩)⟩
  · rw [hw]
    exact ⟨hl', Or.inr (Or.inr ⟨rfl, hd, RowDataInverter.step_selected cfg s.inverter hdec ..⟩)⟩
  · rw [hw]
    refine ⟨hl', hd, RowDataInverter.step_selected cfg s.inverter hdec .., ?_⟩
    refine (RowDataInverter.step_dataOut cfg s.inverter hsel ..).trans ?_
    exact congrArg (cfg.dataAt s.dramAddr) hl.reload.symm

theorem send_inv {W : List (BitVec aw × BitVec w)} (h : s.fsm = .SEND) (hinv : Inv cfg s W) :
    Inv cfg (step cfg s i) (W ++ (write s i).toList) := by
  obtain ⟨hW, hp⟩ := hinv
  rw [Phase, h] at hp
  obtain ⟨hl, hdec, hsel, hout⟩ := hp
  cases hr : i.dmaReady with
  | false =>
    have hstep : step cfg s i = clock cfg s := by
      simp only [step, h, hr, Bool.false_eq_true, if_false]
    have hwrite : write s i = none := by
      rw [write, hr, Bool.and_false, if_neg Bool.false_ne_true]
    rw [hstep, hwrite, Option.toList_none, List.append_nil]
    refine ⟨hW, ?_⟩
    rw [Phase, show (clock cfg s).fsm = .SEND from h]
    refine ⟨?_, RowDataInverter.step_decoded .., RowDataInverter.step_selected cfg s.inverter hdec .., ?_⟩
    · show Loaded cfg s.cmdCounter.toNat s.memAddr s.dramAddr (cfg.dataMem s.memAddr)
      rw [hl.reload]
      exact hl
    · refine (RowDataInverter.step_dataOut cfg s.inverter hsel ..).trans ?_
      exact congrArg (cfg.dataAt s.dramAddr) hl.reload.symm
  | true =>
    have hstep : step cfg s i = { clock cfg s with
        cmdCounter := s.cmdCounter + 1
        memAddr := cfg.advance s.memAddr
        fsm := .COMPUTE_MEM_ADDR } := by
      simp only [step, h, hr, if_true]
    have hwrite : write s i = some (writeAt cfg aw s.cmdCounter.toNat) := by
      rw [write, h, hr, writeAt, hout, hl.dramAddr, hl.dataDatR]
      rfl
    have hsucc := toNat_succ_of_lt hl.lt
    rw [hstep, hwrite, Option.toList_some]
    constructor
    · show W ++ [_] = writes cfg aw (s.cmdCounter + 1).toNat
      rw [hsucc, writes_succ, hW]
    · show (s.cmdCounter + 1).toNat ≤ cfg.count.toNat ∧
        (cfg.modulo = true → cfg.advance s.memAddr = cfg.index (s.cmdCounter + 1).toNat)
      rw [hsucc]
      refine ⟨hl.lt, fun hm => ?_⟩
      rw [hl.memAddr]
      exact cfg.advance_index hm _

/-- An edge of a transfer. -/
theorem step_inv {W : List (BitVec aw × BitVec w)} (h : s.fsm ≠ .READY) (hinv : Inv cfg s W) :
    Inv cfg (step cfg s i) (W ++ (write s i).toList) := by
  -- outside of SEND nothing is written and the counter stays
  have hquiet : s.fsm ≠ .SEND → (step cfg s i).cmdCounter = s.cmdCounter →
      Phase cfg (step cfg s i) (step cfg s i).cmdCounter.toNat → Inv cfg (step cfg s i) (W ++ (write s i).toList) := by
    intro hne hc hp
    have hwrite : write s i = none := by
      rw [write, if_neg]
      rw [Bool.and_eq_true, beq_iff_eq]
      exact fun hs => hne hs.1
    rw [hwrite, Option.toList_none, List.append_nil]
    exact ⟨by rw [hc, hinv.writes], hp⟩
  cases hf : s.fsm with
  | READY => exact absurd hf h
  | COMPUTE_MEM_ADDR =>
    exact hquiet (by rw [hf]; nofun) (by rw [step, hf]; rfl) (computeMemAddr_phase i hf hinv.phase)
  | WAIT_FOR_DRAM_ADDR =>
    exact hquiet (by rw [hf]; nofun) (by rw [step, hf]; rfl) (waitForDramAddr_phase i hf hinv.phase)
  | COMPUTE_DRAM_ADDR =>
    exact hquiet (by rw [hf]; nofun) (by rw [step, hf]; rfl) (computeDramAddr_phase i hf hinv.phase)
  | INVERT_COMPUTE =>
    exact hquiet (by rw [hf]; nofun) (by rw [step, hf]; rfl) (invertCompute_phase i hf hinv.phase)
  | SEND => exact send_inv i hf hinv

theorem write_of_ready (h : s.fsm = .READY) : write s i = none := by
  rw [write, h]
  rfl

theorem step_of_ready (h : s.fsm = .READY) (hi : i.start = false) : step cfg s i = clock cfg s := by
  simp only [step, h, hi, Bool.false_eq_true, if_false]

/-- An edge without a start pulse, of a transfer or after it. -/
theorem quiet_inv {W : List (BitVec aw × BitVec w)} (hi : i.start = false) (hinv : Inv cfg s W) :
    Inv cfg (step cfg s i) (W ++ (write s i).toList) := by
  by_cases h : s.fsm = .READY
  · rw [step_of_ready i h hi, write_of_ready i h, Option.toList_none, List.append_nil]
    refine ⟨hinv.writes, ?_⟩
    have hp := hinv.phase
    rw [Phase, h] at hp
    rw [Phase, show (clock cfg s).fsm = .READY from h]
    exact hp
  · exact step_inv i h hinv

end Step

/-! ## A transfer -/

section Run
variable (inp : Nat → Input)

/-- The Writer is busy at every time after the start pulse and before `T`. -/
def BusyUntil (T : Nat) : Prop := ∀ t, 1 ≤ t → t < T → ready (run (step cfg) s inp t) = false

variable {cfg s inp}

theorem run_inv (h : s.fsm = .READY) (hstart : (inp 0).start = true) {T : Nat} (hbusy : BusyUntil cfg s inp (T + 1)) :
    Inv cfg (run (step cfg) s inp (T + 1)) (events (step cfg) s inp write (T + 1)) := by
  induction T with
  | zero =>
    rw [events_succ, run_zero, write_of_ready (inp 0) h]
    exact start_inv (inp 0) h hstart
  | succ T ih =>
    rw [events_succ, run_succ]
    apply step_inv
    · intro hf
      have := hbusy (T + 1) (by omega) (by omega)
      rw [ready, hf] at this
      cases this
    · exact ih fun t h1 ht => hbusy t h1 (by omega)

end Run

/-! ## Progress -/

/-- A bound on the edges until the Writer is ready, the stalls aside: eight for each transfer, and a countdown. -/
def rank : Nat :=
  8 * (cfg.count.toNat - s.cmdCounter.toNat) +
    match s.fsm with
    | .READY => 0
    | .COMPUTE_MEM_ADDR => 7
    | .WAIT_FOR_DRAM_ADDR => 6
    | .COMPUTE_DRAM_ADDR => 5
    | .INVERT_COMPUTE => 4 - s.waitCounter.toNat
    | .SEND => 1

section Progress
variable {cfg s} {inp : Nat → Input}

/-- Every edge of a transfer lowers the rank, but for those that wait for the DMA. -/
theorem rank_step (h : s.fsm ≠ .READY) (hp : Phase cfg s s.cmdCounter.toNat) :
    rank cfg (step cfg s i) < rank cfg s ∨ i.dmaReady = false ∧ rank cfg (step cfg s i) = rank cfg s := by
  unfold Phase at hp
  cases hf : s.fsm with
  | READY => exact absurd hf h
  | COMPUTE_MEM_ADDR =>
    left
    simp only [rank, step, hf, clock]
    by_cases hge : s.cmdCounter ≥ cfg.count
    · rw [if_pos hge]
      exact Nat.add_lt_add_left (show 0 < 7 by decide) _
    · rw [if_neg hge]
      exact Nat.add_lt_add_left (show 6 < 7 by decide) _
  | WAIT_FOR_DRAM_ADDR =>
    left
    simp only [rank, step, hf, clock]
    exact Nat.add_lt_add_left (by decide) _
  | COMPUTE_DRAM_ADDR =>
    left
    simp only [rank, step, hf, clock]
    exact Nat.add_lt_add_left (by decide) _
  | INVERT_COMPUTE =>
    left
    rw [hf] at hp
    simp only [rank, step, hf, clock]
    apply Nat.add_lt_add_left
    obtain hw | ⟨hw, -⟩ | ⟨hw, -⟩ := hp.2 <;> rw [hw] <;> decide
  | SEND =>
    cases hr : i.dmaReady with
    | false =>
      right
      simp only [rank, step, hf, hr, clock, Bool.false_eq_true, if_false, true_and]
    | true =>
      left
      rw [hf] at hp
      have hlt := hp.1.lt
      simp only [rank, step, hf, hr, if_true, toNat_succ_of_lt hlt]
      omega

/-- If the DMA accepts a write again and again, the transfer comes to its end. -/
theorem exists_ready (h : s.fsm = .READY) (hstart : (inp 0).start = true)
    (hfair : ∀ t, ∃ u, t ≤ u ∧ (inp u).dmaReady = true) :
    ∃ T, 1 ≤ T ∧ BusyUntil cfg s inp T ∧ ready (run (step cfg) s inp T) = true := by
  have hex : ∃ T, 1 ≤ T ∧ ready (run (step cfg) s inp T) = true := by
    apply Classical.byContradiction
    intro hno
    have hbusy : ∀ t, 1 ≤ t → ready (run (step cfg) s inp t) = false := by
      intro t ht
      rw [← Bool.not_eq_true]
      exact fun hready => hno ⟨t, ht, hready⟩
    have hfall : ∀ t, rank cfg (run (step cfg) s inp (t + 1 + 1)) < rank cfg (run (step cfg) s inp (t + 1)) ∨
        (inp (t + 1)).dmaReady = false ∧
          rank cfg (run (step cfg) s inp (t + 1 + 1)) = rank cfg (run (step cfg) s inp (t + 1)) := by
      intro t
      apply rank_step
      · intro hf
        have := hbusy (t + 1) (by omega)
        rw [ready, hf] at this
        cases this
      · exact (run_inv h hstart fun u hu _ => hbusy u hu).phase
    obtain ⟨t, ht⟩ := @exists_constant (fun t => rank cfg (run (step cfg) s inp (t + 1))) fun t => by
      have := hfall t
      omega
    obtain ⟨u, hu, hdma⟩ := hfair (t + 1)
    obtain ⟨d, rfl⟩ := Nat.exists_eq_add_of_le' (show 1 ≤ u by omega)
    obtain hlt | ⟨hf, -⟩ := hfall d
    · have h1 := ht d (by omega)
      have h2 := ht (d + 1) (by omega)
      omega
    · rw [hdma] at hf
      cases hf
  refine ⟨Nat.find hex, (Nat.find_spec hex).1, fun t h1 ht => ?_, (Nat.find_spec hex).2⟩
  rw [← Bool.not_eq_true]
  exact fun hready => Nat.find_min hex ht ⟨h1, hready⟩

/-- When the Writer is ready again, all is written. -/
theorem run_complete (h : s.fsm = .READY) (hstart : (inp 0).start = true) {T : Nat} (hT : 1 ≤ T)
    (hbusy : BusyUntil cfg s inp T) (hend : ready (run (step cfg) s inp T) = true) :
    events (step cfg) s inp write T = writes cfg aw cfg.count.toNat ∧ done (run (step cfg) s inp T) = cfg.count := by
  obtain ⟨T, rfl⟩ := Nat.exists_eq_add_of_le' hT
  have hinv := run_inv h hstart hbusy
  have hp := hinv.phase
  rw [Phase, show (run (step cfg) s inp (T + 1)).fsm = .READY from beq_iff_eq.mp hend] at hp
  refine ⟨?_, BitVec.eq_of_toNat_eq hp⟩
  rw [hinv.writes]
  exact congrArg (writes cfg aw) hp

/-- **A transfer of the Writer.** A start pulse in READY writes the transfers of the settings in order. Until the Writer
is ready again the writes are the first of them; when it is, they are all of them and `done` is the count; and it is
ready again if no stall of the DMA lasts forever. -/
theorem transfer (cfg : Settings w k rb) (s : State aw w k rb) (inp : Nat → Input) (hready : ready s = true)
    (hstart : (inp 0).start = true) :
    (∀ T, 1 ≤ T → BusyUntil cfg s inp T →
      events (step cfg) s inp write T <+: writes cfg aw cfg.count.toNat ∧
      (ready (run (step cfg) s inp T) = true →
        events (step cfg) s inp write T = writes cfg aw cfg.count.toNat ∧
          done (run (step cfg) s inp T) = cfg.count)) ∧
    ((∀ t, ∃ u, t ≤ u ∧ (inp u).dmaReady = true) →
      ∃ T, 1 ≤ T ∧ BusyUntil cfg s inp T ∧ ready (run (step cfg) s inp T) = true) := by
  have hf : s.fsm = .READY := beq_iff_eq.mp hready
  refine ⟨fun T hT hbusy => ⟨?_, run_complete hf hstart hT hbusy⟩, exists_ready hf hstart⟩
  obtain ⟨T, rfl⟩ := Nat.exists_eq_add_of_le' hT
  have hinv := run_inv hf hstart hbusy
  rw [hinv.writes]
  exact prefix_map_range _ hinv.phase.le_count

/-- The DMA accepts a write in every other cycle, and a second pulse arrives while the Writer is busy. -/
def stalled (t : Nat) : Input := ⟨t == 0 || t == 5, t % 2 == 0⟩

theorem transfer_twoWords :
    (events (step (Settings.twoWords true)) (reset : State 4 8 1 1) stalled write 18 = [(2, 0x0f), (5, 0xaa)] ∧
      done (run (step (Settings.twoWords true)) (reset : State 4 8 1 1) stalled 18) = 2) ∧
    ∃ T, 1 ≤ T ∧ BusyUntil (Settings.twoWords true) (reset : State 4 8 1 1) stalled T ∧
      ready (run (step (Settings.twoWords true)) (reset : State 4 8 1 1) stalled T) = true := by
  have hbusy : ∀ t < 18, 1 ≤ t → ready (run (step (Settings.twoWords true)) (reset : State 4 8 1 1) stalled t) =
    false := by
    decide +kernel
  obtain ⟨hsafe, hlive⟩ := transfer (Settings.twoWords true) (reset : State 4 8 1 1) stalled rfl rfl
  refine ⟨(hsafe 18 (by decide) fun t h1 ht => hbusy t ht h1).2 (by decide +kernel),
    hlive fun t => ⟨2 * t, by omega, ?_⟩⟩
  simp [stalled]

end Progress

end Writer

end RowhammerTester.Gateware.Bist
