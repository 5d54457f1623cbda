import RowhammerTester.Gateware.Bist.Reader

/-!
# What the BIST `Reader` keeps during a transfer

`n` commands are issued and `m` words compared.

* `AddrPhase`, `PatternPhase` : what holds in every state of the two FSMs (`addrStep_phase`, `patternStep_phase`);
* `AddrRests`, `PatternRests` : when they wait for each other or for the environment;
* `Inv` : the address FIFO and the DMA hold the addresses from the `m`-th on (`step_inv`, `run_inv`);
* `held`, `step_held` : with `skip_fifo` at 0 no error record is lost (`run_held`).
-/

namespace RowhammerTester.Gateware.Bist
open RowhammerTester.Hdl

namespace Reader

variable {aw w k rb : Nat} (cfg : Settings w k rb)

/-! ## The address FSM -/

/-- What holds in each state of the address FSM after `n` commands. -/
def AddrPhase (a : Addr aw k) (n : Nat) : Prop :=
  match a.fsm with
  | .READY => n = cfg.count.toNat
  | .COMPUTE_MEM_ADDR => n ≤ cfg.count.toNat ∧ (cfg.modulo = true → a.memAddr = cfg.index n)
  | .WAIT_FOR_DRAM_ADDR => cfg.Due n a.memAddr
  | .COMPUTE_DRAM_ADDR => cfg.Due n a.memAddr ∧ a.datR = cfg.addrMem (cfg.index n)
  | .PUSH_TO_FIFO => cfg.Due n a.memAddr ∧ a.dramAddr = cfg.address aw n
  | .PUSH_TO_DMA => cfg.Due n a.memAddr ∧ a.dramAddr = cfg.address aw n

/-- The number of read commands accepted by the DMA. -/
def Addr.issued (a : Addr aw k) : Nat := a.counterAddr.toNat

/-- The number of addresses pushed to the FIFO. -/
def Addr.pushed (a : Addr aw k) : Nat := if a.fsm == .PUSH_TO_DMA then a.issued + 1 else a.issued

/-- The address FSM waits. -/
def AddrRests (a : Addr aw k) (fifoReady dmaReady : Bool) : Prop :=
  match a.fsm with
  | .READY => True
  | .PUSH_TO_FIFO => fifoReady = false
  | .PUSH_TO_DMA => dmaReady = false
  | _ => False

section Addr
variable {cfg} {a : Addr aw k} (fifoReady dmaReady : Bool)

theorem AddrPhase.le_count {n : Nat} (h : AddrPhase cfg a n) : n ≤ cfg.count.toNat := by
  unfold AddrPhase at h
  split at h
  · exact Nat.le_of_eq h
  · exact h.1
  · exact Nat.le_of_lt h.lt
  · exact Nat.le_of_lt h.1.lt
  · exact Nat.le_of_lt h.1.lt
  · exact Nat.le_of_lt h.1.lt

theorem addrStep_of_rests {fifoReady dmaReady : Bool} (h : AddrRests a fifoReady dmaReady) :
    addrStep cfg a false fifoReady dmaReady = a.clock cfg := by
  unfold AddrRests at h
  cases hf : a.fsm with
  | READY => simp only [addrStep, hf, Bool.false_eq_true, if_false]
  | PUSH_TO_FIFO =>
    rw [hf] at h
    simp only [addrStep, hf, show fifoReady = false from h, Bool.false_eq_true, if_false]
  | PUSH_TO_DMA =>
    rw [hf] at h
    simp only [addrStep, hf, show dmaReady = false from h, Bool.false_eq_true, if_false]
  | _ =>
    rw [hf] at h
    exact h.elim

theorem addrStep_issued (h : AddrPhase cfg a a.issued) :
    (addrStep cfg a false fifoReady dmaReady).issued =
      if a.fsm == .PUSH_TO_DMA && dmaReady then a.issued + 1 else a.issued := by
  cases hf : a.fsm with
  | PUSH_TO_DMA =>
    rw [AddrPhase, hf] at h
    have hsucc := toNat_succ_of_lt (c := a.counterAddr) h.1.lt
    cases dmaReady with
    | false => simp [addrStep, hf, Addr.issued, Addr.clock]
    | true => simpa [addrStep, hf, Addr.issued] using hsucc
  | PUSH_TO_FIFO => cases fifoReady <;> simp [addrStep, hf, Addr.issued, Addr.clock]
  | _ => simp [addrStep, hf, Addr.issued, Addr.clock]

theorem addrStep_pushed (h : AddrPhase cfg a a.issued) :
    (addrStep cfg a false fifoReady dmaReady).pushed =
      if fifoReady && a.fsm == .PUSH_TO_FIFO then a.pushed + 1 else a.pushed := by
  rw [Addr.pushed, addrStep_issued fifoReady dmaReady h]
  cases hf : a.fsm with
  | PUSH_TO_DMA => cases dmaReady <;> simp [addrStep, hf, Addr.pushed, Addr.clock]
  | PUSH_TO_FIFO => cases fifoReady <;> simp [addrStep, hf, Addr.pushed, Addr.clock]
  | COMPUTE_MEM_ADDR =>
    by_cases hge : a.counterAddr ≥ cfg.count
    · simp [addrStep, hf, Addr.pushed, Addr.clock, if_pos hge]
    · simp [addrStep, hf, Addr.pushed, Addr.clock, if_neg hge]
  | _ => simp [addrStep, hf, Addr.pushed, Addr.clock]

/-- An address FSM that waits keeps what it has. -/
theorem addrClock_phase {fifoReady dmaReady : Bool} (hrest : AddrRests a fifoReady dmaReady) {n : Nat}
    (h : AddrPhase cfg a n) : AddrPhase cfg (a.clock cfg) n := by
  unfold AddrRests at hrest
  unfold AddrPhase at h ⊢
  rw [show (a.clock cfg).fsm = a.fsm from rfl]
  cases hf : a.fsm with
  | COMPUTE_DRAM_ADDR =>
    rw [hf] at hrest
    exact hrest.elim
  | _ =>
    rw [hf] at h
    exact h

/-- An edge of the address FSM without a start pulse. -/
theorem addrStep_phase (h : AddrPhase cfg a a.issued) :
    AddrPhase cfg (addrStep cfg a false fifoReady dmaReady) (addrStep cfg a false fifoReady dmaReady).issued := by
  by_cases hrest : AddrRests a fifoReady dmaReady
  · rw [addrStep_of_rests hrest]
    exact addrClock_phase hrest h
  rw [addrStep_issued fifoReady dmaReady h]
  unfold AddrRests at hrest
  cases hf : a.fsm with
  | READY =>
    rw [hf] at hrest
    exact absurd trivial hrest
  | COMPUTE_MEM_ADDR =>
    rw [AddrPhase, hf] at h
    obtain ⟨hle, hm⟩ := h
    simp only [addrStep, hf]
    by_cases hge : a.counterAddr ≥ cfg.count
    · rw [if_pos hge]
      exact Nat.le_antisymm hle hge
    · rw [if_neg hge]
      exact ⟨Nat.lt_of_not_le hge, cfg.computeMemAddr_eq hm⟩
  | WAIT_FOR_DRAM_ADDR =>
    rw [AddrPhase, hf] at h
    simp only [addrStep, hf]
    exact ⟨h, congrArg cfg.addrMem h.memAddr⟩
  | COMPUTE_DRAM_ADDR =>
    rw [AddrPhase, hf] at h
    simp only [addrStep, hf]
    refine ⟨h.1, ?_⟩
    show cfg.computeDramAddr aw a.datR a.counterAddr = _
    rw [h.2]
    exact cfg.computeDramAddr_eq a.counterAddr
  | PUSH_TO_FIFO =>
    rw [AddrPhase, hf] at h
    rw [hf] at hrest
    have hready : fifoReady = true := by simpa using hrest
    simp only [addrStep, hf, hready]
    exact h
  | PUSH_TO_DMA =>
    rw [AddrPhase, hf] at h
    rw [hf] at hrest
    have hready : dmaReady = true := by simpa using hrest
    simp only [addrStep, hf, hready]
    refine ⟨h.1.lt, fun hm => ?_⟩
    show cfg.advance a.memAddr = _
    rw [h.1.memAddr]
    exact cfg.advance_index hm _

end Addr

/-! ## The pattern FSM -/

/-- The word that the `m`-th word read is compared with. -/
def expected (aw m : Nat) : BitVec w := cfg.dataAt (cfg.address aw m) (cfg.dataMem (cfg.readIndex m))

/-- The `m`-th comparison is due, and the read port shows its pattern word. -/
structure Fetched (p : Pattern w k rb) (m : Nat) : Prop where
  lt : m < cfg.count.toNat
  dataMemAddr : p.dataMemAddr = cfg.readIndex m
  datR : p.datR = cfg.dataMem (cfg.readIndex m)

/-- How far the expected word is in the inverter. -/
structure Inverting (aw : Nat) (p : Pattern w k rb) (m : Nat) : Prop extends Fetched cfg p m where
  decoded : p.inverter.Decoded cfg (cfg.address aw m)

/-- What holds in each state of the pattern FSM after `m` comparisons. -/
def PatternPhase (aw : Nat) (p : Pattern w k rb) (fifoValid : Bool) (m : Nat) : Prop :=
  match p.fsm with
  | .READY => m = cfg.count.toNat
  | .COMPUTE_MEM_ADDR => m ≤ cfg.count.toNat ∧ (cfg.modulo = true → p.dataMemAddr = 0)
  | .WAIT_FOR_DRAM_ADDR => m < cfg.count.toNat ∧ p.dataMemAddr = cfg.readIndex m
  | .INVERT_COMPUTE => fifoValid = true ∧ Inverting cfg aw p m ∧
    (p.waitCounter = 0 ∨ p.waitCounter = 1 ∧ p.inverter.Selected cfg (cfg.address aw m) ∨
      p.waitCounter = 2 ∧ p.inverter.Selected cfg (cfg.address aw m))
  | .RD_DATA => fifoValid = true ∧ Inverting cfg aw p m ∧ p.inverter.Selected cfg (cfg.address aw m) ∧
    p.inverter.dataOut = expected cfg aw m
  | .WR_ERR => m ≤ cfg.count.toNat ∧ (cfg.modulo = true → p.dataMemAddr = 0)

/-- The pattern FSM waits. -/
def PatternRests (p : Pattern w k rb) (x : PatternIn aw w) : Prop :=
  match p.fsm with
  | .READY => True
  | .WAIT_FOR_DRAM_ADDR => x.fifoValid = false
  | .RD_DATA => x.sourceValid = false
  | .WR_ERR => x.errorReady = false ∧ x.skipFifo = false
  | _ => False

/-- The number of words compared. -/
def Pattern.compared (p : Pattern w k rb) : Nat := p.counterGen.toNat

section Pattern
variable {cfg} {p : Pattern w k rb} {x : PatternIn aw w}

theorem PatternPhase.le_count {v : Bool} {m : Nat} (h : PatternPhase cfg aw p v m) : m ≤ cfg.count.toNat := by
  unfold PatternPhase at h
  split at h
  · exact Nat.le_of_eq h
  · exact h.1
  · exact Nat.le_of_lt h.1
  · exact Nat.le_of_lt h.2.1.lt
  · exact Nat.le_of_lt h.2.1.lt
  · exact h.1

theorem readIndex_modulo (h : cfg.modulo = true) (m : Nat) : cfg.readIndex m = 0 := by
  rw [Settings.readIndex, if_pos h]

theorem Fetched.clock {m : Nat} (h : Fetched cfg p m) : Fetched cfg (p.clock cfg x) m where
  lt := h.lt
  dataMemAddr := h.dataMemAddr
  datR := congrArg cfg.dataMem h.dataMemAddr

/-- The inverter keeps the row of the address at the head of the FIFO. -/
theorem Inverting.clock {m : Nat} (h : Inverting cfg aw p m) (ha : x.address = cfg.address aw m) :
    Inverting cfg aw (p.clock cfg x) m where
  toFetched := h.toFetched.clock
  decoded := by
    rw [← ha]
    exact RowDataInverter.step_decoded ..

theorem Inverting.clock_selected {m : Nat} (h : Inverting cfg aw p m) :
    (p.clock cfg x).inverter.Selected cfg (cfg.address aw m) :=
  RowDataInverter.step_selected cfg p.inverter h.decoded ..

theorem Inverting.clock_dataOut {m : Nat} (h : Inverting cfg aw p m)
    (hs : p.inverter.Selected cfg (cfg.address aw m)) : (p.clock cfg x).inverter.dataOut = expected cfg aw m := by
  rw [expected, ← h.datR]
  exact RowDataInverter.step_dataOut cfg p.inverter hs ..

theorem takes_of_ne (h : p.fsm ≠ .RD_DATA) : p.takes x = false := by
  rw [Pattern.takes, beq_eq_false_iff_ne.mpr h, Bool.false_and]

theorem patternStep_of_rests (hx : x.start = false) (h : PatternRests p x) : patternStep cfg p x = p.clock cfg x := by
  unfold PatternRests at h
  cases hf : p.fsm with
  | READY => simp only [patternStep, hf, hx, Bool.false_eq_true, if_false]
  | WAIT_FOR_DRAM_ADDR =>
    rw [hf] at h
    simp only [patternStep, hf, show x.fifoValid = false from h, Bool.false_eq_true, if_false]
  | RD_DATA =>
    rw [hf] at h
    simp only [patternStep, hf, show x.sourceValid = false from h, Bool.false_eq_true, if_false]
  | WR_ERR =>
    rw [hf] at h
    simp only [patternStep, hf, h.1, h.2, Bool.or_self, Bool.false_eq_true, if_false]
  | _ =>
    rw [hf] at h
    exact h.elim

theorem patternStep_compared (hx : x.start = false) (h : PatternPhase cfg aw p x.fifoValid p.compared) :
    (patternStep cfg p x).compared = if p.takes x then p.compared + 1 else p.compared := by
  cases hf : p.fsm with
  | READY => simp [patternStep, hf, hx, Pattern.compared, Pattern.takes, Pattern.clock]
  | COMPUTE_MEM_ADDR => simp [patternStep, hf, Pattern.compared, Pattern.takes, Pattern.clock]
  | WAIT_FOR_DRAM_ADDR =>
    cases hv : x.fifoValid <;> simp [patternStep, hf, hv, Pattern.compared, Pattern.takes, Pattern.clock]
  | INVERT_COMPUTE => simp [patternStep, hf, Pattern.compared, Pattern.takes, Pattern.clock]
  | WR_ERR =>
    cases hr : x.errorReady || x.skipFifo <;>
      simp [patternStep, hf, hr, Pattern.compared, Pattern.takes, Pattern.clock]
  | RD_DATA =>
    rw [PatternPhase, hf] at h
    have hsucc := toNat_succ_of_lt (c := p.counterGen) h.2.1.lt
    cases hv : x.sourceValid with
    | false => simp [patternStep, hf, hv, Pattern.compared, Pattern.takes, Pattern.clock]
    | true =>
      cases hd : x.data != p.inverter.dataOut <;>
        simpa [patternStep, hf, hv, hd, Pattern.compared, Pattern.takes] using hsucc

theorem patternStep_errorCount (hx : x.start = false) :
    (patternStep cfg p x).errorCount =
      if p.takes x && x.data != p.inverter.dataOut then p.errorCount + 1 else p.errorCount := by
  cases hf : p.fsm with
  | READY => simp [patternStep, hf, hx, Pattern.takes, Pattern.clock]
  | COMPUTE_MEM_ADDR => simp [patternStep, hf, Pattern.takes, Pattern.clock]
  | WAIT_FOR_DRAM_ADDR => cases hv : x.fifoValid <;> simp [patternStep, hf, hv, Pattern.takes, Pattern.clock]
  | INVERT_COMPUTE => simp [patternStep, hf, Pattern.takes, Pattern.clock]
  | WR_ERR => cases hr : x.errorReady || x.skipFifo <;> simp [patternStep, hf, hr, Pattern.takes, Pattern.clock]
  | RD_DATA =>
    cases hv : x.sourceValid with
    | false => simp [patternStep, hf, hv, Pattern.takes, Pattern.clock]
    | true => cases hd : x.data != p.inverter.dataOut <;> simp [patternStep, hf, hv, hd, Pattern.takes, Pattern.clock]

/-- With `skip_fifo` at 0 the record of an error is kept until the error FIFO takes it. -/
theorem patternStep_sink (hx : x.start = false) (hskip : x.skipFifo = false) :
    (if x.errorReady && p.fsm == .WR_ERR then [p.sink] else []) ++
        (if (patternStep cfg p x).fsm == .WR_ERR then [(patternStep cfg p x).sink] else []) =
      (if p.fsm == .WR_ERR then [p.sink] else []) ++
        (if p.takes x && x.data != p.inverter.dataOut
          then [⟨x.address.setWidth 32, x.data, p.inverter.dataOut⟩] else []) := by
  cases hf : p.fsm with
  | READY => simp [patternStep, hf, hx, Pattern.takes, Pattern.clock]
  | COMPUTE_MEM_ADDR =>
    by_cases hge : p.counterGen ≥ cfg.count
    · simp [patternStep, hf, Pattern.takes, if_pos hge]
    · simp [patternStep, hf, Pattern.takes, if_neg hge]
  | WAIT_FOR_DRAM_ADDR => cases hv : x.fifoValid <;> simp [patternStep, hf, hv, Pattern.takes, Pattern.clock]
  | INVERT_COMPUTE =>
    by_cases hw : p.waitCounter = 2#2
    · simp [patternStep, hf, hw, Pattern.takes]
    · simp [patternStep, hf, hw, Pattern.takes]
  | WR_ERR => cases hr : x.errorReady <;> simp [patternStep, hf, hr, hskip, Pattern.takes, Pattern.clock]
  | RD_DATA =>
    cases hv : x.sourceValid with
    | false => simp [patternStep, hf, hv, Pattern.takes, Pattern.clock]
    | true => cases hd : x.data != p.inverter.dataOut <;> simp [patternStep, hf, hv, hd, hskip, Pattern.takes]

theorem PatternRests.takes_eq_false (h : PatternRests p x) : p.takes x = false := by
  unfold PatternRests at h
  cases hf : p.fsm with
  | RD_DATA =>
    rw [hf] at h
    rw [Pattern.takes, show x.sourceValid = false from h, Bool.and_false]
  | _ => exact takes_of_ne (by rw [hf]; nofun)

section Phase
variable {v : Bool} {m : Nat}

/-- A pattern FSM that waits keeps what it has. -/
theorem clock_phase (hrest : PatternRests p x) (h : PatternPhase cfg aw p x.fifoValid m)
    (ha : x.fifoValid = true → x.address = cfg.address aw m) (hv : x.fifoValid = true → v = true) :
    PatternPhase cfg aw (p.clock cfg x) v m := by
  unfold PatternRests at hrest
  unfold PatternPhase at h ⊢
  rw [show (p.clock cfg x).fsm = p.fsm from rfl]
  cases hf : p.fsm with
  | RD_DATA =>
    rw [hf] at h
    obtain ⟨hvalid, hi, hsel, -⟩ := h
    exact ⟨hv hvalid, hi.clock (ha hvalid), hi.clock_selected, hi.clock_dataOut hsel⟩
  | INVERT_COMPUTE =>
    rw [hf] at hrest
    exact hrest.elim
  | _ =>
    rw [hf] at h
    exact h

theorem computeMemAddr_phase (hf : p.fsm = .COMPUTE_MEM_ADDR) (h : PatternPhase cfg aw p x.fifoValid p.compared) :
    PatternPhase cfg aw (patternStep cfg p x) v p.compared := by
  rw [PatternPhase, hf] at h
  obtain ⟨hle, hm⟩ := h
  simp only [patternStep, hf]
  by_cases hge : p.counterGen ≥ cfg.count
  · rw [if_pos hge]
    exact Nat.le_antisymm hle hge
  · rw [if_neg hge]
    exact ⟨Nat.lt_of_not_le hge, cfg.computeMemAddr_eq_readIndex hm⟩

theorem waitForDramAddr_phase (hf : p.fsm = .WAIT_FOR_DRAM_ADDR) (hvalid : x.fifoValid = true)
    (h : PatternPhase cfg aw p x.fifoValid m) (ha : x.address = cfg.address aw m) (hv : v = true) :
    PatternPhase cfg aw (patternStep cfg p x) v m := by
  rw [PatternPhase, hf] at h
  have hdec : (p.clock cfg x).inverter.Decoded cfg (cfg.address aw m) := by
    rw [← ha]
    exact RowDataInverter.step_decoded ..
  simp only [patternStep, hf, hvalid, if_true]
  exact ⟨hv, ⟨⟨h.1, h.2, congrArg cfg.dataMem h.2⟩, hdec⟩, Or.inl rfl⟩

theorem invertCompute_phase (hf : p.fsm = .INVERT_COMPUTE) (h : PatternPhase cfg aw p x.fifoValid m)
    (ha : x.fifoValid = true → x.address = cfg.address aw m) (hv : x.fifoValid = true → v = true) :
    PatternPhase cfg aw (patternStep cfg p x) v m := by
  rw [PatternPhase, hf] at h
  obtain ⟨hvalid, hi, hw⟩ := h
  have hi' := hi.clock (ha hvalid)
  have hs' : (p.clock cfg x).inverter.Selected cfg (cfg.address aw m) := hi.clock_selected
  simp only [patternStep, hf]
  -- the wait counts the stages of the inverter
  obtain hw | ⟨hw, -⟩ | ⟨hw, hsel⟩ := hw
  · rw [hw]
    exact ⟨hv hvalid, ⟨⟨hi'.lt, hi'.dataMemAddr, hi'.datR⟩, hi'.decoded⟩, Or.inr (Or.inl ⟨rfl, hs'⟩)⟩
  · rw [hw]
    exact ⟨hv hvalid, ⟨⟨hi'.lt, hi'.dataMemAddr, hi'.datR⟩, hi'.decoded⟩, Or.inr (Or.inr ⟨rfl, hs'⟩)⟩
  · rw [hw]
    exact ⟨hv hvalid, ⟨⟨hi'.lt, hi'.dataMemAddr, hi'.datR⟩, hi'.decoded⟩, hs', hi.clock_dataOut hsel⟩

theorem rdData_phase (hf : p.fsm = .RD_DATA) (hsource : x.sourceValid = true)
    (h : PatternPhase cfg aw p x.fifoValid m) : PatternPhase cfg aw (patternStep cfg p x) v (m + 1) := by
  rw [PatternPhase, hf] at h
  obtain ⟨-, hi, -⟩ := h
  have hnext : m + 1 ≤ cfg.count.toNat ∧ (cfg.modulo = true → (p.clock cfg x).dataMemAddr = 0) :=
    ⟨hi.lt, fun hm => hi.dataMemAddr.trans (readIndex_modulo hm _)⟩
  simp only [patternStep, hf, hsource, if_true]
  -- with or without an error the next state asks for nothing else
  cases hdiff : x.data != p.inverter.dataOut with
  | false => exact hnext
  | true =>
    cases hskip : x.skipFifo with
    | false => exact hnext
    | true => exact hnext

/-- An edge of the pattern FSM without a start pulse. The head of the address FIFO is the address of the comparison, and
it stays there until RD_DATA takes it. -/
theorem patternStep_phase (hx : x.start = false) (h : PatternPhase cfg aw p x.fifoValid p.compared)
    (ha : x.fifoValid = true → x.address = cfg.address aw p.compared)
    (hv : x.fifoValid = true → p.takes x = false → v = true) :
    PatternPhase cfg aw (patternStep cfg p x) v (patternStep cfg p x).compared := by
  rw [patternStep_compared hx h]
  by_cases hrest : PatternRests p x
  · rw [patternStep_of_rests hx hrest, hrest.takes_eq_false]
    exact clock_phase hrest h ha fun hvalid => hv hvalid hrest.takes_eq_false
  unfold PatternRests at hrest
  cases hf : p.fsm with
  | READY =>
    rw [hf] at hrest
    exact absurd trivial hrest
  | COMPUTE_MEM_ADDR =>
    rw [takes_of_ne (by rw [hf]; nofun)]
    exact computeMemAddr_phase hf h
  | WAIT_FOR_DRAM_ADDR =>
    have htakes : p.takes x = false := takes_of_ne (by rw [hf]; nofun)
    rw [hf] at hrest
    have hvalid : x.fifoValid = true := by simpa using hrest
    rw [htakes]
    exact waitForDramAddr_phase hf hvalid h (ha hvalid) (hv hvalid htakes)
  | INVERT_COMPUTE =>
    have htakes : p.takes x = false := takes_of_ne (by rw [hf]; nofun)
    rw [htakes]
    exact invertCompute_phase hf h ha fun hvalid => hv hvalid htakes
  | RD_DATA =>
    rw [hf] at hrest
    have hsource : x.sourceValid = true := by simpa using hrest
    have htakes : p.takes x = true := by
      rw [Pattern.takes, hf, hsource]
      rfl
    rw [htakes]
    exact rdData_phase hf hsource h
  | WR_ERR =>
    rw [hf] at hrest
    have hgo : (x.errorReady || x.skipFifo) = true := by
      rw [← Bool.not_eq_false, Bool.or_eq_false_iff]
      exact hrest
    rw [takes_of_ne (by rw [hf]; nofun)]
    rw [PatternPhase, hf] at h
    simp only [patternStep, hf, hgo, if_true]
    exact h

end Phase

end Pattern

/-! ## The Reader -/

section Reader
variable (word : Nat → BitVec aw → BitVec w) (r : Nat)

/-- The `m`-th word read, `r` words being returned before the transfer. -/
def dataRead (m : Nat) : BitVec w := word (r + m) (cfg.address aw m)

/-- The words read and expected in the first `m` comparisons. -/
def comparisons (m : Nat) : List (BitVec w × BitVec w) :=
  (List.range m).map fun j => (dataRead cfg word r j, expected cfg aw j)

/-- The `m`-th word is wrong. -/
def mismatch (m : Nat) : Bool := dataRead cfg word r m != expected cfg aw m

/-- The record of the `m`-th comparison. -/
def errorRecord (m : Nat) : ErrorRecord w :=
  ⟨(cfg.address aw m).setWidth 32, dataRead cfg word r m, expected cfg aw m⟩

/-- The error records of the first `m` comparisons. -/
def errors (m : Nat) : List (ErrorRecord w) :=
  ((List.range m).filter (mismatch cfg word r)).map (errorRecord cfg word r)

theorem comparisons_succ (m : Nat) :
    comparisons cfg word r (m + 1) = comparisons cfg word r m ++ [(dataRead cfg word r m, expected cfg aw m)] := by
  rw [comparisons, List.range_succ, List.map_append]
  rfl

theorem errors_succ (m : Nat) : errors cfg word r (m + 1) =
    errors cfg word r m ++ if mismatch cfg word r m then [errorRecord cfg word r m] else [] := by
  rw [errors, List.range_succ, List.filter_append, List.map_append, List.filter_cons]
  cases mismatch cfg word r m <;> rfl

theorem errors_length_le (m : Nat) : (errors cfg word r m).length ≤ m := by
  rw [errors, List.length_map]
  exact (List.length_filter_le _ _).trans_eq List.length_range

variable {F : Fifo (BitVec aw)} {G : Fifo (ErrorRecord w)}

/-- The invariant of a transfer: `C` and `D` are the commands and the comparisons since its start pulse. The address
FIFO and the DMA hold the same addresses, but for the one that goes to the DMA after the FIFO. -/
structure Inv (s : State F G k rb) (C : List (BitVec aw)) (D : List (BitVec w × BitVec w)) : Prop where
  addr : AddrPhase cfg s.addr s.addr.issued
  pattern : PatternPhase cfg aw s.pattern (F.valid s.addressFifo) s.pattern.compared
  le : s.pattern.compared ≤ s.addr.issued
  fifo : F.contents s.addressFifo = window (cfg.address aw) s.pattern.compared s.addr.pushed
  pending : s.dma.pending = window (cfg.address aw) s.pattern.compared s.addr.issued
  returned : s.dma.returned = r + s.pattern.compared
  commands : C = (List.range s.addr.issued).map (cfg.address aw)
  comparisons : D = Reader.comparisons cfg word r s.pattern.compared
  errorCount : s.pattern.errorCount.toNat = (errors cfg word r s.pattern.compared).length

variable {cfg word r} {s : State F G k rb} {C : List (BitVec aw)} {D : List (BitVec w × BitVec w)} {i : Input}

theorem start_inv (h : Idle s) (hi : i.start = true) : Inv cfg word s.dma.returned (step cfg word s i) [] [] := by
  have haddr : (step cfg word s i).addr =
      { s.addr.clock cfg with counterAddr := 0, memAddr := 0, fsm := .COMPUTE_MEM_ADDR } := by
    simp only [step, addrStep, h.addr, hi, if_true]
  have hpattern : (step cfg word s i).pattern = { s.pattern.clock cfg (patternIn word s i) with
      counterGen := 0, dataMemAddr := 0, errorCount := 0, fsm := .COMPUTE_MEM_ADDR } := by
    simp only [step, patternStep, h.pattern, patternIn, hi, if_true]
  have htaken : taken word s i = false := takes_of_ne (by rw [h.pattern]; nofun)
  have hcommand : command s i = none := by
    rw [command, h.addr]
    rfl
  have hfifo : F.contents (step cfg word s i).addressFifo = [] := by
    rw [step, F.contents_step, h.addressFifo, htaken, h.addr]
    simp
  have hdma : (step cfg word s i).dma = s.dma := by
    rw [step, Dma.step, htaken, hcommand, Option.toList_none, List.append_nil]
    rfl
  constructor
  · rw [haddr]
    exact ⟨Nat.zero_le _, fun hm => (cfg.index_zero hm).symm⟩
  · rw [hpattern]
    exact ⟨Nat.zero_le _, fun _ => rfl⟩
  · rw [haddr, hpattern]
    exact Nat.le_refl 0
  · rw [hfifo, haddr, hpattern]
    rfl
  · rw [hdma, h.dma, haddr, hpattern]
    rfl
  · rw [hdma, hpattern]
    rfl
  · rw [haddr]
    rfl
  · rw [hpattern]
    rfl
  · rw [hpattern]
    rfl

/-- The head of the address FIFO belongs to the next comparison. -/
theorem Inv.address_of_valid (h : Inv cfg word r s C D) (hv : F.valid s.addressFifo = true) :
    F.payload s.addressFifo = cfg.address aw s.pattern.compared :=
  (F.payload_of_window h.fifo hv).1

theorem rdData_of_taken (ht : taken word s i = true) :
    s.pattern.fsm = .RD_DATA ∧ i.answered = true ∧ s.dma.pending ≠ [] := by
  simp only [taken, Pattern.takes, patternIn, Bool.and_eq_true, beq_iff_eq, Bool.not_eq_true',
    List.isEmpty_eq_false_iff] at ht
  exact ⟨ht.1, ht.2.1, ht.2.2⟩

/-- A word is taken only while the address FIFO offers its address. -/
theorem Inv.valid_of_taken (h : Inv cfg word r s C D) (ht : taken word s i = true) : F.valid s.addressFifo = true := by
  have hp := h.pattern
  rw [PatternPhase, (rdData_of_taken ht).1] at hp
  exact hp.1

theorem Inv.lt_of_taken (h : Inv cfg word r s C D) (ht : taken word s i = true) :
    s.pattern.compared < s.addr.issued := by
  have hne := (rdData_of_taken ht).2.2
  rw [h.pending, ne_eq, window_eq_nil] at hne
  omega

/-- The word taken and the expected one are those of the same address. -/
theorem Inv.words_of_taken (h : Inv cfg word r s C D) (ht : taken word s i = true) :
    (patternIn word s i).data = dataRead cfg word r s.pattern.compared ∧
      s.pattern.inverter.dataOut = expected cfg aw s.pattern.compared := by
  have hp := h.pattern
  rw [PatternPhase, (rdData_of_taken ht).1] at hp
  refine ⟨?_, hp.2.2.2⟩
  rw [patternIn, dataRead, h.returned, h.pending, window_pop _ (h.lt_of_taken ht)]
  rfl

theorem Inv.step_compared (h : Inv cfg word r s C D) (hi : i.start = false) :
    (step cfg word s i).pattern.compared = if taken word s i then s.pattern.compared + 1 else s.pattern.compared :=
  patternStep_compared hi h.pattern

theorem Inv.step_issued (h : Inv cfg word r s C D) (hi : i.start = false) :
    (step cfg word s i).addr.issued =
      if s.addr.fsm == .PUSH_TO_DMA && i.dmaReady then s.addr.issued + 1 else s.addr.issued := by
  rw [← addrStep_issued (F.ready s.addressFifo) _ h.addr, step, hi]

theorem Inv.step_fifo (h : Inv cfg word r s C D) (hi : i.start = false) :
    F.contents (step cfg word s i).addressFifo =
      window (cfg.address aw) (step cfg word s i).pattern.compared (step cfg word s i).addr.pushed := by
  have hle : s.pattern.compared ≤ s.addr.pushed := by
    unfold Addr.pushed
    have := h.le
    split <;> omega
  have hpop : (F.valid s.addressFifo && taken word s i) = taken word s i := by
    cases ht : taken word s i with
    | false => exact Bool.and_false _
    | true => rw [h.valid_of_taken ht]; rfl
  have hpush : (s.addr.fsm == .PUSH_TO_FIFO) = true → s.addr.dramAddr = cfg.address aw s.addr.pushed := by
    intro hf
    have hf : s.addr.fsm = .PUSH_TO_FIFO := beq_iff_eq.mp hf
    have hp := h.addr
    rw [AddrPhase, hf] at hp
    rw [hp.2, Addr.pushed, hf]
    rfl
  have hn : (step cfg word s i).addr.pushed =
      if F.ready s.addressFifo && s.addr.fsm == .PUSH_TO_FIFO then s.addr.pushed + 1 else s.addr.pushed := by
    rw [← addrStep_pushed _ i.dmaReady h.addr, step, hi]
  rw [h.step_compared hi, hn, ← hpop]
  exact F.contents_step_window hle h.fifo hpush _

theorem Inv.command_eq (h : Inv cfg word r s C D) : (command s i).toList =
    if s.addr.fsm == .PUSH_TO_DMA && i.dmaReady then [cfg.address aw s.addr.issued] else [] := by
  rw [command]
  split
  · next hc =>
    have hp := h.addr
    rw [AddrPhase, beq_iff_eq.mp (Bool.and_eq_true_iff.mp hc).1] at hp
    rw [hp.2]
    rfl
  · rfl

theorem Inv.step_pending (h : Inv cfg word r s C D) (hi : i.start = false) :
    (step cfg word s i).dma.pending =
      window (cfg.address aw) (step cfg word s i).pattern.compared (step cfg word s i).addr.issued := by
  rw [h.step_compared hi, h.step_issued hi, step, Dma.step, h.command_eq, h.pending]
  exact window_step _ h.le h.lt_of_taken _

/-- An edge of a transfer without a start pulse. -/
theorem step_inv (h : Inv cfg word r s C D) (hi : i.start = false) :
    Inv cfg word r (step cfg word s i) (C ++ (command s i).toList) (D ++ (comparison word s i).toList) := by
  have haddr : (step cfg word s i).addr = addrStep cfg s.addr false (F.ready s.addressFifo) i.dmaReady := by
    rw [step, hi]
  constructor
  · rw [haddr]
    exact addrStep_phase _ _ h.addr
  · apply patternStep_phase hi h.pattern h.address_of_valid
    intro hv ht
    show F.valid (F.step s.addressFifo _ _ (taken word s i)) = true
    rw [show taken word s i = false from ht]
    exact F.valid_step _ _ _ hv
  · rw [h.step_compared hi, h.step_issued hi]
    have hle := h.le
    have hlt := h.lt_of_taken (i := i)
    split
    · next ht =>
      have := hlt ht
      split <;> omega
    · split <;> omega
  · exact h.step_fifo hi
  · exact h.step_pending hi
  · rw [h.step_compared hi, step, Dma.step, h.returned]
    split <;> rfl
  · rw [h.step_issued hi, h.commands, h.command_eq]
    split
    · rw [List.range_succ, List.map_append]
      rfl
    · exact List.append_nil _
  · rw [h.step_compared hi, comparison]
    split
    · next ht =>
      obtain ⟨hd, he⟩ := h.words_of_taken ht
      rw [comparisons_succ, h.comparisons, hd, he]
      rfl
    · exact (List.append_nil _).trans h.comparisons
  · have hcount : (step cfg word s i).pattern.errorCount = if taken word s i &&
        (patternIn word s i).data != s.pattern.inverter.dataOut then s.pattern.errorCount + 1
        else s.pattern.errorCount := patternStep_errorCount hi
    rw [h.step_compared hi, hcount]
    cases ht : taken word s i with
    | false => exact h.errorCount
    | true =>
      obtain ⟨hd, he⟩ := h.words_of_taken ht
      rw [if_pos rfl, errors_succ, hd, he, Bool.true_and, mismatch]
      have hlt : s.pattern.errorCount.toNat < cfg.count.toNat := by
        rw [h.errorCount]
        have := errors_length_le cfg word r s.pattern.compared
        have := h.lt_of_taken ht
        have := h.addr.le_count
        omega
      split
      · rw [toNat_succ_of_lt hlt, h.errorCount, List.length_append]
        rfl
      · rw [List.append_nil]
        exact h.errorCount

/-! ## The error records -/

/-- The records on their way to the consumer: in the error register, in the error FIFO and in front of it. -/
def held (s : State F G k rb) : List (ErrorRecord w) :=
  (if s.error.fsm == .VALID then [s.error.reg] else []) ++ G.contents s.errorFifo ++
    (if s.pattern.fsm == .WR_ERR then [s.pattern.sink] else [])

/-- The error FSM moves the records on in order. -/
theorem errorStep_flow (e : Error w) (q : G.State) (ready : Bool) :
    (if e.fsm == .VALID && ready then [e.reg] else []) ++
        ((if (errorStep e (G.valid q) (G.payload q) false ready).fsm == .VALID then
            [(errorStep e (G.valid q) (G.payload q) false ready).reg] else []) ++
          (if G.valid q && e.takes (G.valid q) ready then (G.contents q).tail else G.contents q)) =
      (if e.fsm == .VALID then [e.reg] else []) ++ G.contents q := by
  obtain ⟨fsm, reg⟩ := e
  cases hv : G.valid q with
  | false => cases fsm <;> cases ready <;> simp [errorStep, Error.takes]
  | true =>
    have hc := G.contents_of_valid hv
    cases fsm with
    | INVALID => simpa [errorStep, Error.takes] using hc.symm
    | VALID =>
      cases ready with
      | false => simp [errorStep, Error.takes]
      | true => simpa [errorStep, Error.takes] using hc.symm

/-- The record that the pattern FSM makes of an error is that of the comparison. -/
theorem Inv.record_of_taken (h : Inv cfg word r s C D) :
    (if taken word s i && (patternIn word s i).data != s.pattern.inverter.dataOut
        then [⟨(patternIn word s i).address.setWidth 32, (patternIn word s i).data, s.pattern.inverter.dataOut⟩]
        else []) =
      if taken word s i && mismatch cfg word r s.pattern.compared
        then [errorRecord cfg word r s.pattern.compared] else [] := by
  cases ht : taken word s i with
  | false => rfl
  | true =>
    obtain ⟨hd, he⟩ := h.words_of_taken ht
    have ha : (patternIn word s i).address = cfg.address aw s.pattern.compared :=
      h.address_of_valid (h.valid_of_taken ht)
    rw [hd, he, ha]
    rfl

theorem append_flow {α : Type} {R a b c d e x y z n : List α} (hflow : a ++ (b ++ c) = x ++ y)
    (hsink : d ++ e = z ++ n) : R ++ a ++ (b ++ (c ++ d) ++ e) = R ++ (x ++ y ++ z) ++ n := by
  calc R ++ a ++ (b ++ (c ++ d) ++ e) = R ++ (a ++ (b ++ c)) ++ (d ++ e) := by simp only [List.append_assoc]
    _ = R ++ (x ++ y) ++ (z ++ n) := by rw [hflow, hsink]
    _ = R ++ (x ++ y ++ z) ++ n := by simp only [List.append_assoc]

/-- With `skip_fifo` at 0 an edge loses no record. -/
theorem Inv.step_held (h : Inv cfg word r s C D) (hi : i.start = false) (hskip : i.skipFifo = false)
    {R : List (ErrorRecord w)} (hR : R ++ held s = errors cfg word r s.pattern.compared) :
    R ++ (record s i).toList ++ held (step cfg word s i) =
      errors cfg word r (step cfg word s i).pattern.compared := by
  have hrecord : (record s i).toList = if s.error.fsm == .VALID && i.errorReady then [s.error.reg] else [] := by
    rw [record]
    split <;> rfl
  have hfifo : G.contents (step cfg word s i).errorFifo = _ := G.contents_step ..
  have herror : (step cfg word s i).error =
      errorStep s.error (G.valid s.errorFifo) (G.payload s.errorFifo) false i.errorReady := by
    rw [step, hskip]
  have hflow := errorStep_flow s.error s.errorFifo i.errorReady
  have hsink := @patternStep_sink _ _ _ _ cfg s.pattern (patternIn word s i) hi hskip
  have hnew : errors cfg word r (step cfg word s i).pattern.compared =
      errors cfg word r s.pattern.compared ++ if taken word s i && mismatch cfg word r s.pattern.compared
        then [errorRecord cfg word r s.pattern.compared] else [] := by
    rw [h.step_compared hi]
    cases taken word s i with
    | false => exact (List.append_nil _).symm
    | true => exact errors_succ ..
  rw [hnew, ← hR, ← h.record_of_taken, held, held, hrecord, herror, hfifo]
  exact append_flow hflow hsink

/-! ## Runs -/

/-- A start pulse in the first cycle and none later. -/
structure OneStart (inp : Nat → Input) : Prop where
  start : (inp 0).start = true
  quiet : ∀ t, (inp (t + 1)).start = false

variable {inp : Nat → Input}

theorem Idle.command (h : Idle s) : Reader.command s i = none := by
  rw [Reader.command, h.addr]
  rfl

theorem Idle.comparison (h : Idle s) : Reader.comparison word s i = none := by
  rw [Reader.comparison, taken, takes_of_ne (by rw [h.pattern]; nofun)]
  rfl

theorem Idle.record (h : Idle s) : Reader.record s i = none := by
  rw [Reader.record, h.error]
  rfl

theorem Idle.errorFifo_valid (h : Idle s) : G.valid s.errorFifo = false := by
  rw [← Bool.not_eq_true]
  exact fun hv => G.ne_nil_of_valid hv h.errorFifo

/-- Without a start pulse an idle Reader stays idle. -/
theorem Idle.stays (h : Idle s) (hi : i.start = false) : Idle (step cfg word s i) := by
  have hvalid := h.errorFifo_valid
  have htaken : taken word s i = false := takes_of_ne (by rw [h.pattern]; nofun)
  refine ⟨?_, ?_, ?_, ?_, ?_, ?_⟩
  · simp only [step, addrStep, h.addr, hi, Bool.false_eq_true, if_false]
    exact h.addr
  · rw [step, F.contents_step, h.addressFifo, htaken, h.addr]
    simp
  · rw [step, Dma.step, h.command, htaken, h.dma]
    rfl
  · simp only [step, patternStep, h.pattern, patternIn, hi, Bool.false_eq_true, if_false]
    exact h.pattern
  · rw [step, G.contents_step, h.errorFifo, hvalid, h.pattern]
    simp
  · simp only [step, errorStep, h.error, hvalid, Bool.false_eq_true, if_false]

theorem Idle.held_start (h : Idle s) (hi : i.start = true) : held (step cfg word s i) = [] := by
  have hvalid := h.errorFifo_valid
  have herror : (step cfg word s i).error.fsm = .INVALID := by
    simp only [step, errorStep, h.error, hvalid, Bool.false_eq_true, if_false]
  have hfifo : G.contents (step cfg word s i).errorFifo = [] := by
    rw [step, G.contents_step, h.errorFifo, hvalid, h.pattern]
    simp
  have hpattern : (step cfg word s i).pattern.fsm = .COMPUTE_MEM_ADDR := by
    simp only [step, patternStep, h.pattern, patternIn, hi, if_true]
  rw [held, herror, hfifo, hpattern]
  rfl

theorem run_inv (h : Idle s) (hinp : OneStart inp) (t : Nat) :
    Inv cfg word s.dma.returned (run (step cfg word) s inp (t + 1)) (events (step cfg word) s inp command (t + 1))
      (events (step cfg word) s inp (comparison word) (t + 1)) := by
  induction t with
  | zero =>
    rw [events_succ, events_succ, run_zero, h.command, h.comparison]
    exact start_inv h hinp.start
  | succ t ih =>
    rw [events_succ, events_succ _ _ _ (comparison word), run_succ]
    exact step_inv ih (hinp.quiet t)

theorem run_held (h : Idle s) (hinp : OneStart inp) {t : Nat} (hskip : ∀ u < t + 1, (inp u).skipFifo = false) :
    events (step cfg word) s inp record (t + 1) ++ held (run (step cfg word) s inp (t + 1)) =
      errors cfg word s.dma.returned (run (step cfg word) s inp (t + 1)).pattern.compared := by
  induction t with
  | zero =>
    rw [events_succ, run_zero, h.record]
    show held (step cfg word s (inp 0)) = errors cfg word _ (step cfg word s (inp 0)).pattern.compared
    have hinv : Inv cfg word s.dma.returned (step cfg word s (inp 0)) [] [] := start_inv h hinp.start
    have hlen := hinv.errorCount
    have hcount : (step cfg word s (inp 0)).pattern.errorCount = 0 := by
      simp only [step, patternStep, h.pattern, patternIn, hinp.start, if_true]
    rw [h.held_start hinp.start]
    rw [hcount] at hlen
    exact (List.length_eq_zero_iff.mp hlen.symm).symm
  | succ t ih =>
    rw [events_succ, run_succ]
    apply (run_inv h hinp t).step_held (hinp.quiet t) (hskip _ (by omega))
    exact ih fun u hu => hskip u (by omega)

end Reader

end Reader

end RowhammerTester.Gateware.Bist
