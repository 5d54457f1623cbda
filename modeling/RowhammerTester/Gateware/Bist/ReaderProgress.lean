import RowhammerTester.Gateware.Bist.ReaderInvariant

/-!
# A transfer of the BIST `Reader`

* `rank`, `rank_step` : every edge lowers the rank unless all three FSMs wait (`Rests`);
* `exists_offered` : if the DMA does not stall forever, an error is offered or the Reader is ready;
* `exists_drained` : if the environment does not stall forever, the Reader is ready and the error records are delivered;
* `mask_transfer` : a start pulse reads and compares the pattern, for every DMA and every consumer of the errors.
-/

namespace RowhammerTester.Gateware.Bist
open RowhammerTester.Hdl

namespace Reader

variable {aw w k rb : Nat} (cfg : Settings w k rb)

/-! ## The ranks of the FSMs -/

section Addr

/-- Eight steps for each command still to be issued, and a countdown to the end of this one. -/
def addrRank (a : Addr aw k) : Nat :=
  8 * (cfg.count.toNat - a.issued) +
    match a.fsm with
    | .READY => 0
    | .COMPUTE_MEM_ADDR => 5
    | .WAIT_FOR_DRAM_ADDR => 4
    | .COMPUTE_DRAM_ADDR => 3
    | .PUSH_TO_FIFO => 2
    | .PUSH_TO_DMA => 1

variable {cfg} {a : Addr aw k} (fifoReady dmaReady : Bool)

theorem addrRank_step (h : AddrPhase cfg a a.issued) :
    addrRank cfg (addrStep cfg a false fifoReady dmaReady) < addrRank cfg a ∨ AddrRests a fifoReady dmaReady := by
  cases hf : a.fsm with
  | READY =>
    right
    rw [AddrRests, hf]
    trivial
  | COMPUTE_MEM_ADDR =>
    left
    by_cases hge : a.counterAddr ≥ cfg.count
    · simp [addrRank, addrStep, hf, Addr.clock, Addr.issued, if_pos hge]
    · simp [addrRank, addrStep, hf, Addr.clock, Addr.issued, if_neg hge]
  | WAIT_FOR_DRAM_ADDR =>
    left
    simp [addrRank, addrStep, hf, Addr.clock, Addr.issued]
  | COMPUTE_DRAM_ADDR =>
    left
    simp [addrRank, addrStep, hf, Addr.clock, Addr.issued]
  | PUSH_TO_FIFO =>
    cases hr : fifoReady with
    | false =>
      right
      rw [AddrRests, hf]
    | true =>
      left
      simp [addrRank, addrStep, hf, Addr.clock, Addr.issued]
  | PUSH_TO_DMA =>
    cases hr : dmaReady with
    | false =>
      right
      rw [AddrRests, hf]
    | true =>
      left
      rw [AddrPhase, hf] at h
      have hlt : a.counterAddr.toNat < cfg.count.toNat := h.1.lt
      simp only [addrRank, addrStep, hf, Addr.issued, if_true, toNat_succ_of_lt hlt]
      omega

end Addr

section Pattern

/-- Eight steps for each comparison still to be made, and a countdown to the end of this one. -/
def patternRank (p : Pattern w k rb) : Nat :=
  8 * (cfg.count.toNat - p.compared) +
    match p.fsm with
    | .READY => 0
    | .COMPUTE_MEM_ADDR => 7
    | .WAIT_FOR_DRAM_ADDR => 6
    | .INVERT_COMPUTE => 5 - p.waitCounter.toNat
    | .RD_DATA => 2
    | .WR_ERR => 8

variable {cfg} {p : Pattern w k rb} {x : PatternIn aw w}

theorem patternRank_step (h : PatternPhase cfg aw p x.fifoValid p.compared) :
    patternRank cfg (patternStep cfg p x) < patternRank cfg p ∨ PatternRests p x := by
  cases hf : p.fsm with
  | READY =>
    right
    rw [PatternRests, hf]
    trivial
  | COMPUTE_MEM_ADDR =>
    left
    by_cases hge : p.counterGen ≥ cfg.count
    · simp [patternRank, patternStep, hf, Pattern.clock, Pattern.compared, if_pos hge]
    · simp [patternRank, patternStep, hf, Pattern.clock, Pattern.compared, if_neg hge]
  | WAIT_FOR_DRAM_ADDR =>
    cases hv : x.fifoValid with
    | false =>
      right
      rw [PatternRests, hf]
      exact hv
    | true =>
      left
      simp [patternRank, patternStep, hf, hv, Pattern.clock, Pattern.compared]
  | INVERT_COMPUTE =>
    left
    rw [PatternPhase, hf] at h
    obtain hw | ⟨hw, -⟩ | ⟨hw, -⟩ := h.2.2 <;>
      simp [patternRank, patternStep, hf, hw, Pattern.clock, Pattern.compared]
  | RD_DATA =>
    cases hv : x.sourceValid with
    | false =>
      right
      rw [PatternRests, hf]
      exact hv
    | true =>
      left
      rw [PatternPhase, hf] at h
      have hlt : p.counterGen.toNat < cfg.count.toNat := h.2.1.lt
      have hsucc := toNat_succ_of_lt hlt
      cases hd : x.data != p.inverter.dataOut with
      | false =>
        simp only [patternRank, patternStep, hf, hv, hd, Pattern.compared, if_true, Bool.false_eq_true, if_false, hsucc]
        omega
      | true =>
        cases hs : x.skipFifo <;>
          simp only [patternRank, patternStep, hf, hv, hd, hs, Pattern.compared, if_true, Bool.false_eq_true, if_false,
            hsucc] <;>
          omega
  | WR_ERR =>
    cases hr : x.errorReady || x.skipFifo with
    | false =>
      right
      rw [PatternRests, hf]
      exact Bool.or_eq_false_iff.mp hr
    | true =>
      left
      simp [patternRank, patternStep, hf, hr, Pattern.clock, Pattern.compared]

end Pattern

section Error
variable (e : Error w) (fifoValid ready : Bool)

/-- The error FSM waits. -/
def ErrorRests : Prop :=
  match e.fsm with
  | .INVALID => fifoValid = false
  | .VALID => ready = false

variable {e fifoValid ready}

theorem ErrorRests.takes_eq_false (h : ErrorRests e fifoValid ready) : e.takes fifoValid ready = false := by
  unfold ErrorRests at h
  cases hf : e.fsm with
  | INVALID =>
    rw [hf] at h
    rw [Error.takes, hf]
    exact h
  | VALID =>
    rw [hf] at h
    rw [Error.takes, hf]
    exact (congrArg (· && fifoValid) h).trans (Bool.false_and _)

theorem errorStep_of_rests (h : ErrorRests e fifoValid ready) (payload : ErrorRecord w) (skipFifo : Bool) :
    errorStep e fifoValid payload skipFifo ready = e := by
  unfold ErrorRests at h
  cases hf : e.fsm with
  | INVALID =>
    rw [hf] at h
    simp only [errorStep, hf, show fifoValid = false from h, Bool.false_eq_true, if_false]
  | VALID =>
    rw [hf] at h
    simp only [errorStep, hf, show ready = false from h, Bool.false_and, Bool.false_eq_true, if_false]

end Error

/-! ## The rank of the Reader -/

section Reader
variable {word : Nat → BitVec aw → BitVec w} {r : Nat} {F : Fifo (BitVec aw)} {G : Fifo (ErrorRecord w)}
  {s : State F G k rb} {C : List (BitVec aw)} {D : List (BitVec w × BitVec w)} {i : Input}

/-- The steps that the records in the error FIFO and in the error register need. -/
def errorRank (s : State F G k rb) : Nat :=
  2 * (G.contents s.errorFifo).length + if s.error.fsm == .VALID then 1 else 0

/-- A record that the pattern FSM pushes costs less than the step that pushes it. -/
def rank (s : State F G k rb) : Nat := 3 * patternRank cfg s.pattern + addrRank cfg s.addr + errorRank s

/-- All FSMs wait. -/
structure Rests (word : Nat → BitVec aw → BitVec w) (s : State F G k rb) (i : Input) : Prop where
  addr : AddrRests s.addr (F.ready s.addressFifo) i.dmaReady
  pattern : PatternRests s.pattern (patternIn word s i)
  error : ErrorRests s.error (G.valid s.errorFifo) i.errorReady

variable {cfg}

theorem push_length (s : State F G k rb) :
    2 * (if G.ready s.errorFifo && s.pattern.fsm == .WR_ERR then [s.pattern.sink] else []).length =
      if G.ready s.errorFifo && s.pattern.fsm == .WR_ERR then 2 else 0 := by
  split <;> rfl

theorem errorRank_step (s : State F G k rb) (i : Input) :
    errorRank (step cfg word s i) < errorRank s + (if G.ready s.errorFifo && s.pattern.fsm == .WR_ERR then 2 else 0) ∨
      ErrorRests s.error (G.valid s.errorFifo) i.errorReady := by
  have hfifo : G.contents (step cfg word s i).errorFifo = _ := G.contents_step ..
  have herror : (step cfg word s i).error =
      errorStep s.error (G.valid s.errorFifo) (G.payload s.errorFifo) i.skipFifo i.errorReady := rfl
  rw [errorRank, errorRank, hfifo, herror, List.length_append, ← push_length]
  cases hf : s.error.fsm with
  | INVALID =>
    cases hv : G.valid s.errorFifo with
    | false =>
      right
      rw [ErrorRests, hf]
    | true =>
      left
      have hc := congrArg List.length (G.contents_of_valid hv)
      rw [List.length_cons] at hc
      cases i.skipFifo <;> simp [errorStep, Error.takes, hf] <;> omega
  | VALID =>
    cases hr : i.errorReady with
    | false =>
      right
      rw [ErrorRests, hf]
    | true =>
      left
      cases hv : G.valid s.errorFifo with
      | false => simp [errorStep, Error.takes, hf]; omega
      | true =>
        have hc := congrArg List.length (G.contents_of_valid hv)
        rw [List.length_cons] at hc
        cases i.skipFifo <;> simp [errorStep, Error.takes, hf] <;> omega

theorem errorRank_of_rests (h : ErrorRests s.error (G.valid s.errorFifo) i.errorReady) :
    errorRank (step cfg word s i) =
      errorRank s + (if G.ready s.errorFifo && s.pattern.fsm == .WR_ERR then 2 else 0) := by
  have hfifo : G.contents (step cfg word s i).errorFifo = _ := G.contents_step ..
  have herror : (step cfg word s i).error = s.error := errorStep_of_rests h ..
  rw [errorRank, errorRank, hfifo, herror, h.takes_eq_false, Bool.and_false, List.length_append, ← push_length,
    if_neg Bool.false_ne_true]
  omega

/-- A pattern FSM that waits pushes no record. -/
theorem PatternRests.not_push (h : PatternRests s.pattern (patternIn word s i)) :
    (G.ready s.errorFifo && s.pattern.fsm == .WR_ERR) = false := by
  unfold PatternRests at h
  cases hf : s.pattern.fsm with
  | WR_ERR =>
    rw [hf] at h
    rw [show G.ready s.errorFifo = false from h.1]
    rfl
  | _ => exact Bool.and_false _

/-- Every edge lowers the rank unless all FSMs wait. -/
theorem rank_step (h : Inv cfg word r s C D) (hi : i.start = false) :
    rank cfg (step cfg word s i) < rank cfg s ∨ Rests word s i := by
  have haddr : (step cfg word s i).addr = addrStep cfg s.addr false (F.ready s.addressFifo) i.dmaReady := by
    rw [step, hi]
  have hpattern : (step cfg word s i).pattern = patternStep cfg s.pattern (patternIn word s i) := rfl
  have herror := @errorRank_step _ _ _ _ cfg word _ _ s i
  have herror_le : errorRank (step cfg word s i) ≤
      errorRank s + (if G.ready s.errorFifo && s.pattern.fsm == .WR_ERR then 2 else 0) := by
    obtain hlt | hrest := herror
    · exact Nat.le_of_lt hlt
    · exact Nat.le_of_eq (errorRank_of_rests hrest)
  have haddr_le : addrRank cfg (step cfg word s i).addr ≤ addrRank cfg s.addr := by
    rw [haddr]
    obtain hlt | hrest := addrRank_step (F.ready s.addressFifo) i.dmaReady h.addr
    · exact Nat.le_of_lt hlt
    · rw [addrStep_of_rests hrest]
      exact Nat.le_refl _
  unfold rank
  obtain hlt | hrest := patternRank_step (x := patternIn word s i) h.pattern
  · left
    rw [← hpattern] at hlt
    split at herror_le <;> omega
  · rw [hrest.not_push] at herror herror_le
    have hsame : patternRank cfg (step cfg word s i).pattern = patternRank cfg s.pattern := by
      rw [hpattern, patternStep_of_rests hi hrest]
      rfl
    obtain hlt | haddr_rest := addrRank_step (F.ready s.addressFifo) i.dmaReady h.addr
    · left
      rw [← haddr] at hlt
      simp only [Bool.false_eq_true, if_false] at herror_le
      omega
    · obtain hlt | herror_rest := herror
      · left
        simp only [Bool.false_eq_true, if_false] at hlt
        omega
      · exact Or.inr ⟨haddr_rest, hrest, herror_rest⟩

/-- The FSM states, the counters and the records are the same. -/
structure Still (s s' : State F G k rb) : Prop where
  addrFsm : s'.addr.fsm = s.addr.fsm
  issued : s'.addr.issued = s.addr.issued
  patternFsm : s'.pattern.fsm = s.pattern.fsm
  compared : s'.pattern.compared = s.pattern.compared
  errorFsm : s'.error.fsm = s.error.fsm
  errorFifo : G.contents s'.errorFifo = G.contents s.errorFifo

theorem Still.trans {s' s'' : State F G k rb} (h : Still s s') (h' : Still s' s'') : Still s s'' where
  addrFsm := h'.addrFsm.trans h.addrFsm
  issued := h'.issued.trans h.issued
  patternFsm := h'.patternFsm.trans h.patternFsm
  compared := h'.compared.trans h.compared
  errorFsm := h'.errorFsm.trans h.errorFsm
  errorFifo := h'.errorFifo.trans h.errorFifo

theorem Rests.still (h : Rests word s i) (hi : i.start = false) : Still s (step cfg word s i) := by
  have haddr : (step cfg word s i).addr = s.addr.clock cfg := by
    rw [← addrStep_of_rests h.addr, step, hi]
  have hpattern : (step cfg word s i).pattern = s.pattern.clock cfg (patternIn word s i) :=
    patternStep_of_rests hi h.pattern
  have herror : (step cfg word s i).error = s.error := errorStep_of_rests h.error ..
  have hfifo : G.contents (step cfg word s i).errorFifo = G.contents s.errorFifo := by
    rw [step, G.contents_step, h.error.takes_eq_false, h.pattern.not_push, Bool.and_false]
    exact List.append_nil _
  constructor
  · rw [haddr]
    rfl
  · rw [haddr]
    rfl
  · rw [hpattern]
    rfl
  · rw [hpattern]
    rfl
  · rw [herror]
  · exact hfifo

/-! ## A run that rests -/

/-- No stall of the DMA lasts forever. -/
structure DmaFair (inp : Nat → Input) : Prop where
  dmaReady : ∀ t, ∃ u, t ≤ u ∧ (inp u).dmaReady = true
  answered : ∀ t, ∃ u, t ≤ u ∧ (inp u).answered = true

/-- No stall lasts forever: neither of the DMA nor, unless the errors are skipped, of their consumer. -/
structure Fair (inp : Nat → Input) : Prop where
  dmaReady : ∀ t, ∃ u, t ≤ u ∧ (inp u).dmaReady = true
  answered : ∀ t, ∃ u, t ≤ u ∧ (inp u).answered = true
  consumed : ∀ t, ∃ u, t ≤ u ∧ ((inp u).errorReady = true ∨ (inp u).skipFifo = true)

theorem Fair.dma {inp : Nat → Input} (h : Fair inp) : DmaFair inp := ⟨h.dmaReady, h.answered⟩

variable (cfg) in
/-- A transfer all of whose FSMs wait from the time `T` on. -/
structure RestsFrom (word : Nat → BitVec aw → BitVec w) (r : Nat) (inp : Nat → Input) (S : Nat → State F G k rb)
    (T : Nat) : Prop where
  step : ∀ t, S (t + 1) = Reader.step cfg word (S t) (inp t)
  quiet : ∀ t, (inp t).start = false
  inv : ∀ t, ∃ C D, Inv cfg word r (S t) C D
  rests : ∀ t, T ≤ t → Rests word (S t) (inp t)

namespace RestsFrom
variable {inp : Nat → Input} {S : Nat → State F G k rb} {T : Nat} (h : RestsFrom cfg word r inp S T)
include h

theorem still {t : Nat} (ht : T ≤ t) : Still (S T) (S t) := by
  induction t, ht using Nat.le_induction with
  | base => exact ⟨rfl, rfl, rfl, rfl, rfl, rfl⟩
  | succ t ht ih =>
    rw [h.step]
    exact ih.trans ((h.rests t ht).still (h.quiet t))

theorem error_invalid {u : Nat} (hu : T ≤ u) (hready : (inp u).errorReady = true) : (S T).error.fsm = .INVALID := by
  have hrest := (h.rests u hu).error
  cases hf : (S T).error.fsm with
  | INVALID => rfl
  | VALID =>
    rw [ErrorRests, (h.still hu).errorFsm, hf, hready] at hrest
    cases hrest

theorem errorFifo_nil (hf : (S T).error.fsm = .INVALID) : G.contents (S T).errorFifo = [] := by
  apply Classical.byContradiction
  intro hne
  obtain ⟨u, hu, hv⟩ :=
    G.exists_valid (q := fun t => (S t).errorFifo) (fun t => congrArg State.errorFifo (h.step t)) hne
  have hrest := (h.rests u hu).error
  rw [ErrorRests, (h.still hu).errorFsm, hf, hv] at hrest
  cases hrest

theorem addressFifo_nil (hf : (S T).pattern.fsm = .WAIT_FOR_DRAM_ADDR) : F.contents (S T).addressFifo = [] := by
  apply Classical.byContradiction
  intro hne
  obtain ⟨u, hu, hv⟩ :=
    F.exists_valid (q := fun t => (S t).addressFifo) (fun t => congrArg State.addressFifo (h.step t)) hne
  have hrest := (h.rests u hu).pattern
  rw [PatternRests, (h.still hu).patternFsm, hf] at hrest
  exact Bool.false_ne_true (hrest.symm.trans hv)

/-- A pattern FSM that waits for data has none in flight. -/
theorem issued_le (hfair : DmaFair inp) (hf : (S T).pattern.fsm = .RD_DATA) :
    (S T).addr.issued ≤ (S T).pattern.compared := by
  obtain ⟨u, hu, hanswered⟩ := hfair.answered T
  obtain ⟨C, D, hinv⟩ := h.inv u
  have hrest := (h.rests u hu).pattern
  rw [PatternRests, (h.still hu).patternFsm, hf] at hrest
  have hnil : (S u).dma.pending = [] := by
    simpa [patternIn, hanswered] using hrest
  rw [hinv.pending, window_eq_nil, (h.still hu).issued, (h.still hu).compared] at hnil
  exact hnil

theorem not_pushToDma (hfair : DmaFair inp) : (S T).addr.fsm ≠ .PUSH_TO_DMA := by
  intro hf
  obtain ⟨u, hu, hready⟩ := hfair.dmaReady T
  have hrest := (h.rests u hu).addr
  rw [AddrRests, (h.still hu).addrFsm, hf, hready] at hrest
  cases hrest

/-- If the address FIFO is empty, an address FSM that waits has issued all commands. -/
theorem issued_eq (hfair : DmaFair inp) (hnil : F.contents (S T).addressFifo = []) :
    (S T).addr.issued = cfg.count.toNat := by
  obtain ⟨C, D, hinv⟩ := h.inv T
  have hrest := (h.rests T (Nat.le_refl T)).addr
  have hphase := hinv.addr
  unfold AddrRests at hrest
  cases hf : (S T).addr.fsm with
  | READY =>
    rw [AddrPhase, hf] at hphase
    exact hphase
  | PUSH_TO_FIFO =>
    rw [hf] at hrest
    have hready : F.ready (S T).addressFifo = true := by
      apply F.ready_of_lt
      rw [hnil]
      exact F.depth_pos
    exact absurd (hrest.symm.trans hready) Bool.false_ne_true
  | PUSH_TO_DMA => exact absurd hf (h.not_pushToDma hfair)
  | _ =>
    rw [hf] at hrest
    exact hrest.elim

/-- A free error register leaves room for the record that the pattern FSM offers. -/
theorem not_wrErr_of_invalid (hinvalid : (S T).error.fsm = .INVALID) : (S T).pattern.fsm ≠ .WR_ERR := by
  intro hf
  have hrest := (h.rests T (Nat.le_refl T)).pattern
  rw [PatternRests, hf] at hrest
  have hpush : G.ready (S T).errorFifo = true := by
    apply G.ready_of_lt
    rw [h.errorFifo_nil hinvalid]
    exact G.depth_pos
  exact Bool.false_ne_true (hrest.1.symm.trans hpush)

theorem not_wrErr (hfair : Fair inp) : (S T).pattern.fsm ≠ .WR_ERR := by
  obtain ⟨u, hu, hready | hskip⟩ := hfair.consumed T
  · exact h.not_wrErr_of_invalid (h.error_invalid hu hready)
  · intro hf
    have hrest := (h.rests u hu).pattern
    rw [PatternRests, (h.still hu).patternFsm, hf] at hrest
    exact Bool.false_ne_true (hrest.2.symm.trans hskip)

theorem pattern_ready (hfair : DmaFair inp) (hne : (S T).pattern.fsm ≠ .WR_ERR) : (S T).pattern.fsm = .READY := by
  obtain ⟨C, D, hinv⟩ := h.inv T
  have hrest := (h.rests T (Nat.le_refl T)).pattern
  have hphase := hinv.pattern
  have hle := hinv.le
  have hpushed : (S T).addr.pushed = (S T).addr.issued := by
    rw [Addr.pushed, if_neg]
    rw [beq_iff_eq]
    exact h.not_pushToDma hfair
  unfold PatternRests at hrest
  cases hf : (S T).pattern.fsm with
  | READY => rfl
  | WAIT_FOR_DRAM_ADDR =>
    rw [PatternPhase, hf] at hphase
    have hnil := h.addressFifo_nil hf
    have hall := h.issued_eq hfair hnil
    rw [hinv.fifo, window_eq_nil, hpushed] at hnil
    have := hphase.1
    omega
  | RD_DATA =>
    rw [PatternPhase, hf] at hphase
    have hnil : F.contents (S T).addressFifo = [] := by
      rw [hinv.fifo, window_eq_nil, hpushed]
      exact h.issued_le hfair hf
    exact absurd hnil (F.ne_nil_of_valid hphase.1)
  | WR_ERR => exact absurd hf hne
  | _ =>
    rw [hf] at hrest
    exact hrest.elim

end RestsFrom

/-! ## A transfer -/

theorem rank_of_rests (h : Rests word s i) (hi : i.start = false) : rank cfg (step cfg word s i) = rank cfg s := by
  have haddr : (step cfg word s i).addr = s.addr.clock cfg := by
    rw [← addrStep_of_rests h.addr, step, hi]
  have hpattern : (step cfg word s i).pattern = s.pattern.clock cfg (patternIn word s i) :=
    patternStep_of_rests hi h.pattern
  rw [rank, haddr, hpattern, errorRank_of_rests h.error, h.pattern.not_push]
  rfl

variable {inp : Nat → Input}

/-- A transfer without further start pulses comes to rest. -/
theorem exists_restsFrom {C : List (BitVec aw)} {D : List (BitVec w × BitVec w)} (h : Inv cfg word r s C D)
    (hquiet : ∀ t, (inp t).start = false) : ∃ T, RestsFrom cfg word r inp (run (step cfg word) s inp) T := by
  have hinv : ∀ t, ∃ C D, Inv cfg word r (run (step cfg word) s inp t) C D := by
    intro t
    induction t with
    | zero => exact ⟨C, D, h⟩
    | succ t ih =>
      obtain ⟨C, D, ht⟩ := ih
      exact ⟨_, _, step_inv ht (hquiet t)⟩
  have hstep : ∀ t, rank cfg (run (step cfg word) s inp (t + 1)) < rank cfg (run (step cfg word) s inp t) ∨
      Rests word (run (step cfg word) s inp t) (inp t) := by
    intro t
    obtain ⟨C, D, ht⟩ := hinv t
    exact rank_step ht (hquiet t)
  obtain ⟨T, hT⟩ := @exists_constant (fun t => rank cfg (run (step cfg word) s inp t)) fun t => by
    obtain hlt | hrest := hstep t
    · exact Nat.le_of_lt hlt
    · exact Nat.le_of_eq (rank_of_rests hrest (hquiet t))
  refine ⟨T, fun t => rfl, hquiet, hinv, fun t ht => ?_⟩
  obtain hlt | hrest := hstep t
  · have h1 := hT t ht
    have h2 := hT (t + 1) (by omega)
    omega
  · exact hrest

/-- If the DMA does not stall forever, an error is offered or the Reader is ready from some time on. -/
theorem exists_offered {C : List (BitVec aw)} {D : List (BitVec w × BitVec w)} (h : Inv cfg word r s C D)
    (hquiet : ∀ t, (inp t).start = false) (hfair : DmaFair inp) :
    ∃ T, ∀ t, T ≤ t → (run (step cfg word) s inp t).error.fsm = .VALID ∨
      (run (step cfg word) s inp t).pattern.fsm = .READY := by
  obtain ⟨T, hT⟩ := exists_restsFrom h hquiet
  refine ⟨T, fun t ht => ?_⟩
  have hstill := hT.still ht
  rw [hstill.errorFsm, hstill.patternFsm]
  cases hf : (run (step cfg word) s inp T).error.fsm with
  | VALID => exact Or.inl rfl
  | INVALID => exact Or.inr (hT.pattern_ready hfair (hT.not_wrErr_of_invalid hf))

theorem Fair.shift (h : Fair inp) : Fair fun t => inp (t + 1) := by
  have hshift : ∀ {P : Nat → Prop}, (∀ t, ∃ u, t ≤ u ∧ P u) → ∀ t, ∃ u, t ≤ u ∧ P (u + 1) := by
    intro P hP t
    obtain ⟨u, hu, hPu⟩ := hP (t + 1)
    obtain ⟨d, rfl⟩ := Nat.exists_eq_add_of_le' (show 1 ≤ u by omega)
    exact ⟨d, by omega, hPu⟩
  exact ⟨hshift h.dmaReady, hshift h.answered, hshift h.consumed⟩

/-- If no stall lasts forever, the Reader is ready from some time on, and with `skip_fifo` at 0 no record is held. -/
theorem exists_drained (h : Idle s) (hinp : OneStart inp) (hfair : Fair inp) :
    ∃ T, 1 ≤ T ∧ ∀ t, T ≤ t → ready (run (step cfg word) s inp t) = true ∧
      ((∀ u, (inp u).skipFifo = false) → held (run (step cfg word) s inp t) = []) := by
  have hstart : Inv cfg word s.dma.returned (step cfg word s (inp 0)) [] [] := start_inv h hinp.start
  obtain ⟨T, hT⟩ := exists_restsFrom hstart hinp.quiet
  refine ⟨T + 1, by omega, fun t ht => ?_⟩
  obtain ⟨t, rfl⟩ := Nat.exists_eq_add_of_le' (show 1 ≤ t by omega)
  rw [run_succ']
  have hstill := hT.still (show T ≤ t by omega)
  have hready := hstill.patternFsm.trans (hT.pattern_ready hfair.shift.dma (hT.not_wrErr hfair.shift))
  refine ⟨beq_iff_eq.mpr hready, fun hskip => ?_⟩
  obtain ⟨u, hu, hconsumed | hskipped⟩ := hfair.shift.consumed T
  · have hinvalid := hT.error_invalid hu hconsumed
    rw [held, hready, hstill.errorFsm, hinvalid, hstill.errorFifo, hT.errorFifo_nil hinvalid]
    rfl
  · exact absurd (hskip (u + 1)) (by rw [hskipped]; exact Bool.false_ne_true.symm)

/-- At any time the commands and the comparisons are the first of those that the settings describe. -/
theorem prefix_run (h : Idle s) (hinp : OneStart inp) (T : Nat) :
    events (step cfg word) s inp command T <+: (List.range cfg.count.toNat).map (cfg.address aw) ∧
      events (step cfg word) s inp (comparison word) T <+: comparisons cfg word s.dma.returned cfg.count.toNat := by
  cases T with
  | zero => exact ⟨List.nil_prefix, List.nil_prefix⟩
  | succ T =>
    have hinv := @run_inv _ _ _ _ cfg word _ _ s inp h hinp T
    rw [hinv.commands, hinv.comparisons]
    exact ⟨prefix_map_range _ hinv.addr.le_count, prefix_map_range _ hinv.pattern.le_count⟩

theorem compared_of_ready (h : Inv cfg word r s C D) (hready : ready s = true) :
    s.pattern.compared = cfg.count.toNat ∧ s.addr.issued = cfg.count.toNat := by
  have hphase := h.pattern
  rw [PatternPhase, show s.pattern.fsm = .READY from beq_iff_eq.mp hready] at hphase
  exact ⟨hphase, Nat.le_antisymm h.addr.le_count (hphase ▸ h.le)⟩

/-- When the Reader is ready again they are all done. -/
theorem run_ready (h : Idle s) (hinp : OneStart inp) {T : Nat} (hT : 1 ≤ T)
    (hready : ready (run (step cfg word) s inp T) = true) :
    events (step cfg word) s inp command T = (List.range cfg.count.toNat).map (cfg.address aw) ∧
      events (step cfg word) s inp (comparison word) T = comparisons cfg word s.dma.returned cfg.count.toNat ∧
      done (run (step cfg word) s inp T) = cfg.count ∧
      (errorCount (run (step cfg word) s inp T)).toNat = (errors cfg word s.dma.returned cfg.count.toNat).length := by
  obtain ⟨T, rfl⟩ := Nat.exists_eq_add_of_le' hT
  have hinv := @run_inv _ _ _ _ cfg word _ _ s inp h hinp T
  obtain ⟨hm, hn⟩ := compared_of_ready hinv hready
  refine ⟨?_, ?_, BitVec.eq_of_toNat_eq hm, ?_⟩
  · rw [hinv.commands, hn]
  · rw [hinv.comparisons, hm]
  · exact hinv.errorCount.trans (by rw [hm])

/-- With `skip_fifo` at 0 the records delivered are the first of the errors, and those held come next. -/
theorem run_records (h : Idle s) (hinp : OneStart inp) (hskip : ∀ t, (inp t).skipFifo = false) (T : Nat) :
    events (step cfg word) s inp record T <+: errors cfg word s.dma.returned cfg.count.toNat ∧
      (1 ≤ T → ready (run (step cfg word) s inp T) = true →
        events (step cfg word) s inp record T ++ held (run (step cfg word) s inp T) =
          errors cfg word s.dma.returned cfg.count.toNat) := by
  cases T with
  | zero => exact ⟨List.nil_prefix, fun h0 => absurd h0 (by decide)⟩
  | succ T =>
    have hinv := @run_inv _ _ _ _ cfg word _ _ s inp h hinp T
    have hheld := @run_held _ _ _ _ cfg word _ _ s inp h hinp T fun u _ => hskip u
    constructor
    · have hprefix : errors cfg word s.dma.returned (run (step cfg word) s inp (T + 1)).pattern.compared <+:
          errors cfg word s.dma.returned cfg.count.toNat := by
        have hrange := prefix_map_range id hinv.pattern.le_count
        rw [List.map_id, List.map_id] at hrange
        exact (hrange.filter _).map _
      exact List.IsPrefix.trans ⟨_, hheld⟩ hprefix
    · intro _ hready
      rw [hheld, (compared_of_ready hinv hready).1]

/-- **A transfer of the Reader in mask mode.** After one start pulse on an idle Reader the `j`-th command reads
`address j`, whose word is compared with `expected j`; when the Reader is ready again all are done and the errors are
counted; with `skip_fifo` at 0 the records of the errors are delivered in order; and all this comes to its end if no
stall lasts forever. -/
theorem mask_transfer (cfg : Settings w k rb) (word : Nat → BitVec aw → BitVec w) (s : State F G k rb)
    (inp : Nat → Input) (hmask : cfg.modulo = false) (hidle : Idle s) (hinp : OneStart inp) :
    (∀ j, cfg.index j = BitVec.ofNat k j &&& cfg.dataMask ∧ cfg.readIndex j = BitVec.ofNat k j &&& cfg.dataMask) ∧
    (∀ T, events (step cfg word) s inp command T <+: (List.range cfg.count.toNat).map (cfg.address aw) ∧
      events (step cfg word) s inp (comparison word) T <+: comparisons cfg word s.dma.returned cfg.count.toNat) ∧
    (∀ T, 1 ≤ T → ready (run (step cfg word) s inp T) = true →
      events (step cfg word) s inp command T = (List.range cfg.count.toNat).map (cfg.address aw) ∧
      events (step cfg word) s inp (comparison word) T = comparisons cfg word s.dma.returned cfg.count.toNat ∧
      done (run (step cfg word) s inp T) = cfg.count ∧
      (errorCount (run (step cfg word) s inp T)).toNat =
        (List.range cfg.count.toNat).countP (mismatch cfg word s.dma.returned)) ∧
    ((∀ t, (inp t).skipFifo = false) → ∀ T,
      events (step cfg word) s inp record T <+: errors cfg word s.dma.returned cfg.count.toNat ∧
      (1 ≤ T → ready (run (step cfg word) s inp T) = true →
        events (step cfg word) s inp record T ++ held (run (step cfg word) s inp T) =
          errors cfg word s.dma.returned cfg.count.toNat)) ∧
    (Fair inp → ∃ T, 1 ≤ T ∧ ∀ t, T ≤ t → ready (run (step cfg word) s inp t) = true ∧
      ((∀ u, (inp u).skipFifo = false) →
        events (step cfg word) s inp record t = errors cfg word s.dma.returned cfg.count.toNat)) := by
  refine ⟨fun j => ?_, prefix_run hidle hinp, fun T hT hready => ?_, run_records hidle hinp, fun hfair => ?_⟩
  · rw [Settings.index, Settings.readIndex, hmask]
    exact ⟨rfl, rfl⟩
  · obtain ⟨hcommands, hcomparisons, hdone, herrors⟩ := run_ready hidle hinp hT hready
    refine ⟨hcommands, hcomparisons, hdone, ?_⟩
    rw [herrors, errors, List.length_map, List.countP_eq_length_filter]
  · obtain ⟨T, hT, hdrained⟩ := exists_drained hidle hinp hfair
    refine ⟨T, hT, fun t ht => ⟨(hdrained t ht).1, fun hskip => ?_⟩⟩
    have hall := (run_records hidle hinp hskip t).2 (by omega) (hdrained t ht).1
    rw [(hdrained t ht).2 hskip, List.append_nil] at hall
    exact hall

end Reader

/-- One start pulse; the DMA accepts commands in every other cycle, answers in every third and a consumer takes an error
in every fourth. -/
def stalled (t : Nat) : Input := ⟨t == 0, t % 2 == 0, t % 3 == 0, false, t % 4 == 3⟩

theorem stalled_fair : Fair stalled where
  dmaReady t := ⟨2 * t, by omega, by simp [stalled]⟩
  answered t := ⟨3 * t, by omega, by simp [stalled]⟩
  consumed t := ⟨4 * t + 3, by omega, Or.inl (by simp [stalled])⟩

/-- The second word is read as 0. -/
def secondWrong (n : Nat) (_ : BitVec 4) : BitVec 8 := if n = 1 then 0 else 0x0f

theorem mask_transfer_twoWords :
    let sys := step (Settings.twoWords false) secondWrong (F := .fallThrough 3) (G := .buffered 1)
    (events sys reset stalled command 18 = [2, 5] ∧
      events sys reset stalled (comparison secondWrong) 18 = [(0x0f, 0x0f), (0, 0xaa)] ∧
      done (run sys reset stalled 18) = 2 ∧ (errorCount (run sys reset stalled 18)).toNat = 1) ∧
    ∃ T, 1 ≤ T ∧ ∀ t, T ≤ t → ready (run sys reset stalled t) = true ∧
      events sys reset stalled record t = [⟨5, 0, 0xaa⟩] := by
  obtain ⟨-, -, hsafe, -, hlive⟩ := mask_transfer (Settings.twoWords false) secondWrong reset stalled rfl reset_idle
    ⟨rfl, fun t => rfl⟩
  refine ⟨hsafe 18 (by decide) (by decide +kernel), ?_⟩
  obtain ⟨T, hT, hend⟩ := hlive stalled_fair
  exact ⟨T, hT, fun t ht => ⟨(hend t ht).1, (hend t ht).2 fun u => rfl⟩⟩

end Reader

end RowhammerTester.Gateware.Bist
