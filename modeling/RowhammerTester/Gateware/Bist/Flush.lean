import RowhammerTester.Gateware.Bist.ReaderInvariant

/-!
# Flushing the error records of the `Reader`

The scripts hold `skip_fifo` at 1 for a while before a transfer.

* `Cycle`, `cycle` : an edge of the Reader under settings that may change; `Reachable` : the states it comes to;
* `made` : the record of an error found in a cycle; `mem_held_cycle` : the records in the Reader are old or just made;
* `Flushed` : nothing is held and nothing comes until the next start (`Flushed.cycle`);
* `flush_iff` : the flush works exactly when the error register was free before it.
-/

namespace RowhammerTester.Gateware.Bist
open RowhammerTester.Hdl

namespace Reader

variable {aw w k rb : Nat} {F : Fifo (BitVec aw)} {G : Fifo (ErrorRecord w)}

/-- The settings, the words that the DMA returns and the inputs of a cycle. -/
structure Cycle (aw w k rb : Nat) where
  settings : Settings w k rb
  word : Nat → BitVec aw → BitVec w
  input : Input

/-- One clock edge. -/
def cycle (s : State F G k rb) (x : Cycle aw w k rb) : State F G k rb := step x.settings x.word s x.input

/-- The states that an idle Reader comes to. -/
inductive Reachable : State F G k rb → Prop
  | idle {s : State F G k rb} (h : Idle s) : Reachable s
  | cycle {s : State F G k rb} (h : Reachable s) (x : Cycle aw w k rb) : Reachable (cycle s x)

theorem Reachable.errorFifo {s : State F G k rb} (h : Reachable s) : G.Reached s.errorFifo := by
  induction h with
  | idle h => exact Fifo.Reached.empty h.errorFifo
  | cycle _ x ih => exact ih.step _ _ _

/-! ## Where records come from -/

/-- The record of an error found in a cycle. -/
def made (word : Nat → BitVec aw → BitVec w) (s : State F G k rb) (i : Input) : Option (ErrorRecord w) :=
  if taken word s i && (patternIn word s i).data != s.pattern.inverter.dataOut then
    some ⟨(patternIn word s i).address.setWidth 32, (patternIn word s i).data, s.pattern.inverter.dataOut⟩
  else none

section Step
variable {s : State F G k rb} {x : Cycle aw w k rb} {r : ErrorRecord w}

theorem mem_held : r ∈ held s ↔ s.error.fsm = .VALID ∧ r = s.error.reg ∨ r ∈ G.contents s.errorFifo ∨
    s.pattern.fsm = .WR_ERR ∧ r = s.pattern.sink := by
  unfold held
  rw [List.mem_append, List.mem_append, or_assoc]
  refine or_congr ?_ (or_congr Iff.rfl ?_)
  · cases s.error.fsm <;> simp
  · cases s.pattern.fsm <;> simp

theorem mem_held_of_record (h : record s x.input = some r) : r ∈ held s := by
  unfold record at h
  split at h
  · next hv =>
    cases h
    rw [Bool.and_eq_true, beq_iff_eq] at hv
    exact mem_held.mpr (Or.inl ⟨hv.1, rfl⟩)
  · cases h

/-- The error register holds what it held, or the head of the FIFO. -/
theorem errorStep_valid {e : Error w} {valid : Bool} {payload : ErrorRecord w} {skip ready : Bool}
    (h : (errorStep e valid payload skip ready).fsm = .VALID) :
    e.fsm = .VALID ∧ (errorStep e valid payload skip ready).reg = e.reg ∨
      valid = true ∧ (errorStep e valid payload skip ready).reg = payload := by
  obtain ⟨fsm, reg⟩ := e
  cases fsm <;> cases valid <;> cases skip <;> cases ready <;> simp_all [errorStep]

/-- The pattern FSM offers what it offered, or a record just made. -/
theorem patternStep_wrErr {cfg : Settings w k rb} {p : Pattern w k rb} {x : PatternIn aw w}
    (h : (patternStep cfg p x).fsm = .WR_ERR) :
    p.fsm = .WR_ERR ∧ (patternStep cfg p x).sink = p.sink ∨
      (p.takes x && x.data != p.inverter.dataOut) = true ∧
        (patternStep cfg p x).sink = ⟨x.address.setWidth 32, x.data, p.inverter.dataOut⟩ := by
  cases hf : p.fsm with
  | READY => cases hx : x.start <;> simp [patternStep, hf, hx, Pattern.clock] at h
  | COMPUTE_MEM_ADDR =>
    simp only [patternStep, hf] at h
    split at h <;> cases h
  | WAIT_FOR_DRAM_ADDR => cases hv : x.fifoValid <;> simp [patternStep, hf, hv, Pattern.clock] at h
  | INVERT_COMPUTE =>
    simp only [patternStep, hf] at h
    split at h <;> cases h
  | RD_DATA =>
    cases hv : x.sourceValid with
    | false => simp [patternStep, hf, hv, Pattern.clock] at h
    | true =>
      cases hd : x.data != p.inverter.dataOut with
      | false => simp [patternStep, hf, hv, hd] at h
      | true => exact Or.inr ⟨by simp [Pattern.takes, hf, hv], by simp [patternStep, hf, hv, hd]⟩
  | WR_ERR =>
    cases hr : x.errorReady || x.skipFifo with
    | true => simp [patternStep, hf, hr] at h
    | false => exact Or.inl ⟨rfl, by simp [patternStep, hf, hr, Pattern.clock]⟩

/-- A record in the Reader was there before, or was made in this cycle. -/
theorem mem_held_cycle (h : r ∈ held (cycle s x)) : r ∈ held s ∨ made x.word s x.input = some r := by
  rcases mem_held.mp h with ⟨hv, hr⟩ | hc | ⟨hw, hr⟩
  · rw [hr]
    rcases errorStep_valid hv with ⟨hv', hreg⟩ | ⟨hvalid, hreg⟩
    · exact Or.inl (mem_held.mpr (Or.inl ⟨hv', hreg⟩))
    · refine Or.inl (mem_held.mpr (Or.inr (Or.inl ?_)))
      have hmem := G.contents_of_valid hvalid
      rw [show (cycle s x).error.reg = G.payload s.errorFifo from hreg, hmem]
      exact List.mem_cons_self ..
  · rw [show (cycle s x).errorFifo = G.step s.errorFifo (s.pattern.fsm == .WR_ERR) s.pattern.sink
      (s.error.takes (G.valid s.errorFifo) x.input.errorReady) from rfl, G.contents_step, List.mem_append] at hc
    left
    rcases hc with hc | hc
    · refine mem_held.mpr (Or.inr (Or.inl ?_))
      split at hc
      · exact List.mem_of_mem_tail hc
      · exact hc
    · split at hc
      · next hpush =>
        rw [Bool.and_eq_true, beq_iff_eq] at hpush
        exact mem_held.mpr (Or.inr (Or.inr ⟨hpush.2, List.mem_singleton.mp hc⟩))
      · cases hc
  · rw [hr]
    rcases patternStep_wrErr hw with ⟨hw', hsink⟩ | ⟨hmade, hsink⟩
    · exact Or.inl (mem_held.mpr (Or.inr (Or.inr ⟨hw', hsink⟩)))
    · right
      rw [made, show taken x.word s x.input = s.pattern.takes (patternIn x.word s x.input) from rfl, if_pos hmade]
      exact congrArg some hsink.symm

/-! ## Quiet cycles -/

/-- The pattern FSM is in READY and no record is held. -/
structure Flushed (s : State F G k rb) : Prop where
  pattern : s.pattern.fsm = .READY
  errorFifo : G.contents s.errorFifo = []
  error : s.error.fsm = .INVALID

theorem Flushed.held_eq (h : Flushed s) : held s = [] := by
  rw [held, h.error, h.errorFifo, h.pattern]
  rfl

theorem cycle_ready (h : s.pattern.fsm = .READY) (hstart : x.input.start = false) :
    (cycle s x).pattern.fsm = .READY := by
  simp only [cycle, step, patternStep, h, patternIn, hstart]
  exact h

/-- Without a start nothing comes. -/
theorem Flushed.cycle (h : Flushed s) (hstart : x.input.start = false) : Flushed (Reader.cycle s x) := by
  have hvalid : G.valid s.errorFifo = false := by
    rw [← Bool.not_eq_true]
    exact fun hv => G.ne_nil_of_valid hv h.errorFifo
  refine ⟨cycle_ready h.pattern hstart, ?_, ?_⟩
  · simp only [Reader.cycle, step, h.pattern]
    exact G.contents_step_nil h.errorFifo _ _
  · simp only [Reader.cycle, step, errorStep, h.error, hvalid, Bool.false_eq_true, if_false]

/-- While errors are skipped and none is acknowledged the error FSM stays in its state. -/
theorem cycle_error (hskip : x.input.skipFifo = true) (hready : x.input.errorReady = false) :
    (cycle s x).error.fsm = s.error.fsm := by
  cases he : s.error.fsm <;> cases hv : G.valid s.errorFifo <;> simp [cycle, step, errorStep, he, hv, hskip, hready]

end Step

/-! ## The flush -/

section Run
variable {s : State F G k rb} {inp : Nat → Cycle aw w k rb}

theorem reachable_run (h : Reachable s) (t : Nat) : Reachable (run cycle s inp t) := by
  induction t with
  | zero => exact h
  | succ t ih => exact ih.cycle _

/-- Every record held later was held before or made since. -/
theorem mem_held_run {t₁ t : Nat} (ht : t₁ ≤ t) {r : ErrorRecord w} (h : r ∈ held (run cycle s inp t)) :
    r ∈ held (run cycle s inp t₁) ∨
      ∃ u, t₁ ≤ u ∧ u < t ∧ made (inp u).word (run cycle s inp u) (inp u).input = some r := by
  obtain ⟨d, rfl⟩ := Nat.exists_eq_add_of_le ht
  clear ht
  induction d with
  | zero => exact Or.inl h
  | succ d ih =>
    rcases mem_held_cycle h with h | h
    · rcases ih h with h | ⟨u, hu, hu', hmade⟩
      · exact Or.inl h
      · exact Or.inr ⟨u, hu, by omega, hmade⟩
    · exact Or.inr ⟨t₁ + d, by omega, by omega, h⟩

/-- The error FSM during the flush. -/
theorem run_cycle_error {t₁ : Nat} (hskip : ∀ t < t₁, (inp t).input.skipFifo = true)
    (hready : ∀ t < t₁, (inp t).input.errorReady = false) : ∀ t ≤ t₁, (run cycle s inp t).error.fsm = s.error.fsm := by
  intro t
  induction t with
  | zero => exact fun _ => rfl
  | succ t ih => exact fun ht => (cycle_error (hskip t ht) (hready t ht)).trans (ih (by omega))

theorem run_cycle_ready {t₀ t₁ : Nat} (h : (run cycle s inp t₀).pattern.fsm = .READY)
    (hquiet : ∀ t, t₀ ≤ t → t < t₁ → (inp t).input.start = false) :
    ∀ d, t₀ + d ≤ t₁ → (run cycle s inp (t₀ + d)).pattern.fsm = .READY := by
  intro d
  induction d with
  | zero => exact fun _ => h
  | succ d ih => exact fun hd => cycle_ready (ih (by omega)) (hquiet (t₀ + d) (by omega) (by omega))

/-- With the error FSM in INVALID the FIFO runs empty. -/
theorem run_flushed (hG : G.DrainsWithin 8) (hs : Reachable s) {t₀ t₁ : Nat}
    (hskip : ∀ t < t₁, (inp t).input.skipFifo = true) (hcont : ∀ t < t₁, (inp t).input.errorReady = false)
    (hready : (run cycle s inp t₀).pattern.fsm = .READY) (hquiet : ∀ t, t₀ ≤ t → t < t₁ → (inp t).input.start = false)
    (h8 : t₀ + 8 ≤ t₁) (he : s.error.fsm = .INVALID) : Flushed (run cycle s inp t₁) := by
  obtain ⟨d, rfl⟩ := Nat.exists_eq_add_of_le (show t₀ ≤ t₁ by omega)
  have hinvalid := run_cycle_error hskip hcont (s := s)
  have hpattern := run_cycle_ready hready hquiet
  refine ⟨hpattern d (Nat.le_refl _), ?_, (hinvalid _ (Nat.le_refl _)).trans he⟩
  refine hG.mono (show 8 ≤ d by omega) (fun t => (run cycle s inp (t₀ + t)).errorFifo)
    (fun t => (run cycle s inp (t₀ + t)).pattern.sink) (reachable_run hs t₀).errorFifo fun t ht => ?_
  have hinv : (run cycle s inp (t₀ + t)).error.fsm = .INVALID := (hinvalid _ (by omega)).trans he
  have hrd := hpattern t (by omega)
  rw [← Nat.add_assoc, run_succ]
  simp only [cycle, step, Error.takes, hinv, hrd]
  rfl

end Run

/-- **The flush.** From every reachable state, with `skip_fifo` at 1 until the pattern FSM is in READY and for at least
eight further cycles, no acknowledgement and no start in these: afterwards `error_ready` is 0 until the next start, and
every record delivered later was made later, exactly when `error_ready` was 0 at the beginning. -/
theorem flush_iff (hG : G.DrainsWithin 8) {s : State F G k rb} (hs : Reachable s) (inp : Nat → Cycle aw w k rb)
    (t₀ t₁ : Nat)
    (hskip : ∀ t < t₁, (inp t).input.skipFifo = true) (hcont : ∀ t < t₁, (inp t).input.errorReady = false)
    (hready : ready (run cycle s inp t₀) = true) (hquiet : ∀ t, t₀ ≤ t → t < t₁ → (inp t).input.start = false)
    (h8 : t₀ + 8 ≤ t₁) :
    ((∀ t, t₁ ≤ t → (∀ u, t₁ ≤ u → u < t → (inp u).input.start = false) → (run cycle s inp t).error.fsm ≠ .VALID) ∧
      ∀ t r, t₁ ≤ t → record (run cycle s inp t) (inp t).input = some r →
        ∃ u, t₁ ≤ u ∧ u < t ∧ made (inp u).word (run cycle s inp u) (inp u).input = some r) ↔
      s.error.fsm ≠ .VALID := by
  have hready' : (run cycle s inp t₀).pattern.fsm = .READY := beq_iff_eq.mp hready
  constructor
  · rintro ⟨hnone, -⟩
    rw [← run_cycle_error hskip hcont t₁ (Nat.le_refl _)]
    exact hnone t₁ (Nat.le_refl _) fun u hu hu' => absurd hu' (Nat.not_lt.mpr hu)
  · intro hne
    have he : s.error.fsm = .INVALID := by
      cases h : s.error.fsm with
      | INVALID => rfl
      | VALID => exact absurd h hne
    have hflushed := run_flushed hG hs hskip hcont hready' hquiet h8 he
    refine ⟨fun t ht hstart => ?_, fun t r ht hr => ?_⟩
    · obtain ⟨d, rfl⟩ := Nat.exists_eq_add_of_le ht
      have hall : ∀ d', d' ≤ d → Flushed (run cycle s inp (t₁ + d')) := by
        intro d'
        induction d' with
        | zero => exact fun _ => hflushed
        | succ d' ih => exact fun hd => (ih (by omega)).cycle (hstart (t₁ + d') (by omega) (by omega))
      rw [(hall d (Nat.le_refl _)).error]
      nofun
    · rcases mem_held_run ht (mem_held_of_record hr) with h | h
      · rw [hflushed.held_eq] at h
        cases h
      · exact h

/-- A transfer of one word that is not what was expected, with nobody to read the error. -/
def singleError (t : Nat) : Cycle 4 8 1 1 :=
  ⟨{ Settings.twoWords false with count := 1, rowbits_le := Settings.one_le_six }, fun _ _ => 0,
    ⟨t == 0, true, true, false, false⟩⟩

/-- `skip_fifo` at 1. -/
def skipping (_ : Nat) : Cycle 4 8 1 1 :=
  ⟨{ Settings.twoWords false with count := 1, rowbits_le := Settings.one_le_six }, fun _ _ => 0,
    ⟨false, true, true, true, false⟩⟩

/-- The Reader that reset leaves. -/
abbrev SmallState := State (Fifo.fallThrough 3 : Fifo (BitVec 4)) (Fifo.buffered 1 : Fifo (ErrorRecord 8)) 1 1

/-- The flush begins while the error is in front of the FIFO. -/
theorem flush_iff_pending : (run cycle (reset : SmallState) singleError 10).pattern.fsm = .WR_ERR ∧
    (run cycle (run cycle (reset : SmallState) singleError 10) skipping 10).error.fsm ≠ .VALID := by
  refine ⟨by decide +kernel, ((flush_iff ?_ (reachable_run (Reachable.idle reset_idle) 10) skipping 2 10
    (fun _ _ => rfl) (fun _ _ => rfl) ?_ (fun _ _ _ => rfl) (by decide)).mpr ?_).1 10 (by decide) (fun _ _ _ => rfl)⟩
  · exact (Fifo.buffered_drainsWithin 1).mono (by decide)
  · decide +kernel
  · decide +kernel

/-- The flush begins while the error is in the error register: it stays there. -/
theorem register_not_flushed : Reachable (run cycle (reset : SmallState) singleError 14) ∧
    ready (run cycle (run cycle (reset : SmallState) singleError 14) skipping 0) = true ∧
    (run cycle (run cycle (reset : SmallState) singleError 14) skipping 8).error.fsm = .VALID :=
  ⟨reachable_run (Reachable.idle reset_idle) 14, by decide +kernel, by decide +kernel⟩

end Reader

end RowhammerTester.Gateware.Bist
