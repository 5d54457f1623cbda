import RowhammerTester.Gateware.Refinement

/-!
# Consecutive payload runs

What a finished run leaves behind in the registers, and what the next run sees of it.

* `DfiPhase.command` : the command that a phase carries, if it is selected;
* `Agree` : two executors that will do the same; `agree_step` : one cycle of RUN or IDLE keeps them together and shows
  the same commands;
* `FirstRun` : the first cycle in RUN; `before_run` : the registers that a run starts with;
* `SameTrace` : equal command traces as long as the runs last; `Simulates.sameTrace` : how it is proved;
* `FallsThrough`, `FirstLoop` : the words a run passes up to its first LOOP; `Fallen.sameTrace` : without a LOOP the
  counter is not read;
* `At`, `Leads`, `Lasts` : the start of a word, the way from one to another in a number of cycles, the end of a run;
  `leads_passes` : the rounds that a first LOOP still makes;
* `runs_independent_iff` : when two runs are independent.
-/

namespace RowhammerTester.Gateware
open RowhammerTester.Hdl

/-- A selected command: chip select and strobes, bank and address. -/
structure DfiCommand where
  csN : Nat
  casN : Bool
  rasN : Bool
  weN : Bool
  bank : Nat
  address : Nat
deriving DecidableEq, Repr

/-- The command on a phase. -/
def DfiPhase.command (nranks : Nat) (p : DfiPhase) : Option DfiCommand :=
  if p.Deselected nranks then none else some ⟨p.csN, p.casN, p.rasN, p.weN, p.bank, p.address⟩

theorem DfiPhase.command_of_deselected {nranks : Nat} {p : DfiPhase} (h : p.Deselected nranks) :
    p.command nranks = none := if_pos h

/-- A clock edge of a phase shows the same command whatever the phase carried before. -/
theorem DfiExecutor.step_command (nranks : Nat) (decoder : Decoder) (exec : Bool) (phase i : Nat) (p q : DfiPhase) :
    (step nranks decoder exec phase i p).command nranks = (step nranks decoder exec phase i q).command nranks := by
  by_cases h : phase = i ∧ exec = true
  · unfold step DfiPhase.command DfiPhase.Deselected
    rw [if_pos h, if_pos h]
  · rw [DfiPhase.command_of_deselected (step_inactive p h), DfiPhase.command_of_deselected (step_inactive q h)]

namespace PayloadExecutor

/-! ## Two executors in step -/

/-- The registers that decide what a run does next. -/
structure Agree (s s' : State) : Prop where
  fsm : s.fsm = s'.fsm
  programCounter : s.programCounter = s'.programCounter
  loopCounter : s.loopCounter = s'.loopCounter
  instruction : s.instruction = s'.instruction
  idleCounter : s.fsm = .IDLE → s.idleCounter = s'.idleCounter

section Agree
variable {p : Params} {mem : Nat → BitVec 32} {s s' : State}

theorem Agree.decoder (h : Agree s s') : decoder p s = decoder p s' := by
  rw [PayloadExecutor.decoder, h.instruction, ← PayloadExecutor.decoder]

theorem Agree.exec (h : Agree s s') : exec p s = exec p s' := by
  rw [PayloadExecutor.exec, h.decoder, h.fsm, ← PayloadExecutor.exec]

theorem Agree.phase (h : Agree s s') : phase p s = phase p s' := by
  rw [PayloadExecutor.phase, h.exec, h.decoder, ← PayloadExecutor.phase]

theorem Agree.executing (h : Agree s s') : executing s = executing s' := by
  rw [PayloadExecutor.executing, h.fsm, ← PayloadExecutor.executing]

/-- The same commands whatever the inputs. -/
theorem Agree.command (h : Agree s s') (i i' : Input) (ph : Nat) :
    ((step p mem s i).phases ph).command p.nranks = ((step p mem s' i').phases ph).command p.nranks := by
  rw [step_phases, step_phases, h.decoder, h.exec, h.phase]
  exact DfiExecutor.step_command _ _ _ _ _ _ _

theorem Agree.terminates (h : Agree s s') : Terminates p s ↔ Terminates p s' := by
  rw [Terminates, h.programCounter, h.decoder, ← Terminates]

theorem Agree.fetchAddress (h : Agree s s') : fetchAddress p s = fetchAddress p s' := by
  have hidle := h.idleCounter
  unfold PayloadExecutor.fetchAddress
  rw [h.decoder, h.loopCounter, h.programCounter, ← h.fsm]
  cases hf : s.fsm with
  | READY => rfl
  | WAIT_DFI => rfl
  | RUN => rfl
  | IDLE => simp only [hidle hf]

/-- RUN leaves for READY or RUN in both, or for IDLE in both. -/
theorem agree_step_run (h : Agree s s') (hf : s.fsm = .RUN) (i i' : Input) :
    Agree (step p mem s i) (step p mem s' i') := by
  have hf' : s'.fsm = .RUN := h.fsm ▸ hf
  have hd : PayloadExecutor.decoder p s = PayloadExecutor.decoder p s' := h.decoder
  have hin : (step p mem s i).instruction = (step p mem s' i').instruction := by
    rw [step_instruction, step_instruction, h.fetchAddress]
  by_cases hexit : (PayloadExecutor.decoder p s).IsLoop ∨ (PayloadExecutor.decoder p s).timeslice = 0 ∨
      (PayloadExecutor.decoder p s).timeslice = 1
  · have hfsm := (step_run_exit p mem i hf hexit).1
    have hfsm' := (step_run_exit p mem i' hf' (hd ▸ hexit)).1
    rw [← if_congr h.terminates rfl rfl] at hfsm'
    have hne : (step p mem s i).fsm ≠ .IDLE := by rw [hfsm]; split <;> decide
    have hcounters : (step p mem s i).programCounter = (step p mem s' i').programCounter ∧
        (step p mem s i).loopCounter = (step p mem s' i').loopCounter := by
      by_cases hl : (PayloadExecutor.decoder p s).IsLoop
      · by_cases hc : s.loopCounter = (PayloadExecutor.decoder p s).loopCount
        · obtain ⟨e1, e2, -⟩ := step_run_fall p mem i hf hl hc
          obtain ⟨e1', e2', -⟩ := step_run_fall p mem i' hf' (hd ▸ hl) (by rw [← hd, ← h.loopCounter]; exact hc)
          exact ⟨by rw [e1, e1', h.programCounter], by rw [e2, e2']⟩
        · obtain ⟨e1, e2, -⟩ := step_run_jump p mem i hf hl hc
          obtain ⟨e1', e2', -⟩ := step_run_jump p mem i' hf' (hd ▸ hl) (by rw [← hd, ← h.loopCounter]; exact hc)
          exact ⟨by rw [e1, e1', h.programCounter, hd], by rw [e2, e2', h.loopCounter]⟩
      · obtain ⟨e1, e2, -⟩ := step_run_short p mem i hf hl (hexit.resolve_left hl)
        obtain ⟨e1', e2', -⟩ := step_run_short p mem i' hf' (hd ▸ hl) (hd ▸ hexit.resolve_left hl)
        exact ⟨by rw [e1, e1', h.programCounter], by rw [e2, e2', h.loopCounter]⟩
    exact ⟨hfsm.trans hfsm'.symm, hcounters.1, hcounters.2, hin, fun hidle => absurd hidle hne⟩
  · rw [not_or] at hexit
    obtain ⟨e1, e2, e3, e4, -⟩ := step_run_long p mem i hf hexit.1 (by omega)
    obtain ⟨e1', e2', e3', e4', -⟩ := step_run_long p mem i' hf' (hd ▸ hexit.1) (by rw [← hd]; omega)
    exact ⟨e1.trans e1'.symm, by rw [e3, e3', h.programCounter], by rw [e4, e4', h.loopCounter], hin,
      fun _ => by rw [e2, e2', hd]⟩

theorem agree_step_idle (h : Agree s s') (hf : s.fsm = .IDLE) (i i' : Input) :
    Agree (step p mem s i) (step p mem s' i') := by
  have hf' : s'.fsm = .IDLE := h.fsm ▸ hf
  have hin : (step p mem s i).instruction = (step p mem s' i').instruction := by
    rw [step_instruction, step_instruction, h.fetchAddress]
  have hidle := h.idleCounter hf
  by_cases hc : s.idleCounter = 0
  · obtain ⟨e1, e2, e3, -, -⟩ := step_idle_done p mem i hf hc
    obtain ⟨e1', e2', e3', -, -⟩ := step_idle_done p mem i' hf' (hidle ▸ hc)
    exact ⟨e1.trans e1'.symm, by rw [e2, e2', h.programCounter], by rw [e3, e3', h.loopCounter], hin,
      fun hi => absurd (e1.symm.trans hi) (by decide)⟩
  · obtain ⟨e1, e2, e3, e4, -⟩ := step_idle_wait p mem i hf hc
    obtain ⟨e1', e2', e3', e4', -⟩ := step_idle_wait p mem i' hf' (hidle ▸ hc)
    exact ⟨e1.trans e1'.symm, by rw [e3, e3', h.programCounter], by rw [e4, e4', h.loopCounter], hin,
      fun _ => by rw [e2, e2', hidle]⟩

/-- One cycle of RUN or IDLE reads no input. -/
theorem agree_step (h : Agree s s') (hx : executing s = true) (i i' : Input) :
    Agree (step p mem s i) (step p mem s' i') := by
  cases hf : s.fsm with
  | READY => simp [PayloadExecutor.executing, hf] at hx
  | WAIT_DFI => simp [PayloadExecutor.executing, hf] at hx
  | RUN => exact agree_step_run h hf i i'
  | IDLE => exact agree_step_idle h hf i i'

end Agree

/-! ## The first cycle of a run -/

/-- Cycle `r` is the first one in RUN. -/
def FirstRun (p : Params) (mem : Nat → BitVec 32) (s : State) (inp : Nat → Input) (r : Nat) : Prop :=
  (run (step p mem) s inp r).fsm = .RUN ∧ ∀ k < r, (run (step p mem) s inp k).fsm ≠ .RUN

/-- Before RUN the executor waits in READY and WAIT-DFI, without a command, and keeps its loop counter. -/
theorem before_run (p : Params) (mem : Nat → BitVec 32) {s : State} (hs : s.fsm = .READY) (inp : Nat → Input) (r : Nat)
    (hr : ∀ k < r, (run (step p mem) s inp k).fsm ≠ .RUN) :
    (run (step p mem) s inp r).fsm ≠ .IDLE ∧ (run (step p mem) s inp r).loopCounter = s.loopCounter ∧
      ((run (step p mem) s inp r).fsm = .RUN → (run (step p mem) s inp r).programCounter = 0 ∧
        (run (step p mem) s inp r).instruction = mem 0 ∧
        ∀ ph, ((run (step p mem) s inp r).phases ph).Deselected p.nranks) := by
  induction r with
  | zero =>
    rw [run_zero]
    refine ⟨by rw [hs]; decide, rfl, fun h => ?_⟩
    rw [hs] at h
    cases h
  | succ r ih =>
    obtain ⟨hidle, hlc, -⟩ := ih fun k hk => hr k (by omega)
    have hne := hr r (Nat.lt_succ_self r)
    have hdes := step_deselected p mem (inp r) (exec_of_not_run p hne)
    rw [run_succ]
    generalize run (step p mem) s inp r = u at *
    cases hf : u.fsm with
    | READY =>
      cases hst : (inp r).start with
      | false =>
        obtain ⟨e1, -, e3⟩ := step_ready p mem (inp r) hf hst
        exact ⟨by rw [e1]; decide, e3.trans hlc, fun h => absurd (e1.symm.trans h) (by decide)⟩
      | true =>
        obtain ⟨e1, -, e3⟩ := step_start p mem (inp r) hf hst
        exact ⟨by rw [e1]; decide, e3.trans hlc, fun h => absurd (e1.symm.trans h) (by decide)⟩
    | WAIT_DFI =>
      cases hrd : (inp r).dfiReady with
      | false =>
        obtain ⟨e1, -, e3⟩ := step_wait p mem (inp r) hf hrd
        exact ⟨by rw [e1]; decide, e3.trans hlc, fun h => absurd (e1.symm.trans h) (by decide)⟩
      | true =>
        obtain ⟨e1, -, e3, e4, e5⟩ := step_dfiReady p mem (inp r) hf hrd
        exact ⟨by rw [e1]; decide, e3.trans hlc, fun _ => ⟨e4, e5, hdes⟩⟩
    | RUN => exact absurd hf hne
    | IDLE => exact absurd hf hidle

/-! ## Traces -/

/-- Two runs send the same commands, cycle by cycle, as long as they last, and end in the same cycle. -/
def SameTrace (p : Params) (mem : Nat → BitVec 32) (s s' : State) (inp inp' : Nat → Input) : Prop :=
  ∀ k, (∀ j < k, executing (run (step p mem) s inp j) = true ∧ executing (run (step p mem) s' inp' j) = true) →
    executing (run (step p mem) s inp k) = executing (run (step p mem) s' inp' k) ∧
    ∀ ph, ((run (step p mem) s inp k).phases ph).command p.nranks =
      ((run (step p mem) s' inp' k).phases ph).command p.nranks

/-- A relation between executors that do the same in every cycle in which they execute. -/
structure Simulates (p : Params) (mem : Nat → BitVec 32) (R : State → State → Prop) : Prop where
  executing : ∀ {s s' : State}, R s s' → executing s = executing s'
  step : ∀ {s s' : State} (i i' : Input), R s s' → PayloadExecutor.executing s = true →
    R (step p mem s i) (step p mem s' i')
  command : ∀ {s s' : State} (i i' : Input) (ph : Nat), R s s' →
    ((PayloadExecutor.step p mem s i).phases ph).command p.nranks =
      ((PayloadExecutor.step p mem s' i').phases ph).command p.nranks

section Simulates
variable {p : Params} {mem : Nat → BitVec 32} {R : State → State → Prop} {s s' : State}

theorem Simulates.run (hR : Simulates p mem R) (h : R s s') (inp inp' : Nat → Input) (k : Nat)
    (hx : ∀ j < k, PayloadExecutor.executing (Hdl.run (PayloadExecutor.step p mem) s inp j) = true ∧
      PayloadExecutor.executing (Hdl.run (PayloadExecutor.step p mem) s' inp' j) = true) :
    R (Hdl.run (PayloadExecutor.step p mem) s inp k) (Hdl.run (PayloadExecutor.step p mem) s' inp' k) := by
  induction k with
  | zero => exact h
  | succ k ih => exact hR.step _ _ (ih fun j hj => hx j (by omega)) (hx k (Nat.lt_succ_self k)).1

theorem Simulates.sameTrace (hR : Simulates p mem R) (h : R s s') (hdes : ∀ ph, (s.phases ph).Deselected p.nranks)
    (hdes' : ∀ ph, (s'.phases ph).Deselected p.nranks) (inp inp' : Nat → Input) : SameTrace p mem s s' inp inp' := by
  intro k hx
  refine ⟨hR.executing (hR.run h inp inp' k hx), fun ph => ?_⟩
  cases k with
  | zero =>
    rw [run_zero, run_zero, DfiPhase.command_of_deselected (hdes ph), DfiPhase.command_of_deselected (hdes' ph)]
  | succ k => exact hR.command _ _ ph (hR.run h inp inp' k fun j hj => hx j (by omega))

end Simulates

theorem Agree.simulates (p : Params) (mem : Nat → BitVec 32) : Simulates p mem Agree :=
  ⟨Agree.executing, fun i i' h hx => agree_step h hx i i', fun i i' ph h => h.command i i' ph⟩

/-! ## The loop counter that a run leaves -/

theorem step_loopCounter_lt (p : Params) (mem : Nat → BitVec 32) {s : State} (i : Input) (h : s.loopCounter < 2 ^ 12) :
    (step p mem s i).loopCounter < 2 ^ 12 := by
  have hmod : (s.loopCounter + 1) % 2 ^ Decoder.LOOP_COUNT < 2 ^ 12 := Nat.mod_lt _ (by decide)
  have hzero : 0 < 2 ^ 12 := by decide
  simp only [step, stepFsm]
  split <;> split_ifs <;> first | exact h | exact hmod | exact hzero

theorem run_loopCounter_lt (p : Params) (mem : Nat → BitVec 32) (inp : Nat → Input) (t : Nat) :
    (run (step p mem) (reset p mem) inp t).loopCounter < 2 ^ 12 := by
  refine run_induction (P := fun s : State => s.loopCounter < 2 ^ 12) _ _ _ ?_ (fun u h => ?_) t
  · exact Nat.two_pow_pos 12
  · exact step_loopCounter_lt p mem (inp u) h

theorem step_loopCounter_of_not_loop (p : Params) (mem : Nat → BitVec 32) {s : State} (i : Input)
    (h : ¬ ((decoder p s).IsLoop ∧ s.fsm = .RUN)) : (step p mem s i).loopCounter = s.loopCounter := by
  simp only [step, stepFsm]
  split
  · split_ifs <;> rfl
  · split_ifs <;> rfl
  · next hf =>
    rw [if_neg fun hl => h ⟨hl, hf⟩]
    split_ifs <;> rfl
  · split_ifs <;> rfl

/-! ## Without a LOOP -/

section LoopCounter
variable {p : Params} {mem : Nat → BitVec 32} {s : State}

/-- The executor with another loop counter. -/
def State.withLoopCounter (s : State) (c : Nat) : State := { s with loopCounter := c }

@[simp] theorem withLoopCounter_fsm (s : State) (c : Nat) : (s.withLoopCounter c).fsm = s.fsm := rfl

@[simp] theorem withLoopCounter_programCounter (s : State) (c : Nat) :
    (s.withLoopCounter c).programCounter = s.programCounter := rfl

@[simp] theorem withLoopCounter_idleCounter (s : State) (c : Nat) :
    (s.withLoopCounter c).idleCounter = s.idleCounter := rfl

@[simp] theorem withLoopCounter_decoder (s : State) (c : Nat) : decoder p (s.withLoopCounter c) = decoder p s := rfl

@[simp] theorem withLoopCounter_terminates (s : State) (c : Nat) :
    Terminates p (s.withLoopCounter c) ↔ Terminates p s := Iff.rfl

theorem fetchAddress_withLoopCounter (h : ¬ ((decoder p s).IsLoop ∧ s.fsm = .RUN)) (c : Nat) :
    fetchAddress p (s.withLoopCounter c) = fetchAddress p s := by
  cases hf : s.fsm with
  | RUN =>
    have hl : ¬ (decoder p s).IsLoop := fun hl => h ⟨hl, hf⟩
    have hl' : ¬ (decoder p (s.withLoopCounter c)).IsLoop := hl
    simp only [fetchAddress, withLoopCounter_fsm, hf, if_neg hl, if_neg hl']
    rfl
  | IDLE =>
    simp only [fetchAddress, withLoopCounter_fsm, hf]
    rfl
  | _ => simp only [fetchAddress, withLoopCounter_fsm, hf]

theorem stepFsm_withLoopCounter (h : ¬ ((decoder p s).IsLoop ∧ s.fsm = .RUN)) (i : Input) (c : Nat) :
    stepFsm p (s.withLoopCounter c) i = (stepFsm p s i).withLoopCounter c := by
  have haddr := fetchAddress_withLoopCounter h c
  cases hf : s.fsm with
  | RUN =>
    have hl : ¬ (decoder p s).IsLoop := fun hl => h ⟨hl, hf⟩
    simp only [stepFsm, haddr, withLoopCounter_fsm, withLoopCounter_decoder, withLoopCounter_terminates, hf, if_neg hl]
    split_ifs <;> rfl
  | _ =>
    simp only [stepFsm, haddr, withLoopCounter_fsm, withLoopCounter_idleCounter, hf]
    split_ifs <;> rfl

/-- Only a LOOP reads the loop counter. -/
theorem step_withLoopCounter (h : ¬ ((decoder p s).IsLoop ∧ s.fsm = .RUN)) (i : Input) (c : Nat) :
    step p mem (s.withLoopCounter c) i = (step p mem s i).withLoopCounter c := by
  rw [step, step, stepFsm_withLoopCounter h, fetchAddress_withLoopCounter h]
  rfl
end LoopCounter

/-! ## Up to the first LOOP -/

/-- The word at `a` is no LOOP and does not end a run: a long one goes on even at the last address. -/
def FallsThrough (p : Params) (mem : Nat → BitVec 32) (a : Nat) : Prop :=
  ¬ (fetch p mem a).IsLoop ∧
    (2 ≤ (fetch p mem a).timeslice ∨ a ≠ p.depth - 1 ∧ (fetch p mem a).stop = false)

instance (p : Params) (mem : Nat → BitVec 32) (a : Nat) : Decidable (FallsThrough p mem a) :=
  inferInstanceAs (Decidable (_ ∧ _))

/-- The first LOOP that a run of the payload executes stands at `x`. At the last address a LOOP ends the run, whatever
the loop counter. -/
structure FirstLoop (p : Params) (mem : Nat → BitVec 32) (x : Nat) : Prop where
  lt : x < 2 ^ p.pcBits
  isLoop : (fetch p mem x).IsLoop
  notLast : x ≠ p.depth - 1
  before : ∀ a < x, FallsThrough p mem a

/-- An executor that has only passed words that fall through. -/
structure Fallen (p : Params) (mem : Nat → BitVec 32) (s : State) : Prop where
  lt : s.programCounter < 2 ^ p.pcBits
  loaded : s.fsm = .RUN → s.instruction = mem s.programCounter
  idle : s.fsm = .IDLE → FallsThrough p mem s.programCounter
  before : ∀ a < s.programCounter, FallsThrough p mem a

section Fallen
variable {p : Params} {mem : Nat → BitVec 32} {s s' : State}

theorem Fallen.decoder (h : Fallen p mem s) (hf : s.fsm = .RUN) : decoder p s = fetch p mem s.programCounter := by
  rw [PayloadExecutor.decoder, h.loaded hf, ← fetch]

/-- The next word behind one that falls through. -/
theorem Fallen.next (h : Fallen p mem s) (hpass : FallsThrough p mem s.programCounter) (hf : s'.fsm = .RUN)
    (hpc : s'.programCounter = (s.programCounter + 1) % 2 ^ p.pcBits)
    (hin : s'.instruction = mem ((s.programCounter + 1) % 2 ^ p.pcBits)) : Fallen p mem s' := by
  refine ⟨?_, fun _ => by rw [hin, hpc], fun h' => absurd (hf.symm.trans h') (by decide), fun a ha => ?_⟩
  · rw [hpc]
    exact Nat.mod_lt _ (Nat.two_pow_pos _)
  · have hle := Nat.mod_le (s.programCounter + 1) (2 ^ p.pcBits)
    rcases Nat.lt_or_eq_of_le (show a ≤ s.programCounter by omega) with hlt | rfl
    · exact h.before a hlt
    · exact hpass

theorem Fallen.step (h : Fallen p mem s) (hl : s.fsm = .RUN → ¬ (fetch p mem s.programCounter).IsLoop)
    (hx : executing s = true) (i : Input) (hx' : executing (PayloadExecutor.step p mem s i) = true) :
    Fallen p mem (PayloadExecutor.step p mem s i) := by
  cases hf : s.fsm with
  | READY => simp [PayloadExecutor.executing, hf] at hx
  | WAIT_DFI => simp [PayloadExecutor.executing, hf] at hx
  | RUN =>
    have hd := h.decoder hf
    have hl' : ¬ (PayloadExecutor.decoder p s).IsLoop := hd ▸ hl hf
    by_cases ht : (PayloadExecutor.decoder p s).timeslice = 0 ∨ (PayloadExecutor.decoder p s).timeslice = 1
    · obtain ⟨e1, -⟩ := step_run_exit p mem i hf (Or.inr ht)
      obtain ⟨e2, -, e3⟩ := step_run_short p mem i hf hl' ht
      have hT : ¬ Terminates p s := by
        intro hT
        rw [if_pos hT] at e1
        simp [PayloadExecutor.executing, e1] at hx'
      rw [if_neg hT] at e1
      rw [Terminates, not_or, hd] at hT
      exact h.next ⟨hl hf, Or.inr ⟨hT.1, by simpa using hT.2⟩⟩ e1 e2 e3
    · obtain ⟨e1, -, e2, -⟩ := step_run_long p mem i hf hl' (by omega)
      have hpass : FallsThrough p mem s.programCounter := ⟨hl hf, Or.inl (by rw [← hd]; omega)⟩
      exact ⟨e2 ▸ h.lt, fun h' => absurd (e1.symm.trans h') (by decide), fun _ => e2 ▸ hpass, e2 ▸ h.before⟩
  | IDLE =>
    by_cases hc : s.idleCounter = 0
    · obtain ⟨e1, e2, -, -, e3⟩ := step_idle_done p mem i hf hc
      exact h.next (h.idle hf) e1 e2 e3
    · obtain ⟨e1, -, e2, -⟩ := step_idle_wait p mem i hf hc
      exact ⟨e2 ▸ h.lt, fun h' => absurd (e1.symm.trans h') (by decide), fun _ => e2 ▸ h.idle hf, e2 ▸ h.before⟩

/-- Outside RUN and IDLE no command is sent. -/
theorem command_of_not_executing (i : Input) (h : executing s = false) (ph : Nat) :
    ((PayloadExecutor.step p mem s i).phases ph).command p.nranks = none := by
  refine DfiPhase.command_of_deselected (step_deselected p mem i (exec_of_not_run p fun hf => ?_) ph)
  simp [PayloadExecutor.executing, hf] at h

/-- Executors that have passed the same words, whatever their loop counters. -/
structure Passed (p : Params) (mem : Nat → BitVec 32) (s s' : State) : Prop where
  fallen : Fallen p mem s
  agree : Agree s (s'.withLoopCounter s.loopCounter)

/-- In a payload whose run comes to no LOOP before its end, the loop counter is not read. -/
theorem Passed.simulates (hno : ∀ x, ¬ FirstLoop p mem x) : Simulates p mem
    fun s s' => Passed p mem s s' ∨ PayloadExecutor.executing s = false ∧ PayloadExecutor.executing s' = false where
  executing := by
    rintro s s' (h | ⟨h, h'⟩)
    · exact h.agree.executing
    · rw [h, h']
  step := by
    rintro s s' i i' (h | ⟨h, -⟩) hx
    · have hd : PayloadExecutor.decoder p s = PayloadExecutor.decoder p s' := h.agree.decoder
      by_cases hl : (PayloadExecutor.decoder p s).IsLoop ∧ s.fsm = .RUN
      · -- the LOOP stands at the last address and ends both runs
        have hlast : s.programCounter = p.depth - 1 := by
          by_contra hne
          exact hno _ ⟨h.fallen.lt, h.fallen.decoder hl.2 ▸ hl.1, hne, h.fallen.before⟩
        have hT : Terminates p s := Or.inl hlast
        have hT' : Terminates p s' := Or.inl (h.agree.programCounter.symm.trans hlast)
        obtain ⟨e, -⟩ := step_run_exit p mem i hl.2 (Or.inl hl.1)
        obtain ⟨e', -⟩ := step_run_exit p mem (s := s') i' (h.agree.fsm.symm.trans hl.2) (Or.inl (hd ▸ hl.1))
        rw [if_pos hT] at e
        rw [if_pos hT'] at e'
        exact Or.inr ⟨by simp [PayloadExecutor.executing, e], by simp [PayloadExecutor.executing, e']⟩
      · have hl' : ¬ ((PayloadExecutor.decoder p s').IsLoop ∧ s'.fsm = .RUN) := fun hl' =>
          hl ⟨hd ▸ hl'.1, h.agree.fsm.trans hl'.2⟩
        have hagree : Agree (PayloadExecutor.step p mem s i)
            (PayloadExecutor.step p mem (s'.withLoopCounter s.loopCounter) i') := agree_step h.agree hx i i'
        rw [step_withLoopCounter hl', ← step_loopCounter_of_not_loop p mem i hl] at hagree
        cases hx' : PayloadExecutor.executing (PayloadExecutor.step p mem s i) with
        | true =>
          have hfallen := h.fallen.step (fun hf hloop => hl ⟨h.fallen.decoder hf ▸ hloop, hf⟩) hx i hx'
          exact Or.inl ⟨hfallen, hagree⟩
        | false => exact Or.inr ⟨rfl, hagree.executing.symm.trans hx'⟩
    · rw [h] at hx
      cases hx
  command := by
    rintro s s' i i' ph (h | ⟨h, h'⟩)
    · exact h.agree.command i i' ph
    · rw [command_of_not_executing i h, command_of_not_executing i' h']

end Fallen

/-! ## From the first LOOP on -/

/-- The executor is about to execute the word at `a`, with the loop counter at `c`. -/
structure At (mem : Nat → BitVec 32) (a c : Nat) (s : State) : Prop where
  fsm : s.fsm = .RUN
  programCounter : s.programCounter = a
  loopCounter : s.loopCounter = c
  instruction : s.instruction = mem a

/-- From `a` with the counter at `c` every run executes `n` cycles and is at `a'` with the counter at `c'`. -/
def Leads (p : Params) (mem : Nat → BitVec 32) (a c n a' c' : Nat) : Prop :=
  ∀ (s : State) (inp : Nat → Input), At mem a c s →
    (∀ k < n, executing (run (step p mem) s inp k) = true) ∧ At mem a' c' (run (step p mem) s inp n)

section Leads
variable {p : Params} {mem : Nat → BitVec 32} {s s' : State} {a c : Nat}

theorem At.decoder (h : At mem a c s) : decoder p s = fetch p mem a := by
  rw [PayloadExecutor.decoder, h.instruction, ← fetch]

theorem At.executing (h : At mem a c s) : executing s = true := by simp [PayloadExecutor.executing, h.fsm]

theorem At.agree (h : At mem a c s) (h' : At mem a c s') : Agree s s' := by
  refine ⟨h.fsm.trans h'.fsm.symm, h.programCounter.trans h'.programCounter.symm,
    h.loopCounter.trans h'.loopCounter.symm, h.instruction.trans h'.instruction.symm, fun hidle => ?_⟩
  rw [h.fsm] at hidle
  cases hidle

theorem Leads.refl (a c : Nat) : Leads p mem a c 0 a c := fun _ _ h => ⟨fun _ hk => absurd hk (Nat.not_lt_zero _), h⟩

theorem Leads.trans {n n' a' c' a'' c'' : Nat} (h : Leads p mem a c n a' c') (h' : Leads p mem a' c' n' a'' c'') :
    Leads p mem a c (n + n') a'' c'' := by
  intro s inp hs
  obtain ⟨hx, ha⟩ := h s inp hs
  obtain ⟨hx', ha'⟩ := h' _ (fun k => inp (n + k)) ha
  rw [run_add]
  refine ⟨fun k hk => ?_, ha'⟩
  by_cases hlt : k < n
  · exact hx k hlt
  · obtain ⟨j, rfl⟩ := Nat.exists_eq_add_of_le (Nat.le_of_not_lt hlt)
    rw [run_add]
    exact hx' j (by omega)

/-- One cycle. -/
theorem leads_one {a' c' : Nat} (h : ∀ (s : State) (i : Input), At mem a c s → At mem a' c' (step p mem s i)) :
    Leads p mem a c 1 a' c' := by
  refine fun s inp hs => ⟨fun k hk => ?_, h s (inp 0) hs⟩
  obtain rfl : k = 0 := by omega
  exact hs.executing

theorem leads_jump (hl : (fetch p mem a).IsLoop) (hlast : a ≠ p.depth - 1) (ha : a < 2 ^ p.pcBits)
    (hj : (fetch p mem a).loopJump ≤ a) (hc : c ≠ (fetch p mem a).loopCount) :
    Leads p mem a c 1 (a - (fetch p mem a).loopJump) ((c + 1) % 2 ^ 12) := by
  refine leads_one fun s i hs => ?_
  have hd : decoder p s = fetch p mem a := hs.decoder
  have hT : ¬ Terminates p s := by
    rintro (h | h)
    · exact hlast (hs.programCounter.symm.trans h)
    · exact Decoder.not_isLoop_of_stop h (show (PayloadExecutor.decoder p s).IsLoop from hd ▸ hl)
  obtain ⟨e1, -⟩ := step_run_exit p mem i hs.fsm (Or.inl (hd ▸ hl))
  obtain ⟨e2, e3, e4⟩ := step_run_jump p mem i hs.fsm (hd ▸ hl) (by rw [hs.loopCounter, hd]; exact hc)
  rw [if_neg hT] at e1
  rw [hs.programCounter, hd, subMod_of_le ha hj] at e2 e4
  exact ⟨e1, e2, by rw [e3, hs.loopCounter], e4⟩

theorem leads_fall (hl : (fetch p mem a).IsLoop) (hlast : a ≠ p.depth - 1) :
    Leads p mem a (fetch p mem a).loopCount 1 ((a + 1) % 2 ^ p.pcBits) 0 := by
  refine leads_one fun s i hs => ?_
  have hd : decoder p s = fetch p mem a := hs.decoder
  have hT : ¬ Terminates p s := by
    rintro (h | h)
    · exact hlast (hs.programCounter.symm.trans h)
    · exact Decoder.not_isLoop_of_stop h (show (PayloadExecutor.decoder p s).IsLoop from hd ▸ hl)
  obtain ⟨e1, -⟩ := step_run_exit p mem i hs.fsm (Or.inl (hd ▸ hl))
  obtain ⟨e2, e3, e4⟩ := step_run_fall p mem i hs.fsm (hd ▸ hl) (by rw [hs.loopCounter, hd])
  rw [if_neg hT] at e1
  rw [hs.programCounter] at e2 e4
  exact ⟨e1, e2, e3, e4⟩

variable (mem) in
/-- The rest of a long word. -/
theorem idle_leads {n : Nat} : ∀ (s : State) (inp : Nat → Input), s.fsm = .IDLE → s.idleCounter = n →
    s.programCounter = a → s.loopCounter = c →
    (∀ k < n + 1, executing (run (step p mem) s inp k) = true) ∧
      At mem ((a + 1) % 2 ^ p.pcBits) c (run (step p mem) s inp (n + 1)) := by
  induction n with
  | zero =>
    intro s inp hf hi hpc hlc
    obtain ⟨e1, e2, e3, -, e4⟩ := step_idle_done p mem (inp 0) hf hi
    rw [hpc] at e2 e4
    refine ⟨fun k hk => ?_, e1, e2, e3.trans hlc, e4⟩
    obtain rfl : k = 0 := by omega
    simp [executing, hf]
  | succ n ih =>
    intro s inp hf hi hpc hlc
    obtain ⟨e1, e2, e3, e4, -⟩ := step_idle_wait p mem (inp 0) hf (by omega)
    obtain ⟨hx, hat⟩ := ih _ (fun k => inp (k + 1)) e1 (by omega) (e3.trans hpc) (e4.trans hlc)
    rw [run_succ']
    refine ⟨fun k hk => ?_, hat⟩
    cases k with
    | zero => simp [executing, hf]
    | succ k =>
      rw [run_succ']
      exact hx k (by omega)

theorem leads_fallsThrough (h : FallsThrough p mem a) (c : Nat) :
    Leads p mem a c (fetch p mem a).cycles ((a + 1) % 2 ^ p.pcBits) c := by
  by_cases ht : (fetch p mem a).timeslice = 0 ∨ (fetch p mem a).timeslice = 1
  · rw [Decoder.cycles, if_neg h.1, show max 1 (fetch p mem a).timeslice = 1 by omega]
    refine leads_one fun s i hs => ?_
    have hd : decoder p s = fetch p mem a := hs.decoder
    obtain ⟨hlast, hstop⟩ := h.2.resolve_left (by omega)
    have hT : ¬ Terminates p s := by
      rw [Terminates, hs.programCounter, hd, hstop]
      simpa using hlast
    obtain ⟨e1, -⟩ := step_run_exit p mem i hs.fsm (Or.inr (hd ▸ ht))
    obtain ⟨e2, e3, e4⟩ := step_run_short p mem i hs.fsm (hd ▸ h.1) (hd ▸ ht)
    rw [if_neg hT] at e1
    rw [hs.programCounter] at e2 e4
    exact ⟨e1, e2, e3.trans hs.loopCounter, e4⟩
  · rw [Decoder.cycles, if_neg h.1,
      show max 1 (fetch p mem a).timeslice = (fetch p mem a).timeslice - 2 + 1 + 1 by omega]
    intro s inp hs
    have hd : decoder p s = fetch p mem a := hs.decoder
    obtain ⟨e1, e2, e3, e4, -⟩ := step_run_long p mem (inp 0) hs.fsm (hd ▸ h.1) (by rw [hd]; omega)
    rw [hd] at e2
    obtain ⟨hx, hat⟩ := idle_leads mem _ (fun k => inp (k + 1)) e1 e2 (e3.trans hs.programCounter)
      (e4.trans hs.loopCounter)
    rw [run_succ']
    refine ⟨fun k hk => ?_, hat⟩
    cases k with
    | zero => exact hs.executing
    | succ k =>
      rw [run_succ']
      exact hx k (by omega)

/-- Words that fall through are passed in a time that does not depend on the loop counter. -/
theorem leads_straight {x : Nat} (hx : x < 2 ^ p.pcBits) : ∀ {n a : Nat}, a + n = x →
    (∀ b, a ≤ b → b < x → FallsThrough p mem b) → ∃ t, ∀ c, Leads p mem a c t x c := by
  intro n
  induction n with
  | zero =>
    rintro a rfl -
    exact ⟨0, Leads.refl _⟩
  | succ n ih =>
    intro a ha hpass
    obtain ⟨t, ht⟩ := ih (a := a + 1) (by omega) fun b hb => hpass b (by omega)
    refine ⟨(fetch p mem a).cycles + t, fun c => ?_⟩
    have hfirst := leads_fallsThrough (hpass a (Nat.le_refl a) (by omega)) c
    rw [Nat.mod_eq_of_lt (by omega)] at hfirst
    exact hfirst.trans (ht c)

/-- One round of the first LOOP. -/
theorem FirstLoop.leads_round {x : Nat} (h : FirstLoop p mem x) (hj : (fetch p mem x).loopJump ≤ x) :
    ∃ t, 0 < t ∧ ∀ c ≠ (fetch p mem x).loopCount, Leads p mem x c t x ((c + 1) % 2 ^ 12) := by
  obtain ⟨t, ht⟩ := leads_straight h.lt (Nat.sub_add_cancel hj) fun b _ hb => h.before b hb
  exact ⟨1 + t, by omega, fun c hc => (leads_jump h.isLoop h.notLast h.lt hj hc).trans (ht _)⟩

/-- The rounds that a LOOP makes until the counter, which wraps, has reached its count. -/
theorem leads_rounds {x t : Nat}
    (ht : ∀ c ≠ (fetch p mem x).loopCount, Leads p mem x c t x ((c + 1) % 2 ^ 12)) {m : Nat} :
    ∀ {c : Nat}, m < 2 ^ 12 → (c + m) % 2 ^ 12 = (fetch p mem x).loopCount → c < 2 ^ 12 →
    Leads p mem x c (m * t) x (fetch p mem x).loopCount := by
  induction m with
  | zero =>
    intro c _ hc hlt
    rw [Nat.add_zero, Nat.mod_eq_of_lt hlt] at hc
    rw [Nat.zero_mul, hc]
    exact Leads.refl _ _
  | succ m ih =>
    intro c hm hc hlt
    have hne : c ≠ (fetch p mem x).loopCount := by omega
    rw [Nat.succ_mul, Nat.add_comm]
    exact (ht c hne).trans (ih (by omega) (by rw [← hc]; omega) (Nat.mod_lt _ (by decide)))

end Leads

/-! ## How long a run lasts -/

/-- The run executes for `n` cycles. -/
def Lasts (p : Params) (mem : Nat → BitVec 32) (s : State) (inp : Nat → Input) (n : Nat) : Prop :=
  (∀ k < n, executing (run (step p mem) s inp k) = true) ∧ executing (run (step p mem) s inp n) = false

section Lasts
variable {p : Params} {mem : Nat → BitVec 32} {s s' : State} {inp inp' : Nat → Input}

theorem exists_lasts (h : ∃ n, executing (run (step p mem) s inp n) = false) : ∃ n, Lasts p mem s inp n := by
  classical
  refine ⟨Nat.find h, fun k hk => ?_, Nat.find_spec h⟩
  simpa using Nat.find_min h hk

theorem Lasts.unique {n n' : Nat} (h : Lasts p mem s inp n) (h' : Lasts p mem s inp n') : n = n' := by
  rcases Nat.lt_trichotomy n n' with hlt | rfl | hgt
  · have := h'.1 n hlt
    rw [h.2] at this
    cases this
  · rfl
  · have := h.1 n' hgt
    rw [h'.2] at this
    cases this

/-- Runs that execute together last equally long. -/
theorem lasts_congr (h : ∀ k, (∀ j < k, executing (run (step p mem) s inp j) = true ∧
      executing (run (step p mem) s' inp' j) = true) →
      executing (run (step p mem) s inp k) = executing (run (step p mem) s' inp' k)) {n : Nat}
    (hn : Lasts p mem s' inp' n) : Lasts p mem s inp n := by
  have hx : ∀ k ≤ n, executing (run (step p mem) s inp k) = executing (run (step p mem) s' inp' k) := by
    intro k
    induction k using Nat.strong_induction_on with
    | _ k ih =>
      intro hk
      refine h k fun j hj => ?_
      rw [ih j hj (by omega)]
      exact ⟨hn.1 j (by omega), hn.1 j (by omega)⟩
  exact ⟨fun k hk => (hx k (by omega)).trans (hn.1 k hk), (hx n (Nat.le_refl n)).trans hn.2⟩

theorem SameTrace.lasts (h : SameTrace p mem s s' inp inp') {n : Nat} (hn : Lasts p mem s' inp' n) :
    Lasts p mem s inp n := lasts_congr (fun k hk => (h k hk).1) hn

theorem Agree.lasts (h : Agree s s') {n : Nat} (hn : Lasts p mem s' inp' n) : Lasts p mem s inp n :=
  lasts_congr (fun k hk => ((Agree.simulates p mem).run h inp inp' k hk).executing) hn

/-- The rest of a run behind its first `m` cycles. -/
theorem lasts_add_iff {m n : Nat} (h : ∀ k < m, executing (run (step p mem) s inp k) = true) :
    Lasts p mem s inp (m + n) ↔ Lasts p mem (run (step p mem) s inp m) (fun k => inp (m + k)) n := by
  simp only [Lasts, ← run_add]
  refine and_congr_left fun _ => ⟨fun hx k hk => hx (m + k) (by omega), fun hx k hk => ?_⟩
  by_cases hlt : k < m
  · exact h k hlt
  · obtain ⟨j, rfl⟩ := Nat.exists_eq_add_of_le (Nat.le_of_not_lt hlt)
    exact hx j (by omega)

/-- From a common word on, two runs last equally long. -/
theorem lasts_of_leads {a c a' c' a₀ c₀ n n' d : Nat} (hs : At mem a c s) (hs' : At mem a' c' s')
    (hto : Leads p mem a c n a₀ c₀) (hto' : Leads p mem a' c' n' a₀ c₀) (h' : Lasts p mem s' inp' (n' + d)) :
    Lasts p mem s inp (n + d) := by
  obtain ⟨hx, hat⟩ := hto s inp hs
  obtain ⟨hx', hat'⟩ := hto' s' inp' hs'
  rw [lasts_add_iff hx'] at h'
  rw [lasts_add_iff hx]
  exact (hat.agree hat').lasts h'

/-- A run that has executed `m` of its cycles has `m` cycles or more. -/
theorem Lasts.exists_add {n m : Nat} (h : Lasts p mem s inp n)
    (hm : ∀ k < m, executing (run (step p mem) s inp k) = true) : ∃ d, n = m + d := by
  refine Nat.exists_eq_add_of_le (Nat.le_of_not_lt fun hlt => ?_)
  have := hm n hlt
  rw [h.2] at this
  cases this

/-- **The first LOOP reads the counter**: with another counter than 0 a run that ends takes another time. -/
theorem FirstLoop.not_sameTrace {x c : Nat} (h : FirstLoop p mem x) (hj : (fetch p mem x).loopJump ≤ x)
    (hs : At mem 0 c s) (hs' : At mem 0 0 s') (hlt : c < 2 ^ 12) (hc : c ≠ 0)
    (hend : ∃ n, executing (run (step p mem) s' inp' n) = false) : ¬ SameTrace p mem s s' inp inp' := by
  intro hsame
  obtain ⟨n, hn⟩ := exists_lasts hend
  obtain ⟨t₀, hto⟩ := leads_straight h.lt (Nat.zero_add x) fun b _ hb => h.before b hb
  obtain ⟨t, ht, hround⟩ := h.leads_round hj
  have hcount : (fetch p mem x).loopCount < 2 ^ 12 := Decoder.loopCount_decode_lt _ _
  have hfall := leads_fall (p := p) h.isLoop h.notLast
  -- from 0 the LOOP makes `count` rounds, from `c` the rounds that bring the counter from `c` to `count`
  have hfrom : ∀ m c, m < 2 ^ 12 → (c + m) % 2 ^ 12 = (fetch p mem x).loopCount → c < 2 ^ 12 →
      Leads p mem 0 c (t₀ + m * t + 1) ((x + 1) % 2 ^ p.pcBits) 0 := fun m c hm hcm hlt =>
    ((hto c).trans (leads_rounds hround hm hcm hlt)).trans hfall
  have h0 := hfrom (fetch p mem x).loopCount 0 hcount (by omega) (by decide)
  have h1 := hfrom (((fetch p mem x).loopCount + (2 ^ 12 - c)) % 2 ^ 12) c (by omega) (by omega) hlt
  obtain ⟨d, rfl⟩ := hn.exists_add (h0 s' inp' hs').1
  have hlong : Lasts p mem s inp _ := lasts_of_leads hs hs' h1 h0 hn
  have heq := (hsame.lasts hn).unique hlong
  have hrounds : (fetch p mem x).loopCount * t = ((fetch p mem x).loopCount + (2 ^ 12 - c)) % 2 ^ 12 * t := by omega
  have := Nat.eq_of_mul_eq_mul_right ht hrounds
  omega

end Lasts

/-- With `start` and `dfi_ready` asserted, RUN follows two cycles after READY. -/
theorem firstRun_two (p : Params) (mem : Nat → BitVec 32) {s : State} (hs : s.fsm = .READY) :
    FirstRun p mem s (fun _ => ⟨true, true⟩) 2 := by
  have h1 := (step_start p mem (s := s) ⟨true, true⟩ hs rfl).1
  refine ⟨(step_dfiReady p mem ⟨true, true⟩ h1 rfl).1, fun k hk => ?_⟩
  obtain rfl | rfl : k = 0 ∨ k = 1 := by omega
  · rw [run_zero, hs]
    decide
  · rw [run_succ, run_zero, h1]
    decide

/-! ## Independent runs -/

theorem FirstRun.at {p : Params} {mem : Nat → BitVec 32} {s : State} {inp : Nat → Input} {r : Nat}
    (hr : FirstRun p mem s inp r) (hs : s.fsm = .READY) : At mem 0 s.loopCounter (run (step p mem) s inp r) := by
  obtain ⟨-, hlc, hrun⟩ := before_run p mem hs inp r hr.2
  obtain ⟨hpc, hin, -⟩ := hrun hr.1
  exact ⟨hr.1, hpc, hlc, hin⟩

theorem FirstRun.deselected {p : Params} {mem : Nat → BitVec 32} {s : State} {inp : Nat → Input} {r : Nat}
    (hr : FirstRun p mem s inp r) (hs : s.fsm = .READY) (ph : Nat) :
    ((run (step p mem) s inp r).phases ph).Deselected p.nranks := by
  obtain ⟨-, -, hrun⟩ := before_run p mem hs inp r hr.2
  exact (hrun hr.1).2.2 ph

/-- Two starts of one payload whose run comes to no LOOP. -/
theorem At.passed {p : Params} {mem : Nat → BitVec 32} {s s' : State} {c c' : Nat} (h : At mem 0 c s)
    (h' : At mem 0 c' s') : Passed p mem s s' := by
  refine ⟨⟨?_, fun _ => ?_, fun hidle => ?_, fun a ha => ?_⟩, ?_⟩
  · rw [h.programCounter]
    exact Nat.two_pow_pos _
  · rw [h.instruction, h.programCounter]
  · rw [h.fsm] at hidle
    cases hidle
  · rw [h.programCounter] at ha
    exact absurd ha (Nat.not_lt_zero a)
  · exact h.agree ⟨h'.fsm, h'.programCounter, h.loopCounter, h'.instruction⟩

/-- **Independent runs.** A run of `mem₁` is back in READY, and `mem₂` is run from there and from reset. The two runs of
`mem₂` send the same commands if the run of `mem₁` has left the loop counter at 0 or `mem₂` comes to no LOOP; if the run
of `mem₂` ends and its first LOOP does not jump below address 0, they do so only then. -/
theorem runs_independent_iff (p : Params) (mem₁ mem₂ : Nat → BitVec 32) (inp₁ inp inp' : Nat → Input) (t₁ r r' : Nat)
    (hready : (run (step p mem₁) (reset p mem₁) inp₁ t₁).fsm = .READY)
    (hr : FirstRun p mem₂ (run (step p mem₁) (reset p mem₁) inp₁ t₁) inp r)
    (hr' : FirstRun p mem₂ (reset p mem₂) inp' r') :
    (((run (step p mem₁) (reset p mem₁) inp₁ t₁).loopCounter = 0 ∨ ∀ x, ¬ FirstLoop p mem₂ x) →
      SameTrace p mem₂ (run (step p mem₂) (run (step p mem₁) (reset p mem₁) inp₁ t₁) inp r)
        (run (step p mem₂) (reset p mem₂) inp' r') (fun k => inp (r + k)) (fun k => inp' (r' + k))) ∧
    ((∃ n, executing (run (step p mem₂) (reset p mem₂) inp' (r' + n)) = false) →
      (∀ x, FirstLoop p mem₂ x → (fetch p mem₂ x).loopJump ≤ x) →
      (SameTrace p mem₂ (run (step p mem₂) (run (step p mem₁) (reset p mem₁) inp₁ t₁) inp r)
          (run (step p mem₂) (reset p mem₂) inp' r') (fun k => inp (r + k)) (fun k => inp' (r' + k)) ↔
        (run (step p mem₁) (reset p mem₁) inp₁ t₁).loopCounter = 0 ∨ ∀ x, ¬ FirstLoop p mem₂ x)) := by
  have hat := hr.at hready
  have hat' : At mem₂ 0 0 _ := hr'.at rfl
  have hsame : ((run (step p mem₁) (reset p mem₁) inp₁ t₁).loopCounter = 0 ∨ ∀ x, ¬ FirstLoop p mem₂ x) →
      SameTrace p mem₂ (run (step p mem₂) (run (step p mem₁) (reset p mem₁) inp₁ t₁) inp r)
        (run (step p mem₂) (reset p mem₂) inp' r') (fun k => inp (r + k)) (fun k => inp' (r' + k)) := by
    rintro (hlc | hno)
    · rw [hlc] at hat
      exact (Agree.simulates p mem₂).sameTrace (hat.agree hat') (hr.deselected hready) (hr'.deselected rfl) _ _
    · exact (Passed.simulates hno).sameTrace (Or.inl (hat.passed hat')) (hr.deselected hready) (hr'.deselected rfl) _ _
  refine ⟨hsame, fun hend hjump => ⟨fun htrace => ?_, hsame⟩⟩
  by_contra hnot
  obtain ⟨hlc, hno⟩ := not_or.mp hnot
  obtain ⟨x, hx⟩ := not_forall_not.mp hno
  simp only [run_add] at hend
  exact hx.not_sameTrace (hjump x hx) hat hat' (run_loopCounter_lt p mem₁ inp₁ t₁) hlc hend htrace

/-- The loop of `readTwice` is finished before its STOP: its second run repeats the first. -/
theorem runs_independent_readTwice :
    SameTrace smallParams readTwice
      (run (step smallParams readTwice)
        (run (step smallParams readTwice) (reset smallParams readTwice) (fun _ => ⟨true, true⟩) 9)
          (fun _ => ⟨true, true⟩) 2)
      (run (step smallParams readTwice) (reset smallParams readTwice) (fun _ => ⟨true, true⟩) 2)
      (fun _ => ⟨true, true⟩) (fun _ => ⟨true, true⟩) := by
  have hready : (run (step smallParams readTwice) (reset smallParams readTwice) (fun _ => ⟨true, true⟩) 9).fsm =
    .READY := by
    decide +kernel
  have hjump : ∀ x, FirstLoop smallParams readTwice x → (fetch smallParams readTwice x).loopJump ≤ x := by
    intro x hx
    have hlt : x < 4 := hx.lt
    interval_cases x <;> decide +kernel
  have hend : executing
      (run (step smallParams readTwice) (reset smallParams readTwice) (fun _ => ⟨true, true⟩) (2 + 7)) = false := by
    decide +kernel
  exact ((runs_independent_iff smallParams readTwice readTwice (fun _ => ⟨true, true⟩) _ _ 9 2 2 hready
    (firstRun_two _ _ hready) (firstRun_two _ _ rfl)).2 ⟨7, hend⟩ hjump).mpr (Or.inl (by decide +kernel))

/-- A LOOP to itself at address 0, and ACT everywhere else. -/
def spin (count a : Nat) : BitVec 32 :=
  if a = 0 then Encoder.word (Encoder.I.loop count 0) else Encoder.word (Encoder.I.dfi .ACT 1 none)

/-- A LOOP at the last address. -/
def lateLoop (a : Nat) : BitVec 32 :=
  if a = 3 then Encoder.word (Encoder.I.loop 1 0) else Encoder.word (Encoder.I.noop 1)

/-- The run of `lateLoop` ends with its LOOP taken, and the next payload skips its own first loop. -/
theorem late_loop_leaks :
    (run (step smallParams lateLoop) (reset smallParams lateLoop) (fun _ => ⟨true, true⟩) 6).fsm = .READY ∧
    FirstRun smallParams (spin 1)
      (run (step smallParams lateLoop) (reset smallParams lateLoop) (fun _ => ⟨true, true⟩) 6)
        (fun _ => ⟨true, true⟩) 2 ∧
    FirstRun smallParams (spin 1) (reset smallParams (spin 1)) (fun _ => ⟨true, true⟩) 2 ∧
    ¬ SameTrace smallParams (spin 1)
      (run (step smallParams (spin 1))
        (run (step smallParams lateLoop) (reset smallParams lateLoop) (fun _ => ⟨true, true⟩) 6)
          (fun _ => ⟨true, true⟩) 2)
      (run (step smallParams (spin 1)) (reset smallParams (spin 1)) (fun _ => ⟨true, true⟩) 2)
      (fun _ => ⟨true, true⟩) (fun _ => ⟨true, true⟩) := by
  have hready : (run (step smallParams lateLoop) (reset smallParams lateLoop) (fun _ => ⟨true, true⟩) 6).fsm =
    .READY := by
    decide +kernel
  refine ⟨hready, firstRun_two _ _ hready, firstRun_two _ _ rfl, fun h => ?_⟩
  have htwo := (h 2 (by decide +kernel)).2 0
  exact absurd htwo (by decide +kernel)

end PayloadExecutor

end RowhammerTester.Gateware
