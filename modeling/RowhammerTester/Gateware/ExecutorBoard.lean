import Mathlib.Data.Nat.Nth
import RowhammerTester.Gateware.Handover
import RowhammerTester.Hdl.Host

/-!
# The payload executor on the bus

The payload memory, the executor with the DFI switch and their CSRs, and what the executor puts on the DFI master.

* `Access`, `Board`, `clock`, `answer`, `device` : the accesses of the host and the device;
* `Harmless`, `shadow` : those of a host that waits do not matter;
* `Idle`, `Requested` : no payload is executed; one is requested (`Idle.start`);
* `Refreshes`, `exists_handOver` : the memory controller refreshes again and again, so the DFI is handed over;
* `Carries tr L` : the DFI words `L` carry the commands of the run `tr`, each in its cycle;
* `Requested.executes` : what a request leads to, edge by edge.
-/

namespace RowhammerTester.Gateware
open RowhammerTester.Hdl PayloadExecutor

/-! ## The end of a run -/

namespace Interp
variable {fetch : Nat → Decoder}

/-- A run does not go past a STOP. -/
theorem pc_le_of_stop {L : Nat} (hL : (fetch L).stop = true) : ∀ {fuel : Nat} {st : State} {tr : List Visit},
    st.pc ≤ L → run fetch fuel st = some tr → ∀ v ∈ tr, v.pc ≤ L := by
  intro fuel
  induction fuel with
  | zero =>
    intro st tr _ hrun
    cases hrun
  | succ fuel ih =>
    intro st tr hle hrun v hv
    obtain ⟨-, rfl⟩ | ⟨hs, st', tr', hn, hrun', rfl⟩ := run_succ_cases hrun
    · rw [List.mem_singleton.mp hv]
      exact hle
    · have hlt : st.pc ≠ L := by
        intro heq
        rw [heq, hL] at hs
        cases hs
      have hle' : st'.pc ≤ L := by
        obtain ⟨-, -, -, rfl⟩ | ⟨-, -, rfl⟩ | ⟨-, rfl⟩ := next_cases hn <;> (simp only; omega)
      obtain rfl | hv := List.mem_cons.mp hv
      · exact hle
      · exact ih hle' hrun' v hv

theorem duration_pos {fuel : Nat} {st : State} {tr : List Visit} (hrun : run fetch fuel st = some tr) :
    0 < duration Visit.cycles tr := by
  cases fuel with
  | zero => cases hrun
  | succ fuel =>
    obtain ⟨-, rfl⟩ | ⟨-, _, _, -, -, rfl⟩ := run_succ_cases hrun <;>
      (rw [duration_cons]; exact Nat.add_pos_left (Decoder.cycles_pos _) _)

/-- A loop is going on: its LOOP is ahead, and no STOP before it. -/
def Looping (fetch : Nat → Decoder) (st : State) : Prop :=
  ∃ l, st.pc ≤ l ∧ (fetch l).IsLoop ∧ ∀ a ≤ l, (fetch a).stop = false

/-- The loop counter is 0 unless a loop is going on. -/
theorem looping_next {st st' : State} (hn : next (fetch st.pc) st = some st')
    (hstops : ∀ a ≤ st.pc, (fetch a).stop = false) (h : st.loopCounter ≠ 0 → Looping fetch st) :
    st'.loopCounter ≠ 0 → Looping fetch st' := by
  intro hne
  obtain ⟨hl, -, -, rfl⟩ | ⟨-, -, rfl⟩ | ⟨hl, rfl⟩ := next_cases hn
  · exact ⟨st.pc, Nat.sub_le _ _, hl, hstops⟩
  · exact absurd rfl hne
  · obtain ⟨l, hle, hloop, hbefore⟩ := h hne
    have hlt : st.pc ≠ l := by
      rintro rfl
      exact hl hloop
    exact ⟨l, by simp only; omega, hloop, hbefore⟩

end Interp

namespace PayloadExecutor
variable {p : Params} {mem : Nat → BitVec 32}

/-- In its last cycle the executor starts the STOP, with its loop counter at 0. -/
theorem run_last {fuel : Nat} : ∀ {st : Interp.State} {s : State} {tr : List Interp.Visit} (inp : Nat → Input),
    (∀ a < st.pc, (fetch p mem a).stop = false) → (st.loopCounter ≠ 0 → Interp.Looping (fetch p mem) st) →
    Interp.run (fetch p mem) fuel st = some tr → (∀ v ∈ tr, v.pc < p.depth - 1) → Sim p mem st s →
    st.loopCounter < 2 ^ 12 → ∃ a, (fetch p mem a).stop = true ∧
      Sim p mem ⟨a, 0⟩ (run (step p mem) s inp (duration Interp.Visit.cycles tr - 1)) := by
  induction fuel with
  | zero =>
    intro st s tr inp _ _ hrun
    cases hrun
  | succ fuel ih =>
    intro st s tr inp hstops hloop hrun hvisit hsim hcount
    obtain ⟨hs, rfl⟩ | ⟨hs, st', tr', hn, hrun', rfl⟩ := Interp.run_succ_cases hrun
    · rw [duration_cons, duration_nil, Interp.Visit.cycles, cycles_stop hs]
      have hzero : st.loopCounter = 0 := by
        apply Classical.byContradiction
        intro hne
        obtain ⟨l, hle, -, hbefore⟩ := hloop hne
        rw [hbefore st.pc hle] at hs
        cases hs
      exact ⟨st.pc, hs, hsim.fsm, hsim.pc, hsim.counter.trans hzero, hsim.instruction, hsim.wantsDfi⟩
    · have hvisit' : ∀ v ∈ tr', v.pc < p.depth - 1 := fun v hv => hvisit v (List.mem_cons_of_mem _ hv)
      have hpc' : st'.pc < p.depth - 1 := by
        cases fuel with
        | zero => cases hrun'
        | succ fuel =>
          obtain ⟨-, rfl⟩ | ⟨-, _, _, -, -, rfl⟩ := Interp.run_succ_cases hrun' <;>
            exact hvisit' _ List.mem_cons_self
      have hstops₁ : ∀ a ≤ st.pc, (fetch p mem a).stop = false := by
        intro a ha
        obtain ha | rfl := Nat.lt_or_eq_of_le ha
        · exact hstops a ha
        · exact hs
      have hstops' : ∀ a < st'.pc, (fetch p mem a).stop = false := by
        intro a ha
        obtain ⟨-, -, -, rfl⟩ | ⟨-, -, rfl⟩ | ⟨-, rfl⟩ := Interp.next_cases hn <;>
          exact hstops₁ a (by simp only at ha; omega)
      have hc := loopCounter_lt hcount hstops₁ hn hrun'
      obtain ⟨-, hsim'⟩ := sim_next inp hsim hs hn (hvisit _ List.mem_cons_self) hpc' hc
      obtain ⟨a, hstop, hlast⟩ := ih (fun k => inp ((fetch p mem st.pc).cycles + k)) hstops'
        (Interp.looping_next hn hstops₁ hloop) hrun' hvisit' hsim' hc
      have hpos := Interp.duration_pos hrun'
      refine ⟨a, hstop, ?_⟩
      rw [duration_cons, Nat.add_sub_assoc hpos, run_add]
      exact hlast

/-- The STOP leaves the loop counter as it is. -/
theorem Sim.stop_counter {st : Interp.State} {s : State} (h : Sim p mem st s) (hs : (fetch p mem st.pc).stop = true)
    (i : Input) : (step p mem s i).loopCounter = st.loopCounter := by
  have hl : ¬ (PayloadExecutor.decoder p s).IsLoop := by
    rw [h.decoder]
    exact Decoder.not_isLoop_of_stop hs
  have hts : (PayloadExecutor.decoder p s).timeslice = 0 := by
    rw [h.decoder]
    exact (Decoder.stop_decode hs).2
  exact (step_run_short p mem i h.fsm hl (Or.inl hts)).2.1.trans h.counter

/-- The DFI is wanted as long as the run lasts. -/
theorem wantsDfi_run {s : State} {inp : Nat → Input} {n : Nat}
    (hbusy : ∀ k < n, executing (run (step p mem) s inp k) = true)
    (hlast : (run (step p mem) s inp (n - 1)).wantsDfi = true) :
    ∀ k < n, (run (step p mem) s inp k).wantsDfi = true := by
  have hback : ∀ d, d < n → (run (step p mem) s inp (n - 1 - d)).wantsDfi = true := by
    intro d
    induction d with
    | zero => exact fun _ => hlast
    | succ d ih =>
      intro hd
      have hnext := ih (by omega)
      rw [show n - 1 - d = n - 1 - (d + 1) + 1 by omega, run_succ] at hnext
      obtain hw | ⟨hready, -⟩ := wantsDfi_of_step hnext
      · exact hw
      · have := hbusy (n - 1 - (d + 1)) (by omega)
        rw [executing, hready] at this
        cases this
  intro k hk
  have := hback (n - 1 - k) (by omega)
  rwa [show n - 1 - (n - 1 - k) = k by omega] at this

end PayloadExecutor

namespace ExecutorBoard

/-! ## The device -/

/-- What `execute_payload` and the attacks read and write. -/
inductive Access where
  | store (i v : Nat)
  | start
  | writeRefresh (v : Nat)
  | readStatus
  | readRefresh
  | readAtRefresh
  | updateRefreshCount
  | readRefreshCount
deriving DecidableEq, Repr

/-- The payload memory, the executor with the switch, and the storages of `controller_settings_refresh` and
`dfi_switch_at_refresh`; `words` are the DFI words that the DFI master has taken from the executor, oldest first. -/
structure Board where
  memory : Nat → BitVec 32
  system : System
  withRefresh : Bool
  atRefresh : Nat
  words : List (Nat → DfiPhase)

section Clock
variable (p : Params) (ddr5 : Bool) (b : Board) (controller : DfiPhase) (a : Option Access)

def input : System.Input :=
  ⟨a == some .start,
    ⟨Handover.master b.system controller, b.withRefresh, b.atRefresh, a == some .updateRefreshCount⟩⟩

/-- One clock edge; `controller` is phase 0 of the memory controller. -/
def clock : Board where
  memory := match a with
    | some (.store i v) => if i < p.depth then Function.update b.memory i (BitVec.ofNat 32 v) else b.memory
    | _ => b.memory
  system := System.step p ddr5 b.memory b.system (input b controller a)
  withRefresh := match a with
    | some (.writeRefresh v) => v.testBit 0
    | _ => b.withRefresh
  atRefresh := b.atRefresh
  words := b.words ++ if DfiSwitch.dfiReady b.system.switch then [b.system.executor.phases] else []

/-- What an access reads; the lowest bit of the status is `ready`. -/
def answer : Access → Nat
  | .readStatus => (ready b.system.executor).toNat
  | .readRefresh => b.withRefresh.toNat
  | .readAtRefresh => b.atRefresh
  | .readRefreshCount => b.system.switch.refreshCount
  | _ => 0

end Clock

/-- The board as a device on the bus. -/
def device (p : Params) (ddr5 : Bool) : Device Board DfiPhase Access Nat := ⟨clock p ddr5, answer⟩

variable {p : Params} {ddr5 : Bool} {b b' : Board} {before : List (Nat → DfiPhase)}

/-! ## Accesses that do not matter -/

/-- The access only reads, or updates the `refresh_count` CSR. -/
def Harmless : Access → Prop
  | .store _ _ | .start | .writeRefresh _ => False
  | .readStatus | .readRefresh | .readAtRefresh | .updateRefreshCount | .readRefreshCount => True

/-- The boards differ in the `refresh_count` CSR only. -/
structure Same (b b' : Board) : Prop where
  memory : b.memory = b'.memory
  executor : b.system.executor = b'.system.executor
  fsm : b.system.switch.fsm = b'.system.switch.fsm
  counter : b.system.switch.counter = b'.system.switch.counter
  withRefresh : b.withRefresh = b'.withRefresh
  atRefresh : b.atRefresh = b'.atRefresh
  words : b.words = b'.words

theorem Same.dfiReady (h : Same b b') : DfiSwitch.dfiReady b.system.switch = DfiSwitch.dfiReady b'.system.switch := by
  rw [DfiSwitch.dfiReady, h.fsm, ← DfiSwitch.dfiReady]

variable (p ddr5) in
theorem clock_of_harmless {a : Option Access} (ha : ∀ x, a = some x → Harmless x) (x : DfiPhase) :
    (clock p ddr5 b x a).memory = b.memory ∧ (clock p ddr5 b x a).withRefresh = b.withRefresh ∧
      (input b x a).start = false := by
  match a with
  | none | some .readStatus | some .readRefresh | some .readAtRefresh | some .updateRefreshCount
  | some .readRefreshCount => exact ⟨rfl, rfl, rfl⟩
  | some (.store i v) => exact (ha _ rfl).elim
  | some .start => exact (ha _ rfl).elim
  | some (.writeRefresh v) => exact (ha _ rfl).elim

theorem Same.clock (h : Same b b') (controller : DfiPhase) {a a' : Option Access} (ha : ∀ x, a = some x → Harmless x)
    (ha' : ∀ x, a' = some x → Harmless x) : Same (clock p ddr5 b controller a) (clock p ddr5 b' controller a') := by
  obtain ⟨hmemory, hrefresh, hstart⟩ := clock_of_harmless p ddr5 (b := b) ha controller
  obtain ⟨hmemory', hrefresh', hstart'⟩ := clock_of_harmless p ddr5 (b := b') ha' controller
  have hmaster : Handover.master b.system controller = Handover.master b'.system controller := by
    rw [Handover.master, h.dfiReady, h.executor, ← Handover.master]
  refine ⟨?_, ?_, ?_, ?_, ?_, h.atRefresh, ?_⟩
  · rw [hmemory, hmemory', h.memory]
  · simp only [ExecutorBoard.clock, System.step, System.executorInput, hstart, hstart', h.dfiReady, h.executor,
      h.memory]
  · simp only [ExecutorBoard.clock, System.step, DfiSwitch.step, DfiSwitch.nextFsm, DfiSwitch.refreshMatches, input,
      hmaster, h.executor, h.fsm, h.counter, h.withRefresh, h.atRefresh]
    rfl
  · simp only [ExecutorBoard.clock, System.step, DfiSwitch.step, input, hmaster, h.counter]
    rfl
  · rw [hrefresh, hrefresh', h.withRefresh]
  · simp only [ExecutorBoard.clock, h.words, h.dfiReady, h.executor]

theorem harmless_none {x : Access} (h : none = some x) : Harmless x := nomatch h

/-- A host that waits for the executor does not disturb it. -/
theorem shadow (p : Params) (ddr5 : Bool) : Shadow (device p ddr5) Same Harmless where
  refl _ := ⟨rfl, rfl, rfl, rfl, rfl, rfl, rfl⟩
  clock _ _ i h := h.clock i (fun _ => harmless_none) fun _ => harmless_none
  access _ _ i _ ha h := h.clock i (fun _ hx => Option.some.inj hx ▸ ha) fun _ => harmless_none

/-! ## No payload -/

/-- The executor is in READY and the memory controller has the DFI. -/
structure Idle (words : List (Nat → DfiPhase)) (b : Board) : Prop where
  fsm : b.system.executor.fsm = .READY
  wantsDfi : b.system.executor.wantsDfi = false
  loopCounter : b.system.executor.loopCounter = 0
  switch : b.system.switch.fsm = .MEMORY_CONTROLLER
  counter : b.system.switch.counter < 2 ^ 32
  words : b.words = words

theorem Idle.of_same {words : List (Nat → DfiPhase)} (h : Idle words b') (hs : Same b b') : Idle words b where
  fsm := by rw [hs.executor, h.fsm]
  wantsDfi := by rw [hs.executor, h.wantsDfi]
  loopCounter := by rw [hs.executor, h.loopCounter]
  switch := hs.fsm.trans h.switch
  counter := by rw [hs.counter]; exact h.counter
  words := hs.words.trans h.words

/-- A payload is requested, and the memory controller still has the DFI. -/
structure Requested (words : List (Nat → DfiPhase)) (b : Board) : Prop where
  fsm : b.system.executor.fsm = .WAIT_DFI
  wantsDfi : b.system.executor.wantsDfi = true
  loopCounter : b.system.executor.loopCounter = 0
  switch : b.system.switch.fsm = .MEMORY_CONTROLLER
  counter : b.system.switch.counter < 2 ^ 32
  words : b.words = words

theorem dfiReady_of_switch (h : b.system.switch.fsm = .MEMORY_CONTROLLER) :
    DfiSwitch.dfiReady b.system.switch = false := by
  rw [DfiSwitch.dfiReady, h]
  rfl

theorem clock_words (h : b.system.switch.fsm = .MEMORY_CONTROLLER) (x : DfiPhase) (a : Option Access) :
    (clock p ddr5 b x a).words = b.words := by
  have hwords : (clock p ddr5 b x a).words =
      b.words ++ if DfiSwitch.dfiReady b.system.switch then [b.system.executor.phases] else [] := rfl
  rw [hwords, dfiReady_of_switch h]
  exact List.append_nil _

theorem clock_counter_lt (h : b.system.switch.counter < 2 ^ 32) (x : DfiPhase) (a : Option Access) :
    (clock p ddr5 b x a).system.switch.counter < 2 ^ 32 := by
  simp only [clock, System.step, DfiSwitch.step]
  split
  · exact Nat.mod_lt _ (Nat.two_pow_pos 32)
  · exact h

/-- The switch stays with the memory controller as long as the executor does not want the DFI. -/
theorem clock_switch_of_not_wanted (hw : b.system.executor.wantsDfi = false) (x : DfiPhase) (a : Option Access) :
    (clock p ddr5 b x a).system.switch.fsm = .MEMORY_CONTROLLER := by
  simp only [clock, System.step, DfiSwitch.step, DfiSwitch.nextFsm, hw, Bool.false_eq_true, if_false]
  split <;> rfl

theorem Idle.clock (h : Idle before b) (x : DfiPhase) {a : Option Access} (ha : a ≠ some .start) :
    Idle before (clock p ddr5 b x a) := by
  have hstart : (System.executorInput b.system (input b x a)).start = false := beq_eq_false_iff_ne.mpr ha
  obtain ⟨h1, h2, h3⟩ := step_ready p b.memory (System.executorInput b.system (input b x a)) h.fsm hstart
  exact ⟨h1, h2.trans h.wantsDfi, h3.trans h.loopCounter, clock_switch_of_not_wanted h.wantsDfi x a,
    clock_counter_lt h.counter x a, (clock_words h.switch x a).trans h.words⟩

theorem Idle.start (h : Idle before b) (x : DfiPhase) :
    Requested before (ExecutorBoard.clock p ddr5 b x (some .start)) := by
  obtain ⟨h1, h2, h3⟩ := step_start p b.memory (System.executorInput b.system (input b x (some .start))) h.fsm rfl
  exact ⟨h1, h2, h3.trans h.loopCounter, clock_switch_of_not_wanted h.wantsDfi x _, clock_counter_lt h.counter x _,
    (clock_words h.switch x _).trans h.words⟩

variable (p ddr5) in
/-- Until the DFI is handed over the executor waits. -/
theorem Requested.clock (h : Requested before b) (x : DfiPhase) :
    (ExecutorBoard.clock p ddr5 b x none).system.executor.fsm = .WAIT_DFI ∧
      (ExecutorBoard.clock p ddr5 b x none).system.executor.wantsDfi = true ∧
      (ExecutorBoard.clock p ddr5 b x none).system.executor.loopCounter = 0 ∧
      (ExecutorBoard.clock p ddr5 b x none).words = before := by
  obtain ⟨h1, h2, h3⟩ := step_wait p b.memory (System.executorInput b.system (input b x none)) h.fsm
    (dfiReady_of_switch h.switch)
  exact ⟨h1, h2.trans h.wantsDfi, h3.trans h.loopCounter, (clock_words h.switch x none).trans h.words⟩

theorem Requested.clock_requested (h : Requested before b) (x : DfiPhase)
    (hmc : (ExecutorBoard.clock p ddr5 b x none).system.switch.fsm = .MEMORY_CONTROLLER) :
    Requested before (ExecutorBoard.clock p ddr5 b x none) := by
  obtain ⟨h1, h2, h3, h4⟩ := h.clock p ddr5 x
  exact ⟨h1, h2, h3, hmc, clock_counter_lt h.counter x none, h4⟩

/-- The switch hands the DFI over at once, or at the refresh that it waits for. -/
theorem Requested.handed (h : Requested before b) (x : DfiPhase) (hmatch : b.withRefresh = true →
      DfiSwitch.refresh ddr5 x = true ∧ (b.atRefresh = 0 ∨ b.atRefresh = b.system.switch.counter + 1)) :
    (ExecutorBoard.clock p ddr5 b x none).system.switch.fsm = .PAYLOAD_EXECUTION := by
  have hmaster : Handover.master b.system x = x := by
    rw [Handover.master, dfiReady_of_switch h.switch]
    rfl
  simp only [ExecutorBoard.clock, System.step, DfiSwitch.step, DfiSwitch.nextFsm, h.switch, h.wantsDfi, input, hmaster,
    if_true]
  cases hw : b.withRefresh with
  | false => rfl
  | true =>
    obtain ⟨hrefresh, hat⟩ := hmatch hw
    have hm : DfiSwitch.refreshMatches b.system.switch b.atRefresh = true := by
      rw [DfiSwitch.refreshMatches, Bool.or_eq_true, beq_iff_eq, beq_iff_eq]
      exact hat
    rw [if_pos rfl, hrefresh, hm]
    rfl

/-- The refresh counter counts the refreshes of the memory controller. -/
theorem Requested.clock_counter (h : Requested before b) (x : DfiPhase) :
    (ExecutorBoard.clock p ddr5 b x none).system.switch.counter =
      if DfiSwitch.refresh ddr5 x = true then (b.system.switch.counter + 1) % 2 ^ 32 else b.system.switch.counter := by
  have hmaster : Handover.master b.system x = x := by
    rw [Handover.master, dfiReady_of_switch h.switch]
    rfl
  simp only [ExecutorBoard.clock, System.step, DfiSwitch.step, input, hmaster]

/-! ## The hand-over -/

section Run
variable {env : Nat → DfiPhase} {c : At Board} {mem : Nat → BitVec 32}

/-- The board `n` edges later. -/
abbrev boardAt (p : Params) (ddr5 : Bool) (env : Nat → DfiPhase) (c : At Board) (n : Nat) : Board :=
  (later (device p ddr5) env c n).device

theorem boardAt_succ (n : Nat) :
    boardAt p ddr5 env c (n + 1) = clock p ddr5 (boardAt p ddr5 env c n) (env (c.time + n)) none := rfl

/-- Left alone, the payload memory and the settings stay. -/
theorem boardAt_settings (n : Nat) : (boardAt p ddr5 env c n).memory = c.device.memory ∧
    (boardAt p ddr5 env c n).withRefresh = c.device.withRefresh ∧
    (boardAt p ddr5 env c n).atRefresh = c.device.atRefresh := by
  induction n with
  | zero => exact ⟨rfl, rfl, rfl⟩
  | succ n ih => exact ih

/-- The memory controller refreshes again and again, if it does at all. -/
def Refreshes (ddr5 : Bool) (env : Nat → DfiPhase) (b : Board) : Prop :=
  b.withRefresh = true → ∀ t, ∃ u, t ≤ u ∧ DfiSwitch.refresh ddr5 (env u) = true

/-- The refreshes of the memory controller in the first `n` cycles after `t`. -/
def refreshes (ddr5 : Bool) (env : Nat → DfiPhase) (t n : Nat) : Nat :=
  Nat.count (fun j => DfiSwitch.refresh ddr5 (env (t + j)) = true) n

/-- While a request waits, the counter counts the refreshes. -/
theorem counter_of_requested (hreq : ∀ n, Requested before (boardAt p ddr5 env c n)) (n : Nat) :
    (boardAt p ddr5 env c n).system.switch.counter =
      (c.device.system.switch.counter + refreshes ddr5 env c.time n) % 2 ^ 32 := by
  induction n with
  | zero => exact (Nat.mod_eq_of_lt (hreq 0).counter).symm
  | succ n ih =>
    rw [boardAt_succ, (hreq n).clock_counter, refreshes, Nat.count_succ, ih]
    split
    · rw [Nat.mod_add_mod, Nat.add_assoc]
      rfl
    · rfl

/-- Some refresh finds the counter at any value. -/
theorem exists_refresh (hfair : ∀ t, ∃ u, t ≤ u ∧ DfiSwitch.refresh ddr5 (env u) = true) (t : Nat) {k v : Nat}
    (hk : k < 2 ^ 32) (hv : v < 2 ^ 32) :
    ∃ n, DfiSwitch.refresh ddr5 (env (t + n)) = true ∧ (k + refreshes ddr5 env t n) % 2 ^ 32 = v := by
  have hinf : {j | DfiSwitch.refresh ddr5 (env (t + j)) = true}.Infinite := by
    apply Set.infinite_of_forall_exists_gt
    intro m
    obtain ⟨u, hu, hr⟩ := hfair (t + (m + 1))
    obtain ⟨d, rfl⟩ := Nat.exists_eq_add_of_le hu
    exact ⟨m + 1 + d, by rwa [Set.mem_ofPred_eq, ← Nat.add_assoc], by omega⟩
  refine ⟨Nat.nth _ ((v + 2 ^ 32 - k) % 2 ^ 32), Nat.nth_mem_of_infinite hinf _, ?_⟩
  rw [refreshes, Nat.count_nth_of_infinite hinf]
  omega

/-- **Hand-over.** A request is granted, at a refresh of the memory controller if there are any. -/
theorem exists_handOver (hreq : Requested before c.device) (hat : c.device.atRefresh < 2 ^ 32)
    (hfair : Refreshes ddr5 env c.device) :
    ∃ n, (∀ k ≤ n, Requested before (boardAt p ddr5 env c k)) ∧
      (boardAt p ddr5 env c (n + 1)).system.switch.fsm = .PAYLOAD_EXECUTION := by
  -- up to the first cycle with the DFI granted, the request is there
  have hwait : ∀ n, (∀ k ≤ n, (boardAt p ddr5 env c k).system.switch.fsm = .MEMORY_CONTROLLER) →
      ∀ k ≤ n, Requested before (boardAt p ddr5 env c k) := by
    intro n hmc k
    induction k with
    | zero => exact fun _ => hreq
    | succ k ih => exact fun hk => (ih (by omega)).clock_requested _ (hmc (k + 1) hk)
  have hgranted : ∃ n, (boardAt p ddr5 env c n).system.switch.fsm ≠ .MEMORY_CONTROLLER := by
    apply Classical.byContradiction
    intro hnot
    have hall : ∀ n, Requested before (boardAt p ddr5 env c n) := fun n =>
      hwait n (fun k _ => Classical.byContradiction fun h => hnot ⟨k, h⟩) n (Nat.le_refl n)
    have hnever : ∀ n, ¬ ((boardAt p ddr5 env c n).withRefresh = true →
        DfiSwitch.refresh ddr5 (env (c.time + n)) = true ∧ ((boardAt p ddr5 env c n).atRefresh = 0 ∨
          (boardAt p ddr5 env c n).atRefresh = (boardAt p ddr5 env c n).system.switch.counter + 1)) := by
      intro n hmatch
      have hpe := (hall n).handed (p := p) _ hmatch
      rw [← boardAt_succ, (hall (n + 1)).switch] at hpe
      cases hpe
    by_cases hw : c.device.withRefresh = true
    · obtain ⟨n, hrefresh, hcounter⟩ := exists_refresh (hfair hw) c.time (v := c.device.atRefresh - 1) hreq.counter
        (by omega)
      apply hnever n
      intro _
      rw [(boardAt_settings n).2.2, counter_of_requested hall, hcounter]
      exact ⟨hrefresh, by omega⟩
    · apply hnever 0
      intro h
      exact absurd h hw
  have hspec := Nat.find_spec hgranted
  have hmin := fun k hk => Nat.find_min (m := k) hgranted hk
  have hpos : Nat.find hgranted ≠ 0 := by
    intro hzero
    rw [hzero] at hspec
    exact hspec hreq.switch
  obtain ⟨n, hn⟩ := Nat.exists_eq_succ_of_ne_zero hpos
  rw [hn] at hspec
  refine ⟨n, hwait n fun k hk => ?_, ?_⟩
  · exact Classical.byContradiction fun h => hmin k (by omega) h
  · cases hf : (boardAt p ddr5 env c (n + 1)).system.switch.fsm with
    | MEMORY_CONTROLLER => exact absurd hf hspec
    | PAYLOAD_EXECUTION => rfl

/-! ## The execution -/

/-- The DFI words of an execution of `tr`: the command of each instruction stands in its cycle on its phase, two cycles
being over before the first, and nothing else is selected. -/
structure Carries (p : Params) (tr : List Interp.Visit) (words : List (Nat → DfiPhase)) : Prop where
  length : words.length = duration Interp.Visit.cycles tr + 2
  shows : ∀ k v, (k, v) ∈ timed Interp.Visit.cycles 0 tr → v.instr.IsCommand →
    ∃ w, words[k + 2]? = some w ∧ (w (sendPhase p v.instr)).Shows p.nranks v.instr
  others : ∀ j w, words[j]? = some w → ∀ ph, (¬ ∃ k v, (k, v) ∈ timed Interp.Visit.cycles 0 tr ∧
    v.instr.IsCommand ∧ j = k + 2 ∧ ph = sendPhase p v.instr) → (w ph).Deselected p.nranks

theorem executor_succ (n : Nat) : (boardAt p ddr5 env c (n + 1)).system.executor =
    PayloadExecutor.step p c.device.memory (boardAt p ddr5 env c n).system.executor
      ⟨false, DfiSwitch.dfiReady (boardAt p ddr5 env c n).system.switch⟩ := by
  have hmemory : (boardAt p ddr5 env c n).memory = c.device.memory := (boardAt_settings n).1
  rw [boardAt_succ, ← hmemory]
  rfl

/-- What the executor reads while the host leaves it alone. -/
def executorInputs (p : Params) (ddr5 : Bool) (env : Nat → DfiPhase) (c : At Board) (m j : Nat) :
    PayloadExecutor.Input :=
  ⟨false, DfiSwitch.dfiReady (boardAt p ddr5 env c (m + j)).system.switch⟩

theorem executor_add (m n : Nat) : (boardAt p ddr5 env c (m + n)).system.executor =
    run (PayloadExecutor.step p c.device.memory) (boardAt p ddr5 env c m).system.executor
      (executorInputs p ddr5 env c m) n := by
  induction n with
  | zero => rfl
  | succ n ih => rw [← Nat.add_assoc, executor_succ, run_succ, ← ih, executorInputs]

/-- The DFI stays with the executor while it is wanted. -/
theorem owned_succ {n : Nat} (h : (boardAt p ddr5 env c n).system.switch.fsm = .PAYLOAD_EXECUTION)
    (hw : (boardAt p ddr5 env c n).system.executor.wantsDfi = true) :
    (boardAt p ddr5 env c (n + 1)).system.switch.fsm = .PAYLOAD_EXECUTION :=
  System.step_switch_owned p ddr5 _ _ hw h

/-- A granted request, before the executor sees the grant. -/
structure Granted (words : List (Nat → DfiPhase)) (b : Board) : Prop where
  fsm : b.system.executor.fsm = .WAIT_DFI
  wantsDfi : b.system.executor.wantsDfi = true
  loopCounter : b.system.executor.loopCounter = 0
  switch : b.system.switch.fsm = .PAYLOAD_EXECUTION
  counter : b.system.switch.counter < 2 ^ 32
  words : b.words = words

/-- A run of the interpreter that stays off the last address of the payload memory. -/
structure Runs (p : Params) (mem : Nat → BitVec 32) (tr : List Interp.Visit) : Prop where
  phase : p.rdphase < 2 ^ DfiExecutor.phaseBits p.nphases
  run : ∃ fuel, Interp.run (PayloadExecutor.fetch p mem) fuel ⟨0, 0⟩ = some tr
  visits : ∀ v ∈ tr, v.pc < p.depth - 1

section Granted
variable {tr : List Interp.Visit} {n : Nat}

/-- The cycles of the executor once it has the DFI. -/
structure Executing (p : Params) (ddr5 : Bool) (env : Nat → DfiPhase) (c : At Board) (tr : List Interp.Visit)
    (n : Nat) : Prop where
  busy : ∀ k < duration Interp.Visit.cycles tr, executing (boardAt p ddr5 env c (n + 1 + k)).system.executor = true ∧
    issue p (boardAt p ddr5 env c (n + 1 + k)).system.executor = Interp.issuedAt tr k ∧
    (boardAt p ddr5 env c (n + 1 + k)).system.executor.wantsDfi = true
  ready : (boardAt p ddr5 env c (n + 1 + duration Interp.Visit.cycles tr)).system.executor.fsm = .READY
  released : (boardAt p ddr5 env c (n + 1 + duration Interp.Visit.cycles tr)).system.executor.wantsDfi = false
  counter : (boardAt p ddr5 env c (n + 1 + duration Interp.Visit.cycles tr)).system.executor.loopCounter = 0

theorem Granted.executing (h : Granted before (boardAt p ddr5 env c n)) (hruns : Runs p c.device.memory tr) :
    Executing p ddr5 env c tr n := by
  obtain ⟨fuel, hrun⟩ := hruns.run
  have hready : DfiSwitch.dfiReady (boardAt p ddr5 env c n).system.switch = true := beq_iff_eq.mpr h.switch
  obtain ⟨h1, h2, h3, h4, h5⟩ := step_dfiReady p c.device.memory
    ⟨false, DfiSwitch.dfiReady (boardAt p ddr5 env c n).system.switch⟩ h.fsm hready
  rw [← executor_succ] at h1 h2 h3 h4 h5
  have hsim : Sim p c.device.memory ⟨0, 0⟩ (boardAt p ddr5 env c (n + 1)).system.executor :=
    ⟨h1, h4, h3.trans h.loopCounter, h5, h2.trans h.wantsDfi⟩
  obtain ⟨hbusy, hend, hreleased⟩ := run_sim (fun a ha => absurd ha (Nat.not_lt_zero a))
    (executorInputs p ddr5 env c (n + 1)) hrun hruns.visits hsim (Nat.two_pow_pos 12)
  obtain ⟨a, hstop, hlast⟩ := run_last (executorInputs p ddr5 env c (n + 1)) (fun a ha => absurd ha (Nat.not_lt_zero a))
    (absurd rfl) hrun hruns.visits hsim (Nat.two_pow_pos 12)
  have hwants := wantsDfi_run (fun k hk => (hbusy k hk).1) hlast.wantsDfi
  refine ⟨fun k hk => ?_, ?_, ?_, ?_⟩
  · rw [executor_add]
    exact ⟨(hbusy k hk).1, (hbusy k hk).2, hwants k hk⟩
  · rw [executor_add]
    exact hend
  · rw [executor_add]
    exact hreleased
  · obtain ⟨m, hm⟩ := Nat.exists_eq_add_of_le' (Interp.duration_pos hrun)
    rw [hm, Nat.add_sub_cancel] at hlast
    rw [executor_add, hm, run_succ]
    exact hlast.stop_counter hstop _

/-- The executor has the DFI until one cycle after its last instruction. -/
theorem Granted.owned (h : Granted before (boardAt p ddr5 env c n)) (hexec : Executing p ddr5 env c tr n) :
    ∀ j ≤ duration Interp.Visit.cycles tr + 1,
      (boardAt p ddr5 env c (n + j)).system.switch.fsm = .PAYLOAD_EXECUTION := by
  intro j
  induction j with
  | zero => exact fun _ => h.switch
  | succ j ih =>
    intro hj
    refine owned_succ (ih (by omega)) ?_
    cases j with
    | zero => exact h.wantsDfi
    | succ j =>
      have hwants := (hexec.busy j (by omega)).2.2
      rwa [show n + 1 + j = n + (j + 1) by omega] at hwants

/-- All the words that the DFI master takes. -/
theorem Granted.words_eq (h : Granted before (boardAt p ddr5 env c n)) (hexec : Executing p ddr5 env c tr n) :
    ∀ j ≤ duration Interp.Visit.cycles tr + 2, (boardAt p ddr5 env c (n + j)).words =
      before ++ (List.range j).map fun i => (boardAt p ddr5 env c (n + i)).system.executor.phases := by
  intro j
  induction j with
  | zero =>
    intro _
    rw [List.range_zero, List.map_nil, List.append_nil]
    exact h.words
  | succ j ih =>
    intro hj
    have hready : DfiSwitch.dfiReady (boardAt p ddr5 env c (n + j)).system.switch = true :=
      beq_iff_eq.mpr (h.owned hexec j (by omega))
    have hwords : (boardAt p ddr5 env c (n + j + 1)).words = (boardAt p ddr5 env c (n + j)).words ++
        if DfiSwitch.dfiReady (boardAt p ddr5 env c (n + j)).system.switch
        then [(boardAt p ddr5 env c (n + j)).system.executor.phases] else [] := rfl
    rw [← Nat.add_assoc, hwords, hready, ih (by omega), List.range_succ, List.map_append, List.append_assoc]
    rfl

/-- They carry the commands of the run. -/
theorem Granted.carries (h : Granted before (boardAt p ddr5 env c n)) (hexec : Executing p ddr5 env c tr n)
    (hruns : Runs p c.device.memory tr) (hwait : exec p (boardAt p ddr5 env c (n - 1)).system.executor = false)
    (hpos : 1 ≤ n) :
    Carries p tr ((List.range (duration Interp.Visit.cycles tr + 2)).map fun i =>
      (boardAt p ddr5 env c (n + i)).system.executor.phases) := by
  have hget : ∀ j w, ((List.range (duration Interp.Visit.cycles tr + 2)).map fun i =>
      (boardAt p ddr5 env c (n + i)).system.executor.phases)[j]? = some w →
      j < duration Interp.Visit.cycles tr + 2 ∧ w = (boardAt p ddr5 env c (n + j)).system.executor.phases := by
    intro j w hj
    rw [List.getElem?_map, Option.map_eq_some_iff] at hj
    obtain ⟨i, hi, rfl⟩ := hj
    obtain ⟨hlt, rfl⟩ := List.getElem?_eq_some_iff.mp hi
    rw [List.getElem_range]
    exact ⟨by simpa using hlt, rfl⟩
  refine ⟨by rw [List.length_map, List.length_range], fun k v hv hcmd => ?_, fun j w hj ph hno => ?_⟩
  · have hk : k < duration Interp.Visit.cycles tr := by
      have := lt_of_mem_timed Interp.Visit.cycles (fun v => v.instr.cycles_pos) hv
      omega
    have hat : Interp.issuedAt tr k = some v.instr :=
      Interp.issuedAt_eq_some_iff.mpr ⟨v, by rw [Nat.zero_add]; exact hv, rfl, hcmd.2⟩
    obtain ⟨he, hdec⟩ := decoder_of_issue ((hexec.busy k hk).2.1.trans hat)
    refine ⟨(boardAt p ddr5 env c (n + (k + 2))).system.executor.phases, ?_, ?_⟩
    · rw [List.getElem?_map, List.getElem?_range (by omega)]
      rfl
    · rw [show n + (k + 2) = n + 1 + k + 1 by omega, executor_succ, ← hdec, ← commandPhase_decoder hruns.phase]
      exact step_shows p _ _ he
  · obtain ⟨hlt, rfl⟩ := hget j w hj
    obtain ⟨m, rfl⟩ := Nat.exists_eq_add_of_le' hpos
    rw [Nat.add_sub_cancel] at hwait
    match j with
    | 0 =>
      rw [Nat.add_zero, executor_succ]
      exact step_deselected p _ _ hwait ph
    | 1 =>
      rw [executor_succ]
      exact step_deselected p _ _ (exec_of_not_run p (by rw [h.fsm]; decide)) ph
    | k + 2 =>
      rw [show m + 1 + (k + 2) = m + 1 + 1 + k + 1 by omega, executor_succ]
      refine step_phases_of_issue hruns.phase ph fun d hd hcmd hph => hno ?_
      rw [(hexec.busy k (by omega)).2.1, Interp.issuedAt_eq_some_iff (t := 0), Nat.zero_add] at hd
      obtain ⟨v, hv, rfl, -⟩ := hd
      exact ⟨k, v, hv, hcmd, rfl, hph⟩

/-- After it the memory controller has the DFI again. -/
theorem Granted.idle (h : Granted before (boardAt p ddr5 env c n)) (hexec : Executing p ddr5 env c tr n) :
    Idle (before ++ (List.range (duration Interp.Visit.cycles tr + 2)).map fun i =>
        (boardAt p ddr5 env c (n + i)).system.executor.phases)
      (boardAt p ddr5 env c (n + (duration Interp.Visit.cycles tr + 2))) := by
  have hsum : n + (duration Interp.Visit.cycles tr + 2) = n + 1 + duration Interp.Visit.cycles tr + 1 := by omega
  have hcounter : ∀ j, (boardAt p ddr5 env c (n + j)).system.switch.counter < 2 ^ 32 := by
    intro j
    induction j with
    | zero => exact h.counter
    | succ j ih => exact clock_counter_lt ih _ none
  refine ⟨?_, ?_, ?_, ?_, hcounter _, h.words_eq hexec _ (Nat.le_refl _)⟩
  · rw [hsum, executor_succ]
    exact (step_ready p _ _ hexec.ready rfl).1
  · rw [hsum, executor_succ]
    exact (step_ready p _ _ hexec.ready rfl).2.1.trans hexec.released
  · rw [hsum, executor_succ]
    exact (step_ready p _ _ hexec.ready rfl).2.2.trans hexec.counter
  · rw [hsum]
    exact clock_switch_of_not_wanted hexec.released _ none

end Granted

variable (env) in
/-- **A request leads to one execution.** The executor is ready again exactly from some edge on; one edge later the
memory controller has the DFI again, and the DFI master has taken the commands of the payload, once. -/
theorem Requested.executes {tr : List Interp.Visit} (hreq : Requested before c.device)
    (hat : c.device.atRefresh < 2 ^ 32) (hfair : Refreshes ddr5 env c.device) (hruns : Runs p c.device.memory tr) :
    ∃ D L, Carries p tr L ∧ (∀ k, (boardAt p ddr5 env c k).system.executor.fsm = .READY ↔ D ≤ k) ∧
      ∀ k, D < k → Idle (before ++ L) (boardAt p ddr5 env c k) := by
  obtain ⟨n, hwait, hpe⟩ := exists_handOver hreq hat hfair
  obtain ⟨h1, h2, h3, h4⟩ := (hwait n (Nat.le_refl n)).clock p ddr5 (env (c.time + n))
  have hgranted : Granted before (boardAt p ddr5 env c (n + 1)) :=
    ⟨h1, h2, h3, hpe, clock_counter_lt (hwait n (Nat.le_refl n)).counter _ none, h4⟩
  have hexec := hgranted.executing hruns
  have hidle := hgranted.idle hexec
  have hnotRun : exec p (boardAt p ddr5 env c (n + 1 - 1)).system.executor = false := by
    apply exec_of_not_run
    rw [Nat.add_sub_cancel, (hwait n (Nat.le_refl n)).fsm]
    decide
  have hstays : ∀ j, Idle (before ++ (List.range (duration Interp.Visit.cycles tr + 2)).map fun i =>
      (boardAt p ddr5 env c (n + 1 + i)).system.executor.phases)
      (boardAt p ddr5 env c (n + 1 + (duration Interp.Visit.cycles tr + 2) + j)) := by
    intro j
    induction j with
    | zero => exact hidle
    | succ j ih => exact ih.clock (a := none) _ nofun
  refine ⟨n + 1 + 1 + duration Interp.Visit.cycles tr, _, hgranted.carries hexec hruns hnotRun (by omega),
    fun k => ⟨fun hready => ?_, fun hk => ?_⟩, fun k hk => ?_⟩
  · apply Nat.le_of_not_lt
    intro hlt
    rcases Nat.lt_or_ge n k with hn | hn
    · obtain rfl | hk := Nat.eq_or_lt_of_le hn
      · rw [Nat.succ_eq_add_one, hgranted.fsm] at hready
        cases hready
      · obtain ⟨j, rfl⟩ := Nat.exists_eq_add_of_le hk
        have hbusy := (hexec.busy j (by omega)).1
        rw [executing, show n + 1 + 1 + j = n.succ.succ + j from rfl, hready] at hbusy
        cases hbusy
    · rw [(hwait k hn).fsm] at hready
      cases hready
  · obtain ⟨j, rfl⟩ := Nat.exists_eq_add_of_le hk
    cases j with
    | zero => exact hexec.ready
    | succ j =>
      have := (hstays j).fsm
      rwa [show n + 1 + (duration Interp.Visit.cycles tr + 2) + j =
        n + 1 + 1 + duration Interp.Visit.cycles tr + (j + 1) by omega] at this
  · obtain ⟨j, rfl⟩ := Nat.exists_eq_add_of_le hk
    have := hstays j
    rwa [show n + 1 + (duration Interp.Visit.cycles tr + 2) + j =
      (n + 1 + 1 + duration Interp.Visit.cycles tr).succ + j by omega] at this

end Run

end ExecutorBoard

end RowhammerTester.Gateware
