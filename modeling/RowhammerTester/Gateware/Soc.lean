import RowhammerTester.Hdl.Part
import RowhammerTester.Gateware.Bist.Board
import RowhammerTester.Gateware.ExecutorBoard

/-!
# The whole SoC

`RowHammerSoC` puts the BIST modules and the payload executor on one bus and before one DRAM.

* `Access`, `Input` : the bus, and what the SoC sees in a cycle; `RowHammerSoC`, `clock`, `answer`, `soc` : the device;
* `Disturbed` : what the DRAM may hold after payloads, as many changes as the executor has driven words;
* `bistPart`, `executorPart` : each of the two is a device by itself while the other one rests.
-/

namespace RowhammerTester.Gateware
open RowhammerTester.Hdl

/-- The BIST modules with the DRAM, and the payload executor with the DFI switch. -/
structure RowHammerSoC {aw w : Nat} (F : Fifo (BitVec aw)) (G : Fifo (Bist.Reader.ErrorRecord w)) (k rb : Nat) where
  bist : Bist.Board F G k rb
  executor : ExecutorBoard.Board

namespace RowHammerSoC
variable {aw w k rb : Nat} {F : Fifo (BitVec aw)} {G : Fifo (Bist.Reader.ErrorRecord w)}

/-! ## The device -/

/-- An access to one of the two. -/
abbrev Access := Bist.Access ⊕ ExecutorBoard.Access

/-- The stalls of the DMAs, phase 0 of the memory controller, and what the DRAM makes of its words in a cycle in which
the executor drives it. -/
structure Input (aw w : Nat) where
  stalls : Bist.Stalls
  controller : DfiPhase
  disturb : (BitVec aw → BitVec w) → BitVec aw → BitVec w

section Clock
variable (p : PayloadExecutor.Params) (ddr5 : Bool) (s : RowHammerSoC F G k rb) (x : Input aw w) (a : Option Access)

/-- The DRAM changes by itself only while the executor drives it. -/
def drive (b : Bist.Board F G k rb) : Bist.Board F G k rb :=
  if DfiSwitch.dfiReady s.executor.system.switch then { b with dram := x.disturb b.dram } else b

/-- One clock edge. -/
def clock : RowHammerSoC F G k rb where
  bist := drive s x (s.bist.clock x.stalls (a.bind Sum.getLeft?))
  executor := ExecutorBoard.clock p ddr5 s.executor x.controller (a.bind Sum.getRight?)

/-- What an access reads. -/
def answer : Access → Nat
  | .inl a => s.bist.answer a
  | .inr a => ExecutorBoard.answer s.executor a

end Clock

/-- The SoC as a device on the bus. -/
def soc (p : PayloadExecutor.Params) (ddr5 : Bool) : Device (RowHammerSoC F G k rb) (Input aw w) Access Nat :=
  ⟨clock p ddr5, answer⟩

/-! ## The DRAM -/

/-- What the DRAM may hold after the executor has driven it in `n` cycles, if it held `mem` before. -/
inductive Disturbed (env : Nat → Input aw w) (mem : BitVec aw → BitVec w) : Nat → (BitVec aw → BitVec w) → Prop where
  | start : Disturbed env mem 0 mem
  | cycle {n mem'} (h : Disturbed env mem n mem') (t : Nat) : Disturbed env mem (n + 1) ((env t).disturb mem')

/-! ## The parts -/

variable {p : PayloadExecutor.Params} {ddr5 : Bool} {env : Nat → Input aw w}

/-- The executor does not drive the DRAM, with the settings as they are. -/
structure Undriven (words : List (Nat → DfiPhase)) (withRefresh : Bool) (atRefresh : Nat) (s : RowHammerSoC F G k rb) :
    Prop where
  idle : ExecutorBoard.Idle words s.executor
  withRefresh : s.executor.withRefresh = withRefresh
  atRefresh : s.executor.atRefresh = atRefresh

/-- No transfer is under way, and the DRAM holds what it may hold after the words that the executor has driven it with
after `words`. -/
def Untransferred (env : Nat → Input aw w) (cs : Bist.Csrs w k rb) (mem : BitVec aw → BitVec w)
    (words : List (Nat → DfiPhase)) (s : RowHammerSoC F G k rb) : Prop :=
  ∃ L mem', s.executor.words = words ++ L ∧ Disturbed env mem L.length mem' ∧ Bist.Resting cs mem' s.bist

variable (words : List (Nat → DfiPhase)) (withRefresh : Bool) (atRefresh : Nat) (cs : Bist.Csrs w k rb)
  (mem : BitVec aw → BitVec w)

/-- The DRAM is left alone. -/
theorem drive_of_undriven {s : RowHammerSoC F G k rb} (h : Undriven words withRefresh atRefresh s) (x : Input aw w)
    (b : Bist.Board F G k rb) : drive s x b = b := by
  rw [drive, ExecutorBoard.dfiReady_of_switch h.idle.switch]
  rfl

variable (p ddr5 env) in
theorem bistPart : Part (soc p ddr5) env Bist.board (fun t => (env t).stalls) (bist : RowHammerSoC F G k rb → _) Sum.inl
    (Undriven words withRefresh atRefresh) where
  keeps s t a h := by
    have hnone : (a.map Sum.inl : Option Access).bind Sum.getRight? = none := by cases a <;> rfl
    have hclock : (clock p ddr5 s (env t) (a.map Sum.inl)).executor =
        ExecutorBoard.clock p ddr5 s.executor (env t).controller none := by rw [clock, hnone]
    refine ⟨?_, ?_, ?_⟩
    · rw [soc, hclock]
      exact h.idle.clock _ (Option.some_ne_none _).symm
    · rw [soc, hclock]
      exact h.withRefresh
    · exact h.atRefresh
  clock s t a h := by
    have hsome : (a.map Sum.inl : Option Access).bind Sum.getLeft? = a := by cases a <;> rfl
    rw [soc]
    dsimp only [clock]
    rw [drive_of_undriven words withRefresh atRefresh h, hsome]
    rfl
  answer _ _ _ := rfl

variable (p ddr5 env) in
/-- While a payload is executed the BIST modules rest, and the DRAM is disturbed. -/
theorem executorPart : Part (soc p ddr5) env (ExecutorBoard.device p ddr5) (fun t => (env t).controller)
    (executor : RowHammerSoC F G k rb → _) Sum.inr (Untransferred env cs mem words) where
  keeps s t a h := by
    obtain ⟨L, mem', hwords, hdisturbed, hresting⟩ := h
    have hnone : (a.map Sum.inr : Option Access).bind Sum.getLeft? = none := by cases a <;> rfl
    have hclock : (clock p ddr5 s (env t) (a.map Sum.inr)).bist =
        drive s (env t) (s.bist.clock (env t).stalls none) := by rw [clock, hnone]
    have hrest := hresting.clock (x := (env t).stalls) (a := none) rfl rfl
    have hdriven : (clock p ddr5 s (env t) (a.map Sum.inr)).executor.words =
        words ++ (L ++ if DfiSwitch.dfiReady s.executor.system.switch then [s.executor.system.executor.phases] else []) :=
      (congrArg (· ++ _) hwords).trans (List.append_assoc ..)
    by_cases hready : DfiSwitch.dfiReady s.executor.system.switch = true
    · rw [if_pos hready] at hdriven
      refine ⟨_, (env t).disturb mem', hdriven, ?_, ?_⟩
      · rw [List.length_append]
        exact hdisturbed.cycle t
      · rw [soc, hclock, drive, if_pos hready]
        exact ⟨hrest.csrs, hrest.writer, hrest.reader, congrArg (env t).disturb hrest.dram⟩
    · rw [if_neg hready, List.append_nil] at hdriven
      refine ⟨L, mem', hdriven, hdisturbed, ?_⟩
      rw [soc, hclock, drive, if_neg hready]
      exact hrest
  clock s t a _ := by
    have hsome : (a.map Sum.inr : Option Access).bind Sum.getRight? = a := by cases a <;> rfl
    rw [soc]
    dsimp only [clock]
    rw [hsome]
    rfl
  answer _ _ _ := rfl

end RowHammerSoC

end RowhammerTester.Gateware
