import RowhammerTester.Gateware.Soc
import RowhammerTester.Scripts.ExecutePayload
import RowhammerTester.Scripts.MemTest.Rounds

/-!
# The scripts on the whole SoC

`hw_memset`, `hw_memtest` and `execute_payload` one after the other: the first two leave the executor alone, and while a
payload is executed the BIST modules rest.

* `SocScript`, `onBist`, `onExecutor` : the scripts; `ofPy_spec`, `ofPy_raises` : the computations between their accesses;
* `Quiet` : neither a transfer nor a payload is under way;
* `hwMemset_soc`, `hwMemtest_soc`, `executePayload_soc` : the scripts from quiet to quiet.
-/

namespace RowhammerTester.Scripts
open RowhammerTester.Hdl RowhammerTester.Gateware RowhammerTester.Gateware.Bist RowHammerSoC

/-- A script of accesses to the SoC. -/
abbrev SocScript := Host RowHammerSoC.Access Nat Stop

def onBist {α : Type} (script : Script α) : SocScript α := script.lift .inl

def onExecutor {α : Type} (script : ExecutorScript α) : SocScript α := script.lift .inr

/-! ## Computations of the host -/

section Computations
variable {τ ι A α β : Type} {dev : Device τ ι A Nat} {env : Nat → ι} {wait : Nat → Nat} {P : At τ → Prop} {x : Py α}
  {a : α}

theorem preserves_ofPy {I : τ → Prop} (x : Py α) : Preserves dev env wait I (ofPy x : Host A Nat Stop α) := by
  cases x with
  | ok a => exact Preserves.done a
  | error e => exact Preserves.fail _

variable (hx : x = .ok a)
include hx

/-- What follows a computation that does not raise. -/
theorem ofPy_spec {Q : β → At τ → Prop} {q : α → Nat → Host A Nat Stop β} (h : Triple dev env wait P (q a) Q) :
    Triple dev env wait P (fun g => (ofPy x).bind fun a => q a g) Q := by
  rw [hx]
  exact h

theorem ofPy_raises {Q : At τ → Prop} {stop : Stop} {q : α → Nat → Host A Nat Stop β}
    (h : Raises dev env wait P (q a) stop Q) :
    Raises dev env wait P (fun g => (ofPy x).bind fun a => q a g) stop Q := by
  rw [hx]
  exact h

end Computations

/-! ## The scripts -/

theorem extends_executePayload {m n : Nat} (hle : m ≤ n) (payload : List Nat) :
    Host.Extends .outOfRounds (executePayload m payload) (executePayload n payload) := by
  unfold executePayload
  iterate 5 refine Host.Extends.seq _ fun _ => ?_
  exact Host.Extends.loop (fun _ => Host.Extends.refl _) hle false

section Soc
variable {aw w k rb : Nat} {F : Fifo (BitVec aw)} {G : Fifo (Reader.ErrorRecord w)} {p : PayloadExecutor.Params}
  {ddr5 : Bool} {env : Nat → Input aw w} {wait : Nat → Nat}

/-- Neither a transfer nor a payload is under way. The inverters are those of `cs`, the DRAM holds `mem`, and the
executor has driven the DFI with `words`. -/
def Quiet (cs : Csrs w k rb) (mem : BitVec aw → BitVec w) (words : List (Nat → DfiPhase)) (withRefresh : Bool)
    (atRefresh : Nat) (c : At (RowHammerSoC F G k rb)) : Prop :=
  ∃ cs', Keeps aw cs cs' ∧ Resting cs' mem c.device.bist ∧ Undriven words withRefresh atRefresh c.device

variable {cs : Csrs w k rb} {mem : BitVec aw → BitVec w} {words : List (Nat → DfiPhase)} {withRefresh : Bool}
  {atRefresh offset size : Nat}

theorem hwMemset_soc (hfair : FairStalls fun t => (env t).stalls) (hrange : Testable aw w offset size)
    (hmodulo : cs.writer.modulo = false) (pattern : Nat) :
    Triple (soc p ddr5) env wait (Quiet (F := F) (G := G) cs mem words withRefresh atRefresh)
      (fun g => onBist (hwMemset w g offset size [pattern])) fun _ =>
      Quiet cs (filled cs.writer (offset / (w / 8)) (size / (w / 8)) pattern mem) words withRefresh atRefresh := by
  apply Triple.ex
  intro cs'
  apply Triple.lift
  intro hkeeps
  have hfills : Triple board (fun t => (env t).stalls) wait (Rest (F := F) (G := G) cs' mem) _ _ :=
    hwMemset_fills hfair hrange (hkeeps.writer_modulo.trans hmodulo) pattern
  have htriple := (bistPart p ddr5 env words withRefresh atRefresh).triple wait
    (fun _ _ hle => extends_hwMemset hle w offset size [pattern]) hfills
  apply htriple.conseq
  · exact fun c hc => ⟨hc.2, hc.1⟩
  · intro _ c hc
    obtain ⟨hundriven, cs'', hkeeps', hrest⟩ := hc
    rw [filled_congr hkeeps.writer_inverted] at hrest
    exact ⟨cs'', hkeeps.trans hkeeps', hrest, hundriven⟩

theorem hwMemtest_soc (hwait : ∀ t, 7 ≤ wait t) (hlag : ∀ q, G.lag q ≤ 3)
    (hfair : FairStalls fun t => (env t).stalls) (hrange : Testable aw w offset size)
    (hmodulo : cs.reader.modulo = false) (pattern : Nat) :
    Triple (soc p ddr5) env wait (Quiet (F := F) (G := G) cs mem words withRefresh atRefresh)
      (fun g => onBist (hwMemtest w g offset size [pattern])) fun errors c =>
      errors = changedWords cs.reader (offset / (w / 8)) (size / (w / 8)) pattern mem ∧
        Quiet cs mem words withRefresh atRefresh c := by
  apply Triple.ex
  intro cs'
  apply Triple.lift
  intro hkeeps
  have hfinds : Triple board (fun t => (env t).stalls) wait (Rest (F := F) cs' mem) _ _ :=
    hwMemtest_finds hwait hlag hfair hrange (hkeeps.reader_modulo.trans hmodulo) pattern
  have htriple := (bistPart p ddr5 env words withRefresh atRefresh).triple wait
    (fun _ _ hle => extends_hwMemtest hle w offset size [pattern]) hfinds
  apply htriple.conseq
  · exact fun c hc => ⟨hc.2, hc.1⟩
  · intro errors c hc
    obtain ⟨hundriven, rfl, cs'', hkeeps', hrest⟩ := hc
    exact ⟨changedWords_congr hkeeps.reader_inverted _ _ _ _, cs'', hkeeps.trans hkeeps', hrest, hundriven⟩

theorem executePayload_soc {payload : List Nat} (hfits : Fits p payload) (hat : atRefresh < 2 ^ 32)
    (hrefresh : withRefresh = true → ∀ t, ∃ u, t ≤ u ∧ DfiSwitch.refresh ddr5 (env u).controller = true) :
    Triple (soc p ddr5) env wait (Quiet (F := F) (G := G) cs mem words withRefresh atRefresh)
      (fun g => onExecutor (executePayload g payload)) fun _ c =>
      ∃ L mem', (Executed p payload L ∧ Disturbed env mem L.length mem') ∧
        Quiet cs mem' (words ++ L) withRefresh atRefresh c := by
  apply Triple.ex
  intro cs'
  apply Triple.lift
  intro hkeeps
  have hexecutes : Triple (ExecutorBoard.device p ddr5) (fun t => (env t).controller) wait
    (fun c => Free words withRefresh atRefresh c.device) _ _ := executePayload_spec hfits hat hrefresh
  have htriple := (executorPart (F := F) (G := G) p ddr5 env words cs' mem).triple wait
    (fun _ _ hle => extends_executePayload hle payload) hexecutes
  apply htriple.conseq
  · intro c hc
    obtain ⟨hresting, hundriven⟩ := hc
    refine ⟨⟨[], mem, ?_, .start, hresting⟩, hundriven.idle, hundriven.withRefresh, hundriven.atRefresh⟩
    rw [List.append_nil]
    exact hundriven.idle.words
  · intro _ c hc
    obtain ⟨⟨L', mem', hwords, hdisturbed, hresting⟩, L, hexecuted, hfree⟩ := hc
    obtain rfl : L = L' := List.append_cancel_left (hfree.idle.words.symm.trans hwords)
    refine ⟨L, mem', ⟨hexecuted, hdisturbed⟩, cs', hkeeps, hresting, ?_⟩
    exact ⟨hfree.idle, hfree.withRefresh, hfree.atRefresh⟩

end Soc

end RowhammerTester.Scripts
