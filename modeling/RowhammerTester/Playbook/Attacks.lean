import RowhammerTester.Playbook.HalfDouble.Rows
import RowhammerTester.Playbook.HammerTolerance.Generator
import RowhammerTester.Playbook.LogicalView
import RowhammerTester.Playbook.Retention

/-!
# Attacks of the playbook

The payload generators that hammer rows, with the playbook beside the whole SoC. None of them gives the rank and the
number of ranks to `generate_payload_from_row_list`.

* `RowList.RowGenerator`, `HalfDouble.getMemsetRange`, `HalfDouble.getMemtestRange` : the rows and the ranges;
* `Attack` : the four generators; `Attack.rows` : the rows of a payload, `Attack.generator` : what `main` calls;
* `main_undriven` : without a payload the executor is left alone; `main_raises` : the memory is filled before that;
* `attack_never_hammers` : not one command of an attack reaches the DRAM.
-/

namespace RowhammerTester.Playbook
open RowhammerTester.Hdl RowhammerTester.Gateware RowhammerTester.Gateware.Bist RowHammerSoC RowhammerTester.Scripts

/-! ## Row lists -/

namespace RowList

/-- `EvenRowGenerator`, `RowSequenceGenerator` and `HalfDoubleRowGenerator`. -/
inductive RowGenerator where
  | even (nrRows maxRow : Int)
  | sequence (rowSeq : List Int)
  | halfDouble (g : HalfDouble.RowGenerator)

section Generator
variable (mapping : RowMapping)

def RowGenerator.generateRows (iteration : Nat) : RowGenerator → Py (List Int)
  | .even nrRows maxRow => (List.range nrRows.toNat).mapM fun i => do
    let row ← Py.mod (iteration + 2 * i) maxRow
    return mapping.logicalToPhysicalInt row
  | .sequence rowSeq => .ok (rowSeq.map mapping.logicalToPhysicalInt)
  | .halfDouble g => g.generateRows iteration mapping

/-- `RowSequenceGenerator` reads an attribute that it does not have. -/
def RowGenerator.getMemoryRange (settings : Settings) (mainRamBase : Int) (mainRamSize : Nat) :
    RowGenerator → Py (Int × Int)
  | .even _ maxRow => HammerTolerance.rangeOfRows settings mainRamBase mainRamSize
      ((List.range maxRow.toNat).map fun row => mapping.logicalToPhysicalInt row)
  | .sequence _ => .error (.attributeError "max_row")
  | .halfDouble _ => .ok (0x0, mainRamSize)

end Generator

/-- The configuration of `RowListPayloadGenerator`. -/
structure Config where
  rowGenerator : RowGenerator
  maxIteration : Nat
  fillLocal : Bool := false

/-- `get_memset_range` and `get_memtest_range` of `RowListPayloadGenerator`. -/
def Config.range (cfg : Config) (mapping : RowMapping) (settings : Settings) (mainRamBase : Int) (mainRamSize : Nat) :
    Py (Int × Int) :=
  if !cfg.fillLocal then .ok (0x0, mainRamSize)
  else cfg.rowGenerator.getMemoryRange mapping settings mainRamBase mainRamSize

end RowList

/-! ## Half-double attacks -/

namespace HalfDouble

section Ranges
variable (cfg : Config) (m : Machine) (settings : Settings) (mainRamBase : Int) (mainRamSize : Nat)

/-- `get_memset_range`; without `fill_local` the whole memory is filled. -/
def getMemsetRange (fillLocal : Bool) : Py (Int × Int) :=
  if !fillLocal then .ok (0x0, mainRamSize)
  else do
    let rowSequence ← m.rowGenerator.generateRows m.iteration cfg.rowMapping
    let logicalVictim ← m.rowGenerator.getLogicalVictim m.iteration
    let victim := cfg.rowMapping.logicalToPhysicalInt logicalVictim
    HammerTolerance.rangeOfRows settings mainRamBase mainRamSize (rowSequence ++ [victim])

/-- `get_memtest_range`: the row of the victim. -/
def getMemtestRange : Py (Int × Int) := do
  let logicalVictim ← m.rowGenerator.getLogicalVictim m.iteration
  let victim := cfg.rowMapping.logicalToPhysicalInt logicalVictim
  HammerTolerance.rangeOfRows settings mainRamBase mainRamSize [victim]

end Ranges

end HalfDouble

/-! ## The generators -/

/-- `RowListPayloadGenerator`, `LoggedRowListPayloadGenerator`, `HammerTolerancePayloadGenerator` and
`HalfDoubleAnalysisPayloadGenerator`, with their configurations. -/
inductive Attack where
  | rowList (cfg : RowList.Config)
  | loggedRowList (cfg : RowList.Config) (g : LogGenerator)
  | hammerTolerance (cfg : HammerTolerance.Config)
  | halfDouble (cfg : HalfDouble.Config) (fillLocal : Bool)

namespace Attack

/-- The attributes that change. -/
def State : Attack → Type
  | .rowList _ => RowListState
  | .loggedRowList _ _ => LogState
  | .hammerTolerance _ => HammerTolerance.State
  | .halfDouble _ _ => HalfDouble.State

/-- A board, as the generators see it. -/
structure Target where
  settings : Settings
  timings : Timings
  mainRamBase : Int
  mainRamSize : Nat
  payloadMemSize : Nat

variable (b : Target)

/-- The rows that `get_payload` is about to hammer. -/
def rows : (a : Attack) → a.State → Py (List Int)
  | .rowList cfg, st => cfg.rowGenerator.generateRows st.rowMapping st.iteration
  | .loggedRowList cfg g, st => cfg.rowGenerator.generateRows g.rowMapping st.iteration
  | .hammerTolerance cfg, st => do
    let request ← HammerTolerance.payloadRequest cfg st b.timings b.settings.bankbits 0 b.payloadMemSize
    return request.rowSequence
  | .halfDouble cfg _, st => st.machine.rowGenerator.generateRows st.machine.iteration cfg.rowMapping

/-- `get_payload`. The call of `generate_payload_from_row_list` raises, as its arguments `nranks` and `rank`, which have
no default, are missing. -/
def getPayload (a : Attack) (st : a.State) : Py (List Nat) := do
  let _ ← a.rows b st
  .error .typeError

def getMemsetRange : (a : Attack) → a.State → Py (Int × Int)
  | .rowList cfg, st => cfg.range st.rowMapping b.settings b.mainRamBase b.mainRamSize
  | .loggedRowList cfg g, _ => cfg.range g.rowMapping b.settings b.mainRamBase b.mainRamSize
  | .hammerTolerance cfg, st => HammerTolerance.getMemsetRange cfg st b.settings b.mainRamBase b.mainRamSize
  | .halfDouble cfg fillLocal, st =>
    HalfDouble.getMemsetRange cfg st.machine b.settings b.mainRamBase b.mainRamSize fillLocal

def getMemtestRange : (a : Attack) → a.State → Py (Int × Int)
  | .rowList cfg, st => cfg.range st.rowMapping b.settings b.mainRamBase b.mainRamSize
  | .loggedRowList cfg g, _ => cfg.range g.rowMapping b.settings b.mainRamBase b.mainRamSize
  | .hammerTolerance cfg, st => HammerTolerance.getMemtestRange cfg st b.settings b.mainRamBase b.mainRamSize
  | .halfDouble cfg _, st => HalfDouble.getMemtestRange cfg st.machine b.settings b.mainRamBase b.mainRamSize

def processErrors : (a : Attack) → a.State → RowErrors → Py a.State
  | .rowList _, st, rowErrors => .ok (RowList.processErrors st rowErrors).1
  | .loggedRowList _ g, st, rowErrors => LoggedRowList.processErrors g st rowErrors
  | .hammerTolerance cfg, st, rowErrors => HammerTolerance.processErrors cfg st rowErrors
  | .halfDouble cfg _, st, rowErrors => do
    let (st, _) ← HalfDouble.processErrors cfg st rowErrors
    return st

def done : (a : Attack) → a.State → Bool
  | .rowList cfg, st => decide (st.iteration ≥ cfg.maxIteration)
  | .loggedRowList cfg _, st => decide (st.iteration ≥ cfg.maxIteration)
  | .hammerTolerance cfg, st => decide (st.iteration ≥ cfg.maxIteration)
  | .halfDouble cfg _, st => decide ((st.machine.iteration : Int) ≥ cfg.maxAttackRowIdx - 4)

/-- The methods as `main` calls them. -/
def generator (a : Attack) : PayloadGenerator a.State where
  getMemsetRange := a.getMemsetRange b
  getPayload := a.getPayload b
  getMemtestRange := a.getMemtestRange b
  processErrors := a.processErrors
  done := a.done

theorem exists_getPayload_error (a : Attack) (st : a.State) : ∃ e, a.getPayload b st = .error e := by
  unfold getPayload
  cases a.rows b st with
  | ok rows => exact ⟨.typeError, rfl⟩
  | error e => exact ⟨e, rfl⟩

theorem getPayload_of_rows {a : Attack} {st : a.State} {rows : List Int} (h : a.rows b st = .ok rows) :
    a.getPayload b st = .error .typeError := by
  rw [getPayload, h]
  rfl

end Attack

/-! ## A loop without a payload -/

section Unpaid
variable {σ : Type} {aw w k rb : Nat} {pg : PayloadGenerator σ} {p : PayloadExecutor.Params} {ddr5 : Bool}
  {env : Nat → Input aw w} {wait : Nat → Nat} {F : Fifo (BitVec aw)} {G : Fifo (Reader.ErrorRecord w)}
  {words : List (Nat → DfiPhase)} {withRefresh : Bool} {atRefresh rowPattern : Nat} {settings : Settings}
  {mainRamBase : Int} {st : σ} {e : PyError}

section Round
variable (hpayload : pg.getPayload st = .error e)
include hpayload

/-- A round without a payload ends with it, or before. -/
theorem mainRound_eq (rounds : Nat) (cache : Cache) :
    mainRound pg settings mainRamBase w rowPattern rounds st cache =
      (ofPy (pg.getMemsetRange st)).bind fun range =>
        (onBist (hwMemset w rounds range.1.toNat range.2.toNat [rowPattern])).bind fun _ =>
          (ofPy settings.load).bind fun _ => .fail (.raised e) := by
  unfold mainRound
  rw [hpayload]
  rfl

theorem mainRound_undriven {c₀ : At (RowHammerSoC F G k rb)}
    (hundriven : Undriven words withRefresh atRefresh c₀.device) (rounds : Nat) (cache : Cache) :
    ∃ e' c₁, runHost (soc p ddr5) env wait (mainRound pg settings mainRamBase w rowPattern rounds st cache) c₀ =
      (.error e', c₁) ∧ Undriven words withRefresh atRefresh c₁.device := by
  rw [mainRound_eq hpayload]
  refine Preserves.exists_error ?_ ?_ hundriven
  · refine (preserves_ofPy _).bind fun range => ?_
    refine ((bistPart p ddr5 env words withRefresh atRefresh).preserves wait _).bind fun _ => ?_
    exact (preserves_ofPy _).bind fun _ => Preserves.fail _
  · refine Fails.bind _ fun range => ?_
    refine Fails.bind _ fun _ => ?_
    exact Fails.bind _ fun _ => Fails.fail _ _ _ _

variable (hdone : pg.done st = false)
include hdone

/-- **Without a payload** the loop fails and leaves the executor alone, however many rounds it is given. -/
theorem main_undriven {c₀ : At (RowHammerSoC F G k rb)} (hundriven : Undriven words withRefresh atRefresh c₀.device)
    (rounds : Nat) (cache : Cache) : ∃ e' c₁, runHost (soc p ddr5) env wait
      (main pg settings mainRamBase w rowPattern rounds st cache) c₀ = (.error e', c₁) ∧
        Undriven words withRefresh atRefresh c₁.device := by
  cases rounds with
  | zero => exact ⟨.outOfRounds, c₀, rfl, hundriven⟩
  | succ n =>
    obtain ⟨e', c₁, hrun, hkept⟩ := mainRound_undriven hpayload hundriven (n + 1) cache
    refine ⟨e', c₁, ?_, hkept⟩
    unfold main
    rw [Host.loop]
    apply runHost_bind_error
    dsimp only
    rw [if_neg (Bool.eq_false_iff.mp hdone)]
    exact runHost_bind_error _ _ _ hrun

/-- The memory is filled before the loop fails. -/
theorem main_raises {cs : Csrs w k rb} {dram : BitVec aw → BitVec w} {c : DramAddressConverter} {offset size : Nat}
    (hload : settings.load = .ok c) (hfill : pg.getMemsetRange st = .ok ((offset : Int), (size : Int)))
    (hrange : Testable aw w offset size) (hfair : FairStalls fun t => (env t).stalls)
    (hmodulo : cs.writer.modulo = false) (cache : Cache) :
    Raises (soc p ddr5) env wait (Quiet (F := F) (G := G) cs dram words withRefresh atRefresh)
      (fun g => main pg settings mainRamBase w rowPattern g st cache) (.raised e)
      (Quiet cs (filled cs.writer (offset / (w / 8)) (size / (w / 8)) rowPattern dram) words withRefresh atRefresh) := by
  unfold main
  apply Raises.loop
  dsimp only
  simp only [if_neg (Bool.eq_false_iff.mp hdone), mainRound_eq hpayload]
  apply Raises.left
  refine ofPy_raises hfill ?_
  refine Raises.bind (hwMemset_soc hfair hrange hmodulo rowPattern) fun _ => ?_
  exact ofPy_raises hload Raises.fail

end Round

end Unpaid

/-- **The attacks of the playbook do not hammer.** In every state of a generator that is not done, whatever the DMAs and
the host do, the loop fails, and nothing has reached the DRAM from the executor. It raises a `TypeError` as soon as the
rows are known and the memory is filled. -/
theorem attack_never_hammers {aw w k rb : Nat} {F : Fifo (BitVec aw)} {G : Fifo (Reader.ErrorRecord w)}
    (p : PayloadExecutor.Params) (ddr5 : Bool) (env : Nat → Input aw w) (wait : Nat → Nat) (a : Attack)
    (b : Attack.Target) (st : a.State) (hdone : a.done st = false) (rowPattern : Nat) (c₀ : At (RowHammerSoC F G k rb))
    (words : List (Nat → DfiPhase)) (hidle : ExecutorBoard.Idle words c₀.device.executor) :
    (∀ rounds, ∃ stop c₁, runHost (soc p ddr5) env wait
        (main (a.generator b) b.settings b.mainRamBase w rowPattern rounds st fun _ => none) c₀ = (.error stop, c₁) ∧
          c₁.device.executor.words = words) ∧
      ∀ (rows : List Int) (c : DramAddressConverter) (offset size : Nat) (cs : Csrs w k rb) (dram : BitVec aw → BitVec w),
        a.rows b st = .ok rows → b.settings.load = .ok c →
        a.getMemsetRange b st = .ok ((offset : Int), (size : Int)) → Testable aw w offset size →
        FairStalls (fun t => (env t).stalls) → cs.writer.modulo = false → Resting cs dram c₀.device.bist →
        ∃ f c₁, (∀ rounds, f ≤ rounds → runHost (soc p ddr5) env wait
            (main (a.generator b) b.settings b.mainRamBase w rowPattern rounds st fun _ => none) c₀ =
              (.error (.raised .typeError), c₁)) ∧
          c₁.device.bist.dram = filled cs.writer (offset / (w / 8)) (size / (w / 8)) rowPattern dram := by
  have hundriven : Undriven words c₀.device.executor.withRefresh c₀.device.executor.atRefresh c₀.device :=
    ⟨hidle, rfl, rfl⟩
  refine ⟨fun rounds => ?_, ?_⟩
  · obtain ⟨e, hraises⟩ := a.exists_getPayload_error b st
    have hpayload : (a.generator b).getPayload st = .error e := hraises
    obtain ⟨stop, c₁, hrun, hkept⟩ := main_undriven hpayload hdone hundriven rounds _
    exact ⟨stop, c₁, hrun, hkept.idle.words⟩
  · intro rows c offset size cs dram hrows hload hfill hrange hfair hmodulo hresting
    have hpayload : (a.generator b).getPayload st = .error .typeError := a.getPayload_of_rows b hrows
    obtain ⟨f, c₁, hrun, cs', -, hrested, -⟩ := main_raises hpayload hdone hload hfill hrange hfair hmodulo _ c₀
      ⟨cs, ⟨rfl, rfl, fun _ => rfl, fun _ => rfl⟩, hresting, hundriven⟩
    exact ⟨f, c₁, hrun, hrested.dram⟩

/-- A list of two rows. -/
def pairOfRows : Attack := .rowList { rowGenerator := .sequence [0, 1], maxIteration := 10 }

/-- A memory of 64 bytes. -/
def smallTarget : Attack.Target :=
  { settings := retentionLog.settings, timings := ⟨5, 3, 40, 10⟩, mainRamBase := 0x40000000, mainRamSize := 64,
    payloadMemSize := 1024 }

/-- The memory is filled, and the rows are not hammered. -/
theorem attack_never_hammers_pair : ∃ f c₁, (∀ rounds, f ≤ rounds → runHost (soc retentionParams false) forgetful
      (fun _ => 100) (main (pairOfRows.generator smallTarget) smallTarget.settings 0x40000000 32 0x1234 rounds
        (RowListState.mk .TrivialRowMapping 0) fun _ => none) ⟨0, resetSoc⟩ = (.error (.raised .typeError), c₁)) ∧
      c₁.device.bist.dram = filled resetSoc.bist.csrs.writer 0 16 0x1234 resetSoc.bist.dram ∧
      c₁.device.executor.words = [] := by
  obtain ⟨hnever, hraises⟩ := attack_never_hammers retentionParams false forgetful (fun _ => 100) pairOfRows smallTarget
    (RowListState.mk .TrivialRowMapping 0) rfl 0x1234 ⟨0, resetSoc⟩ [] ⟨rfl, rfl, rfl, rfl, Nat.two_pow_pos 32, rfl⟩
  obtain ⟨f, c₁, hrun, hdram⟩ := hraises [0, 1] retentionLog.converter 0 64 resetSoc.bist.csrs resetSoc.bist.dram rfl rfl
    rfl ⟨by decide, by decide, ⟨by decide, by decide, by decide, by decide⟩, by decide⟩ sampleStalls_fair rfl
    ⟨rfl, rfl, Reader.reset_idle, rfl⟩
  obtain ⟨stop, c₂, hrun', hwords⟩ := hnever f
  have hsame := (hrun f (Nat.le_refl f)).symm.trans hrun'
  exact ⟨f, c₁, hrun, hdram, (congrArg (fun x => x.2.device.executor.words) hsame).trans hwords⟩

end RowhammerTester.Playbook
