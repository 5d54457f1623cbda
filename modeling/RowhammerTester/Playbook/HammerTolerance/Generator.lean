import RowhammerTester.Playbook.RowRange
import RowhammerTester.Playbook.Generate
import RowhammerTester.Scripts.RowHammer.Bitflips
import Mathlib.Logic.Function.Basic

/-!
# `HammerTolerancePayloadGenerator`

For one victim row after the other, the hammer tolerance test hammers the two rows at some distance from the victim more
and more often, and counts the flips in the victim.

* `Config`, `State` : the configuration and the attributes that change; `getRowForIter` : the rows of an iteration;
* `payloadRequest`, `getPayload` : the payload; `getMemsetRange`, `getMemtestRange` : the rows filled and tested;
* `Stats`, `gatherFullStats` : the histograms; `account` : what the errors of the victim do to them;
* `processErrors` : the errors of the victim accounted for, and on to the next payload.
-/

namespace RowhammerTester.Playbook.HammerTolerance
open RowhammerTester.Scripts DramAddressConverter RowHammer

/-! ## Configuration and state -/

/-- The module configuration with its defaults. -/
structure Config where
  rowMapping : RowMapping
  nrRows : Nat
  readCountStep : Int
  itersPerRow : Nat
  maxIteration : Nat
  nrChips : Nat
  fillLocal : Bool := false
  initialReadCount : Int := readCountStep
  distance : Nat := 1
  /-- `first_dummy_row`, which is there when `baseline` is set. -/
  firstDummyRow : Option Nat := none

def Config.baseline (cfg : Config) : Bool := cfg.firstDummyRow.isSome

/-- The dictionaries of histograms, absent keys as zero. The keys of nested dictionaries are pairs and triples. -/
structure Stats where
  rowErrors : Int → Nat := fun _ => 0
  bitErrors : Int → Nat := fun _ => 0
  beatErrors : Int × Nat → Nat := fun _ => 0
  chipErrorsPerRead : Int × Nat × Nat → Nat := fun _ => 0
  chipErrorsPerBeat : Int × Nat × Nat → Nat := fun _ => 0
  chipsWithErrorsPerBeat : Int × Nat → Nat := fun _ => 0

structure State where
  iteration : Nat := 0
  runBaseline : Bool
  /-- Set by the first baseline run. -/
  baselineFlips : Nat := 0
  stats : Stats := {}

/-- `initialize`. -/
def initialState (cfg : Config) : State := { runBaseline := cfg.baseline }

/-! ## The rows of an iteration -/

section Rows
variable (cfg : Config) (st : State)

/-- Logical and physical row number for `row_idx` from the point of view of the current iteration. -/
def getRowForIter (rowIdx : Nat) : Py (Int × Int) := do
  Py.check (rowIdx < 1 + 2 * cfg.distance) (.assertionError "")
  let victim ← Py.floordiv st.iteration cfg.itersPerRow
  let logicalRowNum ← Py.mod (victim + rowIdx) (cfg.nrRows - rowIdx)
  return (logicalRowNum, cfg.rowMapping.logicalToPhysicalInt logicalRowNum)

/-- The keyword arguments that `get_payload` gives to `generate_payload_from_row_list`. -/
structure RowListRequest where
  readCount : Int
  rowSequence : List Int
  timings : Timings
  bankbits : Nat
  bank : Nat
  payloadMemSize : Nat
  refresh : Bool := false

/-- The first of the two hammered rows. -/
def hammeredRow : Py Int :=
  if !st.runBaseline then do
    let (logicalRowNum, _) ← getRowForIter cfg st 0
    return logicalRowNum
  else do
    let row ← Py.ofOption (.attributeError "first_dummy_row") cfg.firstDummyRow
    return row

/-- The call of `get_payload`. -/
def payloadRequest (timings : Timings) (bankbits bank payloadMemSize : Nat) : Py RowListRequest := do
  let logicalRowNum ← hammeredRow cfg st
  let step ← Py.mod st.iteration cfg.itersPerRow
  return { readCount := cfg.initialReadCount + cfg.readCountStep * step
           rowSequence := [cfg.rowMapping.logicalToPhysicalInt logicalRowNum,
             cfg.rowMapping.logicalToPhysicalInt (logicalRowNum + 2 * cfg.distance)]
           timings, bankbits, bank, payloadMemSize }

/-- `get_payload`. The call raises, as its arguments `nranks` and `rank`, which have no default, are missing. -/
def getPayload (timings : Timings) (bankbits bank payloadMemSize : Nat) : Py (List Nat) := do
  let _ ← payloadRequest cfg st timings bankbits bank payloadMemSize
  .error .typeError

/-- `get_range_from_rows` of rows that may be below zero, which `_encode` does not accept. -/
def rangeOfRows (settings : Settings) (mainRamBase : Int) (mainRamSize : Nat) (rowNums : List Int) : Py (Int × Int) :=
  if ∀ row ∈ rowNums, 0 ≤ row then getRangeFromRows settings mainRamBase mainRamSize (rowNums.map Int.toNat)
  else do
    let conv ← settings.load
    let _ ← conv.getBusShift 32
    .error (.assertionError "Value larger than value bit-width")

def getMemsetRange (settings : Settings) (mainRamBase : Int) (mainRamSize : Nat) : Py (Int × Int) :=
  if !cfg.fillLocal then .ok (0, mainRamSize)
  else do
    let rows ← (List.range (1 + 2 * cfg.distance)).mapM (getRowForIter cfg st)
    rangeOfRows settings mainRamBase mainRamSize (rows.map Prod.snd)

def getMemtestRange (settings : Settings) (mainRamBase : Int) (mainRamSize : Nat) : Py (Int × Int) := do
  let (_, rowNum) ← getRowForIter cfg st cfg.distance
  rangeOfRows settings mainRamBase mainRamSize [rowNum]

end Rows

/-! ## The histograms -/

/-- `d[key] += n`. -/
def increase {κ : Type} [DecidableEq κ] (d : κ → Nat) (key : κ) (n : Nat) : κ → Nat := Function.update d key (d key + n)

def extractBits (bitString : List Char) (firstBit groupStride groupSize nrGroups : Nat) : List Char :=
  (List.range nrGroups).flatMap fun group => (bitString.drop (firstBit + group * groupStride)).take groupSize

section Histograms
variable (nrChips dqBits : Nat) (step : Int)

/-- A chip of a beat. -/
def gatherChip (beatFlips : List Char) (v : Stats × Nat) (chip : Nat) : Stats × Nat :=
  let (s, chipCount) := v
  let chipFlipsCount := ((beatFlips.drop (chip * dqBits)).take dqBits).count '1'
  let s :=
    if chipFlipsCount ≠ 0 then
      { s with chipErrorsPerBeat := increase s.chipErrorsPerBeat (step, chip, chipFlipsCount) 1 }
    else s
  -- every chip is counted
  (s, chipCount + 1)

/-- A beat, with the flips of the beats before. -/
def gatherBeat (flipsBin : List Char) (v : Stats × Nat) (bits : Nat) : Py (Stats × Nat) := do
  let (s, totalFlipCount) := v
  let beatFlips := (flipsBin.drop (bits * 64)).take 64
  let flipCount := beatFlips.count '1'
  Py.check (flipCount < 64) (.assertionError "")
  if flipCount = 0 then return v
  else
    let s := { s with beatErrors := increase s.beatErrors (step, flipCount) 1 }
    let (s, chipCount) := (List.range nrChips).foldl (gatherChip dqBits step beatFlips) (s, 0)
    let s :=
      if chipCount > 0 then
        { s with chipsWithErrorsPerBeat := increase s.chipsWithErrorsPerBeat (step, chipCount) 1 }
      else s
    return (s, totalFlipCount + flipCount)

/-- A chip of a word. -/
def gatherRead (flipsBin : List Char) (s : Stats) (chip : Nat) : Stats :=
  let chipFlipsCount := (extractBits flipsBin (chip * dqBits) 64 dqBits 8).count '1'
  if chipFlipsCount ≠ 0 then
    { s with chipErrorsPerRead := increase s.chipErrorsPerRead (step, chip, chipFlipsCount) 1 }
  else s

/-- `format(flips, "512b")[::-1]`. -/
def flipsText (flips : Nat) : List Char := ((binDigits flips).leftpad 512 ' ').reverse

def gatherError (s : Stats) (e : RowError) : Py Stats := do
  let flipsBin := flipsText (e.value ^^^ e.expected)
  Py.check (flipsBin.length = 512) (.assertionError "")
  let (s, totalFlipCount) ← (List.range 8).foldlM (gatherBeat nrChips dqBits step flipsBin) (s, 0)
  let s := (List.range nrChips).foldl (gatherRead dqBits step flipsBin) s
  return { s with bitErrors := increase s.bitErrors step totalFlipCount }

end Histograms

def gatherFullStats (cfg : Config) (step : Int) (errors : List RowError) (s : Stats) : Py Stats := do
  Py.check (cfg.nrChips ≠ 0) .zeroDivisionError
  errors.foldlM (gatherError cfg.nrChips (64 / cfg.nrChips) step) s

/-! ## The errors of the victim -/

section Errors
variable (cfg : Config)

/-- `row_errors[row_num]`, if there is such a key. -/
def errorsOf (rowErrors : RowErrors) (rowNum : Int) : Option (List RowError) :=
  if 0 ≤ rowNum then rowErrors.lookup rowNum.toNat else none

/-- The attributes for the next payload: an iteration is one run, or a baseline run and a run. -/
def nextRun (st : State) : State :=
  let st' :=
    if !st.runBaseline then { st with iteration := st.iteration + 1 }
    else { st with baselineFlips := 0 }
  if cfg.baseline then { st' with runBaseline := !st'.runBaseline } else st'

/-- The flips of a run beyond those of the baseline run. -/
def addFlips (s : Stats) (step : Int) (flippedBits : Nat) : Stats :=
  let s := { s with bitErrors := increase s.bitErrors step flippedBits }
  if flippedBits > 0 then { s with rowErrors := increase s.rowErrors step 1 } else s

/-- The errors of the row, if the run has been one of the baseline or not. -/
def account (step : Int) (runBaseline : Bool) (st : State) : Option (List RowError) → Py State
  | none => .ok st
  | some errors =>
    if errors.length > 0 then
      if !cfg.baseline then do
        let stats ← gatherFullStats cfg step errors st.stats
        return { st with stats := { stats with rowErrors := increase stats.rowErrors step 1 } }
      else if runBaseline then .ok { st with baselineFlips := st.baselineFlips + flips errors }
      else .ok { st with stats := addFlips st.stats step (flips errors - st.baselineFlips) }
    else .ok st

/-- The key of the histograms. -/
def stepOf (st : State) : Py Int := do
  let r ← Py.mod st.iteration cfg.itersPerRow
  return (r + 1) * cfg.readCountStep

def processErrors (st : State) (rowErrors : RowErrors) : Py State := do
  let step ← stepOf cfg st
  let (_, rowNum) ← getRowForIter cfg st cfg.distance
  account cfg step st.runBaseline (nextRun cfg st) (errorsOf rowErrors rowNum)

end Errors

end RowhammerTester.Playbook.HammerTolerance
