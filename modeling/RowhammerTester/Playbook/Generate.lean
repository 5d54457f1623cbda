import RowhammerTester.Gateware.Instruction

/-!
# The hammering payload generator of the playbook library

* `encodeOneLoop` : one hardware loop around `unrolled` copies of the row sequence, refreshes inserted;
* `encodeLongLoop` : as many loops as needed for `rolled` iterations;
* `leastCommonMultiple`;
* `generatePayloadFromRowList` : the words of a whole payload.
-/

namespace RowhammerTester.Playbook
open RowhammerTester.Gateware

/-- The memory timings, in clock cycles. -/
structure Timings where
  tRAS : Nat
  tRP : Nat
  tREFI : Nat
  tRFC : Nat
deriving DecidableEq, Repr

/-! ## Loops -/

/-- The keyword arguments that `encode_long_loop` hands on to `encode_one_loop`. -/
structure LoopArgs where
  rowSequence : List Nat
  timings : Timings
  encoder : Encoder
  bank : Nat
  rank : Nat
  refreshOp : OpCode

/-- The variables of the loops of `encode_one_loop`. -/
structure LoopVars where
  payload : List Encoder.I
  accum : Nat
  localRefreshes : Nat

/-- The refresh in front of a row that would end after tREFI. -/
def insertRefresh (a : LoopArgs) (v : LoopVars) : Py LoopVars :=
  if v.accum + a.timings.tRAS + a.timings.tRP > a.timings.tREFI then do
    let ref ← Encoder.I.init a.refreshOp { timeslice := some a.timings.tRFC }
    return { payload := v.payload ++ [ref], accum := a.timings.tRFC, localRefreshes := v.localRefreshes + 1 }
  else return v

/-- The loop body of `encode_one_loop`. -/
def encodeRow (a : LoopArgs) (v : LoopVars) (row : Nat) : Py LoopVars := do
  let tras := a.timings.tRAS
  let trp := a.timings.tRP
  let v ← insertRefresh a v
  let actAddress ← a.encoder.address { bank := a.bank, row := some row, rank := some a.rank }
  let act ← Encoder.I.init .ACT { timeslice := some tras, address := some actAddress }
  -- precharge all banks
  let preAddress ← a.encoder.address { col := some (1 <<< 10), rank := some a.rank }
  let pre ← Encoder.I.init .PRE { timeslice := some trp, address := some preAddress }
  return { v with payload := v.payload ++ [act, pre], accum := v.accum + (tras + trp) }

/-- The payload with the loop appended, and the number of refreshes issued. -/
def encodeOneLoop (unrolled rolled : Nat) (a : LoopArgs) (payload : List Encoder.I) :
    Py (List Encoder.I × Nat) := do
  let trfc := a.timings.tRFC
  let ref ← Encoder.I.init a.refreshOp { timeslice := some trfc }
  -- an extra cycle for the jump at the end
  let init : LoopVars := { payload := payload ++ [ref], accum := trfc + 1, localRefreshes := 1 }
  let v ← (List.range unrolled).foldlM (fun v _ => a.rowSequence.foldlM (encodeRow a) v) init
  let jumpTarget := 2 * unrolled * a.rowSequence.length + v.localRefreshes
  Py.check (jumpTarget < 2 ^ Decoder.LOOP_JUMP) (.assertionError "")
  let loop ← Encoder.I.init .LOOP { count := some rolled, jump := some jumpTarget }
  return (v.payload ++ [loop], v.localRefreshes * (rolled + 1))

def countMax : Nat := 2 ^ Decoder.LOOP_COUNT - 1

/-- `ceil(rolled / (count_max + 1))`. The division is one of floats; the divisor is a power of two, so the quotient is
rounded where `rolled` itself would be, and it overflows from `2^1024` on. -/
def nLoops (rolled : Nat) : Py Nat :=
  if 2 ^ 1024 * (countMax + 1) ≤ toDouble rolled then .error .overflowError
  else .ok ((toDouble rolled + countMax) / (countMax + 1))

/-- The count of the loop with index `outerIdx`. -/
def loopCount (rolled outerIdx : Nat) : Nat :=
  if outerIdx = 0 then
    let loopCount := rolled % (countMax + 1)
    if loopCount = 0 then countMax else loopCount - 1
  else countMax

/-- The payload with the loops appended, and the number of refreshes issued. -/
def encodeLongLoop (unrolled rolled : Nat) (a : LoopArgs) (payload : List Encoder.I) :
    Py (List Encoder.I × Nat) := do
  let n ← nLoops rolled
  (List.range n).foldlM (fun (payload, refreshes) outerIdx => do
    let (payload, local_) ← encodeOneLoop unrolled (loopCount rolled outerIdx) a payload
    return (payload, refreshes + local_)) (payload, 0)

/-! ## Least common multiple -/

/-- `while rem: gcd, rem = rem, gcd % rem`, which takes at most `|rem|` rounds. -/
def gcdLoop : Nat → Int → Int → Int
  | 0, gcd, _ => gcd
  | fuel + 1, gcd, rem => if rem = 0 then gcd else gcdLoop fuel rem (gcd.fmod rem)

def leastCommonMultiple (x y : Int) : Py Int :=
  let gcd := gcdLoop y.natAbs x y
  if gcd = 0 then .error .zeroDivisionError else .ok ((x * y).fdiv gcd)

/-! ## Payloads -/

/-- The keyword arguments of `generate_payload_from_row_list`, without those that only matter for printing. -/
structure RowListArgs where
  readCount : Nat
  rowSequence : List Nat
  timings : Timings
  bankbits : Nat
  bank : Nat
  nranks : Nat
  rank : Nat
  payloadMemSize : Nat
  refresh : Bool := false

def maxActsInLoop : Nat := (2 ^ Decoder.LOOP_JUMP - 1) / 2

/-- How many copies of a sequence of `len` rows are unrolled in one loop. -/
def repetitions (t : Timings) (len : Nat) : Py Nat := do
  Py.check (t.tRP + t.tRAS ≠ 0) .zeroDivisionError
  let actsPerInterval := ((t.tREFI : Int) - t.tRFC).fdiv (t.tRP + t.tRAS : Nat)
  let lcm ← leastCommonMultiple actsPerInterval len
  let repeatableUnit := min lcm maxActsInLoop
  Py.check (repeatableUnit ≥ len) (.assertionError "")
  Py.check (len ≠ 0) .zeroDivisionError
  return (repeatableUnit.fdiv len).toNat

def generatePayloadFromRowList (args : RowListArgs) : Py (List Nat) := do
  let encoder : Encoder := ⟨args.bankbits, args.nranks⟩
  let trefi := args.timings.tREFI
  let trfc := args.timings.tRFC
  let reps ← repetitions args.timings args.rowSequence.length
  Py.check (reps ≠ 0) .zeroDivisionError
  let readCountQuotient := args.readCount / reps
  let readCountRemainder := args.readCount % reps
  let refreshOp := if args.refresh then OpCode.REF else OpCode.NOOP
  -- waits until tRFC is satisfied, and tREFI as the first instruction of a loop is a REF
  let lead ← Encoder.I.init .NOOP { timeslice := some (max 1 (max (trfc - 2) (trefi - 2))) }
  let a : LoopArgs := ⟨args.rowSequence, args.timings, encoder, args.bank, args.rank, refreshOp⟩
  let (payload, _) ← encodeLongLoop reps readCountQuotient a [lead]
  let (payload, _) ← encodeLongLoop 1 readCountRemainder a payload
  -- the memory controller's refresh timer is reset on the mode transition: a REF now is in sync with it
  let sync ← Encoder.I.init refreshOp { timeslice := some 1 }
  let stop ← Encoder.I.init .NOOP { timeslice := some 0 }
  let payload := payload ++ [sync, stop]
  Py.check (payload.length ≤ args.payloadMemSize / 4) (.systemExit 1)
  return Encoder.encodePayload payload

end RowhammerTester.Playbook
