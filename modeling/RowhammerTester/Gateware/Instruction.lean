import RowhammerTester.Hdl.Bits
import RowhammerTester.Python

/-!
# The payload instruction format: `OpCode`, `Decoder`, `Encoder`

* `OpCode` : the op codes and their values;
* `Geometry` : the field widths a decoder can be built with (the assertion of `Decoder.__init__` is a field);
* `Decoder` : the decoder's signals, `Decoder.decode` its combinational assignments;
* `Encoder`, `Encoder.I` : instruction specifications and their encoding, `Encoder.address` the DFI address field.
-/

namespace RowhammerTester.Gateware
open RowhammerTester.Hdl

/-! ## Op codes -/

inductive OpCode where
  | NOOP | LOOP | ACT | PRE | REF | ZQC | READ
deriving DecidableEq, Repr

namespace OpCode

/-- The three bits of an op code: `(ras, cas, we)` for the DRAM commands. -/
def value : OpCode → Nat
  | NOOP => 0b000
  | LOOP => 0b111
  | ACT => 0b100
  | PRE => 0b101
  | REF => 0b110
  | ZQC => 0b001
  | READ => 0b010

def name : OpCode → String
  | NOOP => "NOOP"
  | LOOP => "LOOP"
  | ACT => "ACT"
  | PRE => "PRE"
  | REF => "REF"
  | ZQC => "ZQC"
  | READ => "READ"

theorem value_lt (op : OpCode) : op.value < 2 ^ 3 := by cases op <;> decide

theorem value_inj {a b : OpCode} : a.value = b.value ↔ a = b := by
  cases a <;> cases b <;> decide

end OpCode

/-! ## Decoder -/

namespace Decoder

def OP_CODE : Nat := 3
def TIMESLICE : Nat := 5
def ADDRESS : Nat := 24
def TIMESLICE_NOOP : Nat := TIMESLICE + ADDRESS
def LOOP_COUNT : Nat := 12
def LOOP_JUMP : Nat := 17

end Decoder

/-- The address widths of a decoder; `Decoder.__init__` asserts that they fit the address field. -/
structure Geometry where
  rankbits : Nat
  bankbits : Nat
  rowbits : Nat
  colbits : Nat
  fits : rankbits + bankbits + max rowbits colbits ≤ Decoder.ADDRESS

/-- The widths of the samples. -/
theorem Geometry.sample_fits : 0 + 3 + max 14 10 ≤ Decoder.ADDRESS := by decide

/-- The width of `dfi_address`. -/
def Geometry.addressbits (g : Geometry) : Nat := max g.rowbits g.colbits

/-- The decoder's output signals. `dfiRank` only exists when `rankbits` is positive, otherwise it is 0. -/
structure Decoder where
  opCode : Nat
  timeslice : Nat
  address : Nat
  cas : Bool
  ras : Bool
  we : Bool
  dfiRank : Nat
  dfiBank : Nat
  dfiAddress : Nat
  loopCount : Nat
  loopJump : Nat
  stop : Bool
deriving DecidableEq, Repr

/-- The decoder's combinational assignments. -/
def Decoder.decode (g : Geometry) (instruction : BitVec 32) : Decoder :=
  let opCode := slice instruction.toNat 0 OP_CODE
  let tail := instruction.toNat / 2 ^ OP_CODE
  let timeslice :=
    if opCode = OpCode.NOOP.value then slice tail 0 TIMESLICE_NOOP else slice tail 0 TIMESLICE
  let address := slice tail TIMESLICE ADDRESS
  { opCode := opCode
    timeslice := timeslice
    address := address
    cas := opCode.testBit 1
    ras := opCode.testBit 2
    we := opCode.testBit 0
    dfiRank := slice address 0 g.rankbits
    dfiBank := slice address g.rankbits g.bankbits
    dfiAddress := slice address (g.rankbits + g.bankbits) g.addressbits
    loopCount := slice tail 0 LOOP_COUNT
    loopJump := slice tail LOOP_COUNT LOOP_JUMP
    stop := opCode == OpCode.NOOP.value && timeslice == 0 }

/-! ## Encoder -/

/-- The keyword arguments of `Encoder.I`. -/
structure Kwargs where
  timeslice : Option Nat := none
  address : Option Nat := none
  count : Option Nat := none
  jump : Option Nat := none
deriving DecidableEq, Repr

/-- `kwargs[key]`. -/
def Kwargs.get (key : String) : Option Nat → Py Nat
  | some v => .ok v
  | none => .error (.keyError key)

structure Encoder where
  bankbits : Nat
  nranks : Nat := 1
deriving DecidableEq, Repr

namespace Encoder

/-- An instruction specification: its keyword arguments and its `(width, value)` parts. -/
structure I where
  opCode : OpCode
  kwargs : Kwargs
  parts : List (Nat × Nat)
deriving DecidableEq, Repr

/-- `Encoder.I.__init__`. -/
def I.init (opCode : OpCode) (kwargs : Kwargs) : Py I :=
  match opCode with
  | .LOOP => do
    let count ← Kwargs.get "count" kwargs.count
    let jump ← Kwargs.get "jump" kwargs.jump
    return ⟨opCode, kwargs, [(Decoder.OP_CODE, opCode.value), (Decoder.LOOP_COUNT, count), (Decoder.LOOP_JUMP, jump)]⟩
  | .NOOP => do
    let timeslice ← Kwargs.get "timeslice" kwargs.timeslice
    return ⟨opCode, kwargs, [(Decoder.OP_CODE, opCode.value), (Decoder.TIMESLICE_NOOP, timeslice)]⟩
  | _ => do
    let timeslice ← Kwargs.get "timeslice" kwargs.timeslice
    if timeslice = 0 then
      throw (.assertionError "Timeslice for instructions other than NOOP should be > 0")
    -- PRE requires bank address
    if kwargs.address.isNone ∧ opCode ∉ [OpCode.REF] then
      throw (.assertionError (opCode.name ++ " instruction requires `address`"))
    return ⟨opCode, kwargs, [(Decoder.OP_CODE, opCode.value), (Decoder.TIMESLICE, timeslice),
      (Decoder.ADDRESS, kwargs.address.getD 0)]⟩

def encodeSpec (spec : I) : Nat := packFields spec.parts

def encode (opCode : OpCode) (kwargs : Kwargs) : Py Nat := encodeSpec <$> I.init opCode kwargs

def encodePayload (payload : List I) : List Nat := payload.map encodeSpec

/-- The keyword arguments of `Encoder.address`. -/
structure AddressArgs where
  rank : Option Nat := none
  bank : Nat := 0
  row : Option Nat := none
  col : Option Nat := none

/-- `log2_int`: the exponent of a power of two. -/
def log2Int (n : Nat) : Py Nat :=
  if n = 0 then .ok 0
  else if 2 ^ bitLength (n - 1) = n then .ok (bitLength (n - 1))
  else .error (.valueError "Not a power of 2")

def address (e : Encoder) (args : AddressArgs) : Py Nat := do
  if args.row.isSome ∧ args.col.isSome then
    throw (.assertionError "")
  let rowcol := (args.row.or args.col).getD 0
  let address := (args.bank &&& (2 ^ e.bankbits - 1)) ||| (rowcol <<< e.bankbits)
  if e.nranks > 1 then
    let shift ← log2Int e.nranks
    match args.rank with
    | some rank => return (address <<< shift) ||| rank
    | none => throw .typeError
  else
    return address

end Encoder

end RowhammerTester.Gateware
