import RowhammerTester.Firmware.Bytes
import RowhammerTester.Firmware.Traced

/-!
# The Etherbone server

`etherbone_callback` looks for a packet in the bytes received, copies it and carries it out; the response is stored in
the receive buffer.

Layout of `struct etherbone_packet` (16 bytes, then the records of 4 bytes): magic at 0, `pf`, `pr`, `nr`, a reserved
bit and the version in byte 2, the port size and the address size in byte 3, padding up to 8, the flags of the record
header at 8, the byte enable at 9, `wcount` at 10, `rcount` at 11, and at 12 the base address, of the writes and of the
response alike.

* `Event` : what the server does; `Server` : a program over the receive buffer;
* `checkHeader`, `probeResponse`, `processPacket` : the request, as bytes of its own, and the response;
* `search`, `packetLength`, `callback` : the whole callback. The answers of the read handler, the outcome of `malloc`
  and what stands in memory behind the copy are parameters; `buf_size` is ignored, as in the source;
* `calls` : the calls of the memory handlers.
-/

namespace RowhammerTester.Firmware.Etherbone

inductive Event where
  /-- A byte of the receive buffer is looked at before the packet is copied. -/
  | examine (k : Nat)
  /-- A byte of the copied request is loaded. -/
  | load (k : Nat)
  /-- A byte of the response is stored. -/
  | store (k : Nat)
  /-- A call of the write handler. -/
  | write (addr value : BitVec 32)
  /-- A call of the read handler and its answer. -/
  | read (addr value : BitVec 32)
  /-- A message and the numbers in it. -/
  | stderr (text : String) (values : List Nat)
deriving DecidableEq, Repr

/-- A program over the receive buffer. -/
abbrev Server := Traced Event Buffer

/-- `0x4e6f`. -/
def MAGIC : BitVec 16 := 0x4e6f

def ETHERBONE_HEADER_LENGTH : Nat := 8

def ETHERBONE_RECORD_HEADER_LENGTH : Nat := 4

/-! ## Accesses -/

section Accesses
open Traced

def examine (k : Nat) : Server Byte := do
  emit (.examine k)
  let buf ← get
  return buf k

def examineHalf (k : Nat) : Server (BitVec 16) := do
  let hi ← examine k
  let lo ← examine (k + 1)
  return hi ++ lo

variable (req : Buffer)

def load (k : Nat) : Server Byte := do
  emit (.load k)
  return req k

/-- `ntohs` of a field. -/
def loadHalf (k : Nat) : Server (BitVec 16) := do
  let hi ← load req k
  let lo ← load req (k + 1)
  return hi ++ lo

/-- `ntohl` of a field. -/
def loadWord (k : Nat) : Server (BitVec 32) := do
  let b0 ← load req k
  let b1 ← load req (k + 1)
  let b2 ← load req (k + 2)
  let b3 ← load req (k + 3)
  return b0 ++ b1 ++ b2 ++ b3

def loadField (k lo width : Nat) : Server Nat := do
  let b ← load req k
  return getField b lo width

def store (k : Nat) (v : Byte) : Server Unit := do
  emit (.store k)
  modify (Function.update · k v)

/-- Store the `htonl` of a word. -/
def storeWord (k : Nat) (v : BitVec 32) : Server Unit := do
  store k (wordByte v 0)
  store (k + 1) (wordByte v 1)
  store (k + 2) (wordByte v 2)
  store (k + 3) (wordByte v 3)

/-- Store a bit-field, the other bits of its byte kept. -/
def storeField (k lo width v : Nat) : Server Unit := do
  emit (.store k)
  modify fun buf => Function.update buf k (setField (buf k) lo width v)

end Accesses

/-! ## A packet -/

section Packet
open Traced
variable (req : Buffer)

def checkHeader : Server Int := do
  let magic ← loadHalf req 0
  if magic ≠ MAGIC then do
    emit (.stderr "Wrong magic: 0x%04x\n" [magic.toNat])
    return -1
  else do
    let version ← loadField req 2 4 4
    if version ≠ 1 then do
      emit (.stderr "Wrong version: %d\n" [version])
      return -1
    else do
      let addrSize ← loadField req 3 4 4
      if addrSize ≠ 4 then do
        emit (.stderr "Wrong addr_size: %d\n" [addrSize])
        return -1
      else do
        let portSize ← loadField req 3 0 4
        if portSize ≠ 4 then do
          emit (.stderr "Wrong port_size: %d\n" [portSize])
          return -1
        else return 0

/-- The header that both responses have but for `pr`. -/
def storeHeader (pr : Nat) : Server Unit := do
  store 0 0x4e
  store 1 0x6f
  storeField 2 4 4 1
  storeField 2 2 1 1
  storeField 2 1 1 pr
  storeField 2 0 1 0
  storeField 3 4 4 4
  storeField 3 0 4 4

def probeResponse : Server Int := do
  storeHeader 1
  return 8

variable (answers : Nat → BitVec 32)

/-- A round of the loop over the writes, `addr` its variable. -/
def writeRecord (i : Nat) (addr : BitVec 32) : Server (BitVec 32) := do
  let data ← loadWord req (16 + 4 * i)
  emit (.write addr data)
  return addr + 4

/-- A round of the loop over the reads; the read handler answers `answers i`. -/
def readRecord (i : Nat) (_ : Unit) : Server Unit := do
  let addr ← loadWord req (16 + 4 * i)
  emit (.read addr (answers i))
  storeWord (16 + 4 * i) (answers i)

/-- Copy the base address as it is. -/
def copyBase : Server Unit := do
  let b0 ← load req 12
  let b1 ← load req 13
  let b2 ← load req 14
  let b3 ← load req 15
  store 12 b0
  store 13 b1
  store 14 b2
  store 15 b3

def writeRecords (wcount : Nat) : Server Unit := do
  if wcount > 0 then do
    let addr ← loadWord req 12
    let _ ← foldRange (writeRecord req) addr wcount
    return ()
  else return ()

def readRecords (rcount : Nat) : Server Nat := do
  if rcount > 0 then do
    foldRange (readRecord req answers) () rcount
    storeHeader 0
    store 10 (BitVec.ofNat 8 rcount)
    store 11 0
    copyBase req
    return 16 + rcount * 4
  else return 0

def processPacket : Server Int := do
  let ok ← checkHeader req
  if ok ≠ 0 then return -1
  else do
    let pf ← loadField req 2 0 1
    if pf = 1 then probeResponse
    else do
      let rcount ← load req 11
      let wcount ← load req 10
      writeRecords req wcount.toNat
      let respLen ← readRecords req answers rcount.toNat
      return respLen

end Packet

/-! ## The callback -/

section Callback
open Traced

/-- The search for the magic from `offset` on, with `n` bytes left. -/
def searchFrom (offset : Nat) : Nat → Server (Option Nat)
  | 0 => return none
  | n + 1 => do
    let magic ← examineHalf offset
    if magic = MAGIC then return some offset else searchFrom (offset + 1) n

def search (recvLen : Nat) : Server (Option Nat) := searchFrom 0 recvLen

/-- The length of a section of the record. -/
def sectionLength (k : Nat) : Server Nat := do
  let count ← examine k
  if count ≠ 0 then do
    let count ← examine k
    return (1 + count.toNat) * 4
  else return 0

/-- `packet_len`. -/
def packetLength (offset : Nat) : Server Nat := do
  let b ← examine (offset + 2)
  if getField b 0 1 = 0 then do
    let writes ← sectionLength (offset + 10)
    let reads ← sectionLength (offset + 11)
    return ETHERBONE_HEADER_LENGTH + ETHERBONE_RECORD_HEADER_LENGTH + writes + reads
  else return ETHERBONE_HEADER_LENGTH

/-- The copy of a packet; `heap` stands for what is behind it. -/
def copied (buf heap : Buffer) (offset packetLen : Nat) : Buffer :=
  fun k => if k < packetLen then buf (offset + k) else heap k

def callback (answers : Nat → BitVec 32) (allocated : Bool) (heap : Buffer) (recvLen : Nat) : Server Int := do
  match ← search recvLen with
  | none => do
    emit (.stderr "Could not find packet magic: recv_len=%lu\n" [recvLen])
    return -1
  | some offset => do
    let bytesAvailable := recvLen - offset
    if bytesAvailable < ETHERBONE_HEADER_LENGTH then do
      emit (.stderr "Not enought bytes for EtherBone header: available=%lu\n" [bytesAvailable])
      return -1
    else do
      let packetLen ← packetLength offset
      if bytesAvailable < packetLen then do
        emit (.stderr "Received less bytes than packet_len: len=%lu, available=%lu\n" [packetLen, bytesAvailable])
        return -1
      else if !allocated then do
        emit (.stderr "Could not allocate buffer for packet: len=%lu\n" [packetLen])
        return -1
      else do
        let buf ← get
        processPacket (copied buf heap offset packetLen) answers

end Callback

/-! ## The calls of the handlers -/

/-- The event is a call of a memory handler. -/
def Event.isCall : Event → Bool
  | .write _ _ => true
  | .read _ _ => true
  | _ => false

/-- The calls of the memory handlers. -/
def calls {α : Type} (p : Server α) (buf : Buffer) : List Event := (p.events buf).filter Event.isCall

end RowhammerTester.Firmware.Etherbone
