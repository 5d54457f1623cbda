import RowhammerTester.Firmware.Etherbone.Semantics

/-!
# Requests to the Etherbone server

* `Request` : a request other than a probe; `Request.bytes` : its bytes, first the section of the writes, then that of
  the reads; `Arrives` : a datagram with a request in it;
* `Served` : the writes are done in order, then the reads, and the answers are sent to the base return address;
* `served_iff` : a request is served unless both sections are there. The server takes the read addresses from the
  beginning of the records and the base return address from the base write address, wherever the section of the reads
  is.
-/

namespace RowhammerTester.Firmware.Etherbone
open Traced

/-- A request with writes and reads. -/
structure Request where
  /-- `pr`, `nr` and the reserved bit. -/
  bits : BitVec 3
  padding : BitVec 32
  /-- The flags of the record header. -/
  flags : Byte
  byteEnable : Byte
  baseWriteAddr : BitVec 32
  values : List (BitVec 32)
  values_lt : values.length < 256
  baseRetAddr : BitVec 32
  readAddrs : List (BitVec 32)
  readAddrs_lt : readAddrs.length < 256

namespace Request
variable (r : Request)

/-- Header and record header. -/
def headerBytes : List Byte :=
  [0x4e, 0x6f, BitVec.ofNat 8 (16 + 2 * r.bits.toNat), 0x44] ++ wordBytes r.padding ++
    [r.flags, r.byteEnable, BitVec.ofNat 8 r.values.length, BitVec.ofNat 8 r.readAddrs.length]

/-- The words behind the record header. -/
def words : List (BitVec 32) :=
  (if r.values = [] then [] else r.baseWriteAddr :: r.values) ++
    if r.readAddrs = [] then [] else r.baseRetAddr :: r.readAddrs

def bytes : List Byte := r.headerBytes ++ r.words.flatMap wordBytes

/-- The calls of the write handler that the request asks for. -/
def writes : List Event := r.values.mapIdx fun i value => .write (r.baseWriteAddr + BitVec.ofNat 32 (4 * i)) value

/-- The calls of the read handler for the addresses `addrs`. -/
def readsOf (answers : Nat → BitVec 32) (addrs : List (BitVec 32)) : List Event :=
  addrs.mapIdx fun i addr => .read addr (answers i)

end Request

/-- A datagram with the request `r` at `offset`, behind bytes without the magic. -/
structure Arrives (r : Request) (buf : Buffer) (recvLen offset : Nat) : Prop where
  holds : Holds buf offset r.bytes
  received : offset + r.bytes.length ≤ recvLen
  first : ∀ j < offset, half buf j ≠ MAGIC

/-- The request is carried out and answered. -/
structure Served (r : Request) (answers : Nat → BitVec 32) (p : Server Int) (buf : Buffer) : Prop where
  calls : calls p buf = r.writes ++ Request.readsOf answers r.readAddrs
  silent : r.readAddrs = [] → p.result buf = 0
  answered : r.readAddrs ≠ [] → p.result buf = 16 + 4 * r.readAddrs.length ∧ HeaderOk (p.final buf) ∧
    (p.final buf 10).toNat = r.readAddrs.length ∧
    (∀ i < r.readAddrs.length, word (p.final buf) (16 + 4 * i) = answers i) ∧ word (p.final buf) 12 = r.baseRetAddr

section Layout
variable {r : Request} {b : Buffer}

theorem length_bytes : r.bytes.length = 12 + 4 * r.words.length := by
  unfold Request.bytes
  rw [List.length_append, length_flatMap_wordBytes]
  rfl

theorem length_words : 4 * r.words.length =
    (if r.values = [] then 0 else (1 + r.values.length) * 4) +
      if r.readAddrs = [] then 0 else (1 + r.readAddrs.length) * 4 := by
  unfold Request.words
  rw [List.length_append]
  split <;> split <;> simp <;> omega

theorem words_of_values (h : r.values ≠ []) : r.words =
    r.baseWriteAddr :: (r.values ++ if r.readAddrs = [] then [] else r.baseRetAddr :: r.readAddrs) := by
  unfold Request.words
  rw [if_neg h]
  rfl

theorem length_readAddrs_lt_words (h : r.readAddrs ≠ []) : r.readAddrs.length < r.words.length := by
  unfold Request.words
  rw [if_neg h, List.length_append, List.length_cons]
  omega

theorem field_bits (bits : BitVec 3) : getField (BitVec.ofNat 8 (16 + 2 * bits.toNat)) 4 4 = 1 ∧
    getField (BitVec.ofNat 8 (16 + 2 * bits.toNat)) 0 1 = 0 := by
  revert bits
  decide

/-- The fields of a request. -/
theorem fields_of_holds (h : Holds b 0 r.bytes) : HeaderOk b ∧ getField (b 2) 0 1 = 0 ∧
    (b 10).toNat = r.values.length ∧ (b 11).toNat = r.readAddrs.length := by
  have hheader : Holds b 0 r.headerBytes := (holds_append.mp h).1
  have hlen : r.headerBytes.length = 12 := rfl
  have h0 : b 0 = 0x4e := hheader 0 (by omega)
  have h1 : b 1 = 0x6f := hheader 1 (by omega)
  have h2 : b 2 = BitVec.ofNat 8 (16 + 2 * r.bits.toNat) := hheader 2 (by omega)
  have h3 : b 3 = 0x44 := hheader 3 (by omega)
  have h10 : b 10 = BitVec.ofNat 8 r.values.length := hheader 10 (by omega)
  have h11 : b 11 = BitVec.ofNat 8 r.readAddrs.length := hheader 11 (by omega)
  obtain ⟨hversion, hpf⟩ := field_bits r.bits
  refine ⟨⟨?_, ?_, ?_, ?_⟩, ?_, ?_, ?_⟩
  · unfold half
    rw [h0, h1]
    decide
  · rw [h2, hversion]
  · rw [h3]
    decide
  · rw [h3]
    decide
  · rw [h2, hpf]
  · rw [h10, BitVec.toNat_ofNat, Nat.mod_eq_of_lt r.values_lt]
  · rw [h11, BitVec.toNat_ofNat, Nat.mod_eq_of_lt r.readAddrs_lt]

theorem word_of_request (h : Holds b 0 r.bytes) (i : Nat) (hi : i < r.words.length) :
    word b (12 + 4 * i) = r.words[i] := by
  have hwords := (holds_append.mp h).2
  exact word_of_holds hwords i hi

/-- The length that the callback computes. -/
theorem packetLen_of_holds (h : Holds b 0 r.bytes) : packetLen b = r.bytes.length := by
  obtain ⟨-, hpf, h10, h11⟩ := fields_of_holds h
  unfold packetLen
  rw [if_pos hpf, length_bytes, length_words, h10, h11]
  simp only [eq_zero_iff h10, eq_zero_iff h11, List.length_eq_zero_iff]
  omega

theorem Arrives.reaches {buf : Buffer} {recvLen offset : Nat} (h : Arrives r buf recvLen offset) :
    Reaches buf recvLen offset ∧ packetLen (buf.from offset) = r.bytes.length := by
  have hfrom : Holds (buf.from offset) 0 r.bytes := by
    intro i hi
    unfold Buffer.from
    rw [Nat.zero_add]
    exact h.holds i hi
  have hlen := packetLen_of_holds hfrom
  have h12 := length_bytes (r := r)
  have hreceived := h.received
  refine ⟨reaches_iff.mpr ⟨?_, h.first, by omega, by omega⟩, hlen⟩
  exact (fields_of_holds hfrom).1.1

/-- The copy of a request. -/
theorem Arrives.copied {buf : Buffer} {recvLen offset : Nat} (h : Arrives r buf recvLen offset) (heap : Buffer) :
    Holds (copied buf heap offset r.bytes.length) 0 r.bytes := by
  intro i hi
  unfold Etherbone.copied
  rw [Nat.zero_add, if_pos hi]
  exact h.holds i hi

end Layout

/-! ## What the server makes of a request -/

section Served
variable {r : Request} {answers : Nat → BitVec 32} {req buf : Buffer}

theorem field_header (b : Byte) :
    getField (setField (setField (setField (setField b 4 4 1) 2 1 1) 1 1 0) 0 1 0) 4 4 = 1 ∧
    getField (setField (setField b 4 4 4) 0 4 4) 4 4 = 4 ∧ getField (setField (setField b 4 4 4) 0 4 4) 0 4 = 4 := by
  revert b
  decide +kernel

/-- The response has a header that the server itself would accept. -/
theorem headerOk_response (n : Nat) : HeaderOk (response req answers n buf) := by
  have h0 : response req answers n buf 0 = 0x4e := rfl
  have h1 : response req answers n buf 1 = 0x6f := rfl
  have h2 : response req answers n buf 2 = setField (setField (setField (setField (putAnswers answers buf n 2) 4 4 1)
    2 1 1) 1 1 0) 0 1 0 := rfl
  have h3 : response req answers n buf 3 = setField (setField (putAnswers answers buf n 3) 4 4 4) 0 4 4 := rfl
  refine ⟨?_, ?_, ?_, ?_⟩
  · unfold half
    rw [h0, h1]
    decide
  · rw [h2, (field_header _).1]
  · rw [h3, (field_header _).2.1]
  · rw [h3, (field_header _).2.2]

/-- The writes are done as the request asks for. -/
theorem writeCalls_of_request (h : Holds req 0 r.bytes) : writeCalls req r.values.length = r.writes := by
  apply List.ext_getElem
  · simp [writeCalls, Request.writes]
  · intro i hi hi'
    have hlt : i < r.values.length := by simpa [writeCalls] using hi
    have hwords := words_of_values (r := r) (List.ne_nil_of_length_pos (by omega))
    have hlen : r.values.length < r.words.length := by
      rw [hwords, List.length_cons, List.length_append]
      omega
    have hbase : word req 12 = r.baseWriteAddr := by
      have h0 := word_of_request h 0 (by omega)
      simpa [hwords] using h0
    have hvalue : word req (16 + 4 * i) = r.values[i] := by
      have h1 := word_of_request h (i + 1) (by omega)
      rw [show 12 + 4 * (i + 1) = 16 + 4 * i by omega] at h1
      simpa [hwords, List.getElem_append_left hlt] using h1
    simp [writeCalls, Request.writes, hbase, hvalue]

/-- The addresses that are read: the first words behind the first. -/
theorem readCalls_of_request (h : Holds req 0 r.bytes) (hne : r.readAddrs ≠ []) :
    readCalls req answers r.readAddrs.length =
      Request.readsOf answers (r.words.tail.take r.readAddrs.length) := by
  have hlen := length_readAddrs_lt_words hne
  apply List.ext_getElem
  · simp [readCalls, Request.readsOf]
    omega
  · intro i hi hi'
    have hlt : i < r.readAddrs.length := by simpa [readCalls] using hi
    have h1 := word_of_request h (i + 1) (by omega)
    rw [show 12 + 4 * (i + 1) = 16 + 4 * i by omega] at h1
    simp [readCalls, Request.readsOf, h1]

theorem readsOf_injective (answers : Nat → BitVec 32) : Function.Injective (Request.readsOf answers) := by
  intro l l' h
  have hlen : l.length = l'.length := by
    have := congrArg List.length h
    simpa [Request.readsOf] using this
  apply List.ext_getElem hlen
  intro i hi hi'
  have hget : (Request.readsOf answers l)[i]? = (Request.readsOf answers l')[i]? := by rw [h]
  simp only [Request.readsOf, List.getElem?_mapIdx, List.getElem?_eq_getElem hi, List.getElem?_eq_getElem hi',
    Option.map_some, Option.some.injEq, Event.read.injEq, and_true] at hget
  exact hget

/-- What the callback does with a request. -/
theorem Arrives.callback_eq {recvLen offset : Nat} (h : Arrives r buf recvLen offset) (answers : Nat → BitVec 32)
    (heap : Buffer) : ∃ req, Holds req 0 r.bytes ∧
      (callback answers true heap recvLen).result buf =
        (if r.readAddrs = [] then 0 else 16 + r.readAddrs.length * 4 : Nat) ∧
      (callback answers true heap recvLen).final buf =
        (if r.readAddrs = [] then buf else response req answers r.readAddrs.length buf) ∧
      calls (callback answers true heap recvLen) buf =
        r.writes ++ readCalls req answers r.readAddrs.length := by
  obtain ⟨hreaches, hlen⟩ := h.reaches
  have hholds := h.copied heap
  obtain ⟨hok, hpf, h10, h11⟩ := fields_of_holds hholds
  obtain ⟨hresult, hfinal, hcalls⟩ := callback_of_reaches answers heap hreaches
  rw [hlen] at hresult hfinal hcalls
  obtain ⟨hpresult, hpfinal, hpcalls⟩ := processPacket_of_records _ buf answers hok hpf
  rw [h11] at hpresult hpfinal hpcalls
  rw [h10, writeCalls_of_request hholds] at hpcalls
  simp only [List.length_eq_zero_iff] at hpresult hpfinal
  exact ⟨_, hholds, hresult.trans hpresult, hfinal.trans hpfinal, hcalls.trans hpcalls⟩

/-- A request is served if the server finds the base return address and the read addresses where it looks for them. -/
theorem Arrives.served_iff_words {recvLen offset : Nat} (h : Arrives r buf recvLen offset) (answers : Nat → BitVec 32)
    (heap : Buffer) : Served r answers (callback answers true heap recvLen) buf ↔
      r.readAddrs = [] ∨ r.words.head? = some r.baseRetAddr ∧ r.words.tail.take r.readAddrs.length = r.readAddrs := by
  obtain ⟨req, hholds, hresult, hfinal, hcalls⟩ := h.callback_eq answers heap
  by_cases hnil : r.readAddrs = []
  · have hserved : Served r answers (callback answers true heap recvLen) buf := by
      refine ⟨?_, ?_, fun hne => absurd hnil hne⟩
      · rw [hcalls, hnil]
        rfl
      · intro _
        rw [hresult, if_pos hnil]
        rfl
    exact iff_of_true hserved (Or.inl hnil)
  · have hbase : word req 12 = r.baseRetAddr ↔ r.words.head? = some r.baseRetAddr := by
      have hpos : 0 < r.words.length := Nat.zero_lt_of_lt (length_readAddrs_lt_words hnil)
      have h0 : word req 12 = r.words[0] := word_of_request hholds 0 hpos
      rw [h0, List.head?_eq_getElem?, List.getElem?_eq_getElem hpos, Option.some.injEq]
    rw [if_neg hnil] at hresult hfinal
    rw [readCalls_of_request hholds hnil] at hcalls
    rw [or_iff_right hnil, ← hbase]
    constructor
    · intro hserved
      obtain ⟨-, -, -, -, hret⟩ := hserved.answered hnil
      rw [hfinal, word_response_base] at hret
      refine ⟨hret, readsOf_injective answers ?_⟩
      exact List.append_cancel_left (hcalls.symm.trans hserved.calls)
    · intro ⟨hret, htake⟩
      refine ⟨?_, fun hnil' => absurd hnil' hnil, fun _ => ⟨?_, ?_, ?_, ?_, ?_⟩⟩
      · rw [hcalls, htake]
      · rw [hresult]
        push_cast
        omega
      · rw [hfinal]
        exact headerOk_response _
      · rw [hfinal]
        change (BitVec.ofNat 8 r.readAddrs.length).toNat = _
        rw [BitVec.toNat_ofNat, Nat.mod_eq_of_lt r.readAddrs_lt]
      · intro i hi
        rw [hfinal]
        exact word_response hi
      · rw [hfinal, word_response_base, hret]

end Served

/-- A request is served exactly if one of its sections is empty, or the words of the section of the writes happen to be
those that the server looks for there. -/
theorem served_iff (r : Request) (answers : Nat → BitVec 32) (buf heap : Buffer) (recvLen offset : Nat)
    (h : Arrives r buf recvLen offset) : Served r answers (callback answers true heap recvLen) buf ↔
      r.values = [] ∨ r.readAddrs = [] ∨
        r.baseRetAddr = r.baseWriteAddr ∧ r.readAddrs <+: r.values ++ r.baseRetAddr :: r.readAddrs := by
  rw [h.served_iff_words]
  by_cases hreads : r.readAddrs = []
  · exact iff_of_true (Or.inl hreads) (Or.inr (Or.inl hreads))
  · by_cases hvalues : r.values = []
    · have hwords : r.words = r.baseRetAddr :: r.readAddrs := by
        unfold Request.words
        rw [if_pos hvalues, if_neg hreads]
        rfl
      rw [hwords]
      refine iff_of_true (Or.inr ⟨rfl, ?_⟩) (Or.inl hvalues)
      exact List.take_length
    · rw [words_of_values hvalues, if_neg hreads, or_iff_right hreads, or_iff_right hvalues, or_iff_right hreads,
        List.head?_cons, Option.some.injEq, List.tail_cons, List.prefix_iff_eq_take, eq_comm,
        eq_comm (a := r.readAddrs)]

/-- A write of 7 to `0x40`, then a read of `0x80`. -/
def writeThenRead : Request :=
  { bits := 0, padding := 0, flags := 0, byteEnable := 0x0f
    baseWriteAddr := 0x40, values := [7], values_lt := by decide
    baseRetAddr := 0, readAddrs := [0x80], readAddrs_lt := by decide }

/-- A read of `0x80` and `0x84`. -/
def readTwice : Request :=
  { bits := 0, padding := 0, flags := 0, byteEnable := 0x0f
    baseWriteAddr := 0, values := [], values_lt := by decide
    baseRetAddr := 0, readAddrs := [0x80, 0x84], readAddrs_lt := by decide }

/-- A write of two words. -/
def writeTwice : Request :=
  { bits := 0, padding := 0, flags := 0, byteEnable := 0x0f
    baseWriteAddr := 0x80, values := [7, 9], values_lt := by decide
    baseRetAddr := 0, readAddrs := [], readAddrs_lt := by decide }

theorem arrives_ofList (r : Request) : Arrives r (Buffer.ofList r.bytes) r.bytes.length 0 := by
  refine ⟨?_, by omega, fun j hj => absurd hj (Nat.not_lt_zero j)⟩
  intro i hi
  unfold Buffer.ofList
  rw [Nat.zero_add, List.getD_eq_getElem?_getD, List.getElem?_eq_getElem hi]
  rfl

theorem served_iff_readTwice : Arrives readTwice (Buffer.ofList readTwice.bytes) 24 0 ∧
    Served readTwice (fun _ => 5) (callback (fun _ => 5) true (fun _ => 0) 24) (Buffer.ofList readTwice.bytes) := by
  have harrives : Arrives readTwice (Buffer.ofList readTwice.bytes) 24 0 := arrives_ofList readTwice
  exact ⟨harrives, (served_iff readTwice _ _ _ 24 0 harrives).mpr (Or.inl rfl)⟩

/-- The read goes to address 7, the value written. -/
theorem read_address_is_value :
    Arrives writeThenRead (Buffer.ofList writeThenRead.bytes) 28 0 ∧
    calls (callback (fun _ => 5) true (fun _ => 0) 28) (Buffer.ofList writeThenRead.bytes) =
      [.write 0x40 7, .read 7 5] ∧
    ¬ Served writeThenRead (fun _ => 5) (callback (fun _ => 5) true (fun _ => 0) 28)
      (Buffer.ofList writeThenRead.bytes) := by
  have hcalls : calls (callback (fun _ => 5) true (fun _ => 0) 28) (Buffer.ofList writeThenRead.bytes) =
      [.write 0x40 7, .read 7 5] := by decide +kernel
  refine ⟨arrives_ofList writeThenRead, hcalls, ?_⟩
  intro hserved
  rw [hserved.calls] at hcalls
  exact absurd hcalls (by decide)

end RowhammerTester.Firmware.Etherbone
