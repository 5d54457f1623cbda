import RowhammerTester.Firmware.Etherbone.Isolation
import RowhammerTester.Firmware.Etherbone.Requests

/-!
# Sessions with the Etherbone server

The server, with the handlers of `main.c`, is a memory of words: what has been written is what is read, in every
sequence of datagrams.

* `PlMem`, `plMemWrite`, `plMemRead` : the handlers; `replay` : the calls of the handlers, one after the other;
* `Transfer` : a write or a read of words; `Transfer.next`, `Transfer.answer` : what a memory makes of it;
* `Sends` : a turn of the server whose datagram asks for a transfer; `Sends.report` : what the server makes of it;
* `session_refines`, `exists_replay` : a whole session; `server_is_memory` : both together.
-/

namespace RowhammerTester.Firmware.Etherbone
open Traced

/-! ## The handlers -/

/-- The bytes from `pl_mem->mem` on. -/
abbrev PlMem := Nat → Byte

/-- `pl_mem_write`, on a little-endian processor. -/
def plMemWrite (mem : PlMem) (addr value : BitVec 32) : PlMem := fun k =>
  if addr.toNat ≤ k ∧ k < addr.toNat + 4 then wordByte value (3 - (k - addr.toNat)) else mem k

/-- `pl_mem_read`. -/
def plMemRead (mem : PlMem) (addr : BitVec 32) : BitVec 32 :=
  mem (addr.toNat + 3) ++ mem (addr.toNat + 2) ++ mem (addr.toNat + 1) ++ mem addr.toNat

theorem plMemRead_self (mem : PlMem) (addr value : BitVec 32) : plMemRead (plMemWrite mem addr value) addr = value := by
  have hbyte : ∀ i < 4, plMemWrite mem addr value (addr.toNat + i) = wordByte value (3 - i) := by
    intro i hi
    rw [plMemWrite, if_pos (by omega), Nat.add_sub_cancel_left]
  have h0 : plMemWrite mem addr value addr.toNat = wordByte value 3 := hbyte 0 (by decide)
  rw [plMemRead, hbyte 3 (by decide), hbyte 2 (by decide), hbyte 1 (by decide), h0]
  exact append_wordByte value

/-- Words that do not overlap do not disturb each other. -/
theorem plMemRead_of_apart (mem : PlMem) {addr addr' : BitVec 32} (value : BitVec 32)
    (h : addr'.toNat + 4 ≤ addr.toNat ∨ addr.toNat + 4 ≤ addr'.toNat) :
    plMemRead (plMemWrite mem addr value) addr' = plMemRead mem addr' := by
  have hbyte : ∀ i < 4, plMemWrite mem addr value (addr'.toNat + i) = mem (addr'.toNat + i) := by
    intro i hi
    rw [plMemWrite, if_neg (by omega)]
  have h0 : plMemWrite mem addr value addr'.toNat = mem addr'.toNat := hbyte 0 (by decide)
  rw [plMemRead, hbyte 3 (by decide), hbyte 2 (by decide), hbyte 1 (by decide), h0, plMemRead]

/-- The calls of the handlers one after the other; `none` if a read is not answered with what the memory holds. -/
def replay : PlMem → List Event → Option PlMem
  | mem, [] => some mem
  | mem, .write addr value :: es => replay (plMemWrite mem addr value) es
  | mem, .read addr value :: es => if plMemRead mem addr = value then replay mem es else none
  | mem, .examine _ :: es => replay mem es
  | mem, .load _ :: es => replay mem es
  | mem, .store _ :: es => replay mem es
  | mem, .stderr _ _ :: es => replay mem es

theorem replay_append (es es' : List Event) : ∀ mem, replay mem (es ++ es') = (replay mem es).bind (replay · es') := by
  induction es with
  | nil => exact fun mem => rfl
  | cons e es ih =>
    intro mem
    cases e with
    | read addr value =>
      simp only [List.cons_append, replay]
      split
      · exact ih mem
      · rfl
    | write addr value => exact ih _
    | examine k => exact ih mem
    | load k => exact ih mem
    | store k => exact ih mem
    | stderr text values => exact ih mem

/-! ## Transfers -/

/-- What a client asks for. -/
inductive Transfer where
  | write (addr : BitVec 32) (values : List (BitVec 32))
  | read (addrs : List (BitVec 32))

namespace Transfer

/-- The words `values` from `addr` on. -/
def store : PlMem → BitVec 32 → List (BitVec 32) → PlMem
  | mem, _, [] => mem
  | mem, addr, value :: values => store (plMemWrite mem addr value) (addr + 4) values

/-- The memory after a transfer. -/
def next (mem : PlMem) : Transfer → PlMem
  | .write addr values => store mem addr values
  | .read _ => mem

/-- The words that a transfer brings back. -/
def answer (mem : PlMem) : Transfer → List (BitVec 32)
  | .write _ _ => []
  | .read addrs => addrs.map (plMemRead mem)

/-- The answers of transfers one after the other. -/
def answers : PlMem → List Transfer → List (List (BitVec 32))
  | _, [] => []
  | mem, t :: ts => t.answer mem :: answers (t.next mem) ts

/-- The request asks for the transfer. -/
def Asks (r : Request) : Transfer → Prop
  | .write addr values => r.baseWriteAddr = addr ∧ r.values = values ∧ r.readAddrs = []
  | .read addrs => r.values = [] ∧ r.readAddrs = addrs

end Transfer

/-- The datagram sent, if any, brings the words back. -/
def Brings (sent : Option (List Byte)) (words : List (BitVec 32)) : Prop :=
  (words = [] → sent = none) ∧ (words ≠ [] → ∃ bytes, sent = some bytes ∧ bytes.length = 16 + 4 * words.length ∧
    ∀ (i : Nat) (h : i < words.length), word (Buffer.ofList bytes) (16 + 4 * i) = words[i])

/-- The turn has a datagram that asks for the transfer. -/
def Sends (bufSize : Nat) (turn : Turn) (t : Transfer) : Prop :=
  turn.allocated = true ∧ ∃ r offset, Transfer.Asks r t ∧
    Arrives r (Buffer.ofList (turn.datagram.take bufSize)) (turn.datagram.take bufSize).length offset

namespace Transfer

/-- The calls for a transfer, its reads answered by `answers`. -/
def calls (answers : Nat → BitVec 32) : Transfer → List Event
  | .write addr values => values.mapIdx fun i value => .write (addr + BitVec.ofNat 32 (4 * i)) value
  | .read addrs => Request.readsOf answers addrs

/-- The words that are brought back then. -/
def replies (answers : Nat → BitVec 32) : Transfer → List (BitVec 32)
  | .write _ _ => []
  | .read addrs => addrs.mapIdx fun i _ => answers i

theorem replay_writes (values : List (BitVec 32)) : ∀ (mem : PlMem) (addr : BitVec 32),
    replay mem (values.mapIdx fun i value => .write (addr + BitVec.ofNat 32 (4 * i)) value) =
      some (store mem addr values) := by
  induction values with
  | nil => exact fun mem addr => rfl
  | cons value values ih =>
    intro mem addr
    have hzero : addr + BitVec.ofNat 32 (4 * 0) = addr := BitVec.add_zero addr
    have hsucc : ∀ i, addr + BitVec.ofNat 32 (4 * (i + 1)) = addr + 4 + BitVec.ofNat 32 (4 * i) := by
      intro i
      rw [BitVec.add_assoc, show 4 * (i + 1) = 4 + 4 * i by omega, BitVec.ofNat_add]
      rfl
    rw [List.mapIdx_cons, replay, hzero]
    simp only [hsucc]
    exact ih _ _

/-- Reads that are answered with what the memory holds leave it as it is. -/
theorem replay_reads {mem mem' : PlMem} (addrs : List (BitVec 32)) : ∀ answers : Nat → BitVec 32,
    replay mem (Request.readsOf answers addrs) = some mem' →
      mem' = mem ∧ (addrs.mapIdx fun i _ => answers i) = addrs.map (plMemRead mem) := by
  induction addrs with
  | nil =>
    intro answers h
    cases h
    exact ⟨rfl, rfl⟩
  | cons addr addrs ih =>
    intro answers h
    rw [Request.readsOf, List.mapIdx_cons, replay] at h
    split at h
    · next hread =>
      obtain ⟨hmem, hanswers⟩ := ih (fun i => answers (i + 1)) h
      refine ⟨hmem, ?_⟩
      rw [List.mapIdx_cons, List.map_cons, hread, hanswers]
    · cases h

/-- A transfer whose reads are answered by the memory. -/
theorem replay_calls {mem mem' : PlMem} {answers : Nat → BitVec 32} (t : Transfer)
    (h : replay mem (t.calls answers) = some mem') : mem' = t.next mem ∧ t.replies answers = t.answer mem := by
  cases t with
  | write addr values =>
    rw [calls, replay_writes] at h
    exact ⟨(Option.some.inj h).symm, rfl⟩
  | read addrs => exact replay_reads addrs answers h

/-- What the handlers answer in a memory. -/
def truth (mem : PlMem) : Transfer → Nat → BitVec 32
  | .write _ _, _ => 0
  | .read addrs, i => plMemRead mem (addrs.getD i 0)

theorem replay_readsOf {mem : PlMem} (addrs : List (BitVec 32)) : ∀ {answers : Nat → BitVec 32},
    (∀ (i : Nat) (h : i < addrs.length), answers i = plMemRead mem addrs[i]) →
    replay mem (Request.readsOf answers addrs) = some mem := by
  induction addrs with
  | nil => exact fun _ => rfl
  | cons addr addrs ih =>
    intro answers h
    have hfirst : plMemRead mem addr = answers 0 := (h 0 (Nat.succ_pos _)).symm
    rw [Request.readsOf, List.mapIdx_cons, replay, if_pos hfirst]
    exact ih fun i hi => h (i + 1) (Nat.succ_lt_succ hi)

theorem replay_truth (mem : PlMem) (t : Transfer) : replay mem (t.calls (t.truth mem)) = some (t.next mem) := by
  cases t with
  | write addr values => exact replay_writes values mem addr
  | read addrs =>
    apply replay_readsOf
    intro i hi
    rw [truth, List.getD_eq_getElem?_getD, List.getElem?_eq_getElem hi]
    rfl

end Transfer

/-! ## A turn of the server -/

section Report
variable {r : Request} {buf buf' : Buffer} {recvLen offset : Nat}

theorem Arrives.congr (h : Arrives r buf recvLen offset) (hsame : Same recvLen buf buf') :
    Arrives r buf' recvLen offset := by
  have hlen := length_bytes (r := r)
  have hreceived := h.received
  refine ⟨?_, h.received, ?_⟩
  · intro i hi
    rw [← hsame _ (by omega)]
    exact h.holds i hi
  · intro j hj
    unfold half
    rw [← hsame j (by omega), ← hsame (j + 1) (by omega)]
    exact h.first j hj

/-- A request for a transfer has one section only, and is served. -/
theorem Arrives.served (h : Arrives r buf recvLen offset) (answers : Nat → BitVec 32) (heap : Buffer) {t : Transfer}
    (hasks : Transfer.Asks r t) : Served r answers (callback answers true heap recvLen) buf := by
  apply (h.served_iff_words answers heap).mpr
  cases t with
  | write addr values => exact .inl hasks.2.2
  | read addrs =>
    by_cases hnil : r.readAddrs = []
    · exact .inl hnil
    · have hwords : r.words = r.baseRetAddr :: r.readAddrs := by
        unfold Request.words
        rw [if_pos hasks.1, if_neg hnil]
        rfl
      rw [hwords]
      exact .inr ⟨rfl, List.take_length⟩

theorem Transfer.calls_of_asks (answers : Nat → BitVec 32) {t : Transfer} (h : Asks r t) :
    r.writes ++ Request.readsOf answers r.readAddrs = t.calls answers := by
  cases t with
  | write addr values =>
    obtain ⟨rfl, rfl, hreads⟩ := h
    rw [hreads]
    exact List.append_nil _
  | read addrs =>
    obtain ⟨hvalues, rfl⟩ := h
    rw [Request.writes, hvalues]
    rfl

theorem Transfer.replies_of_asks (answers : Nat → BitVec 32) {t : Transfer} (h : Asks r t) :
    t.replies answers = r.readAddrs.mapIdx fun i _ => answers i := by
  cases t with
  | write addr values =>
    rw [h.2.2]
    rfl
  | read addrs =>
    rw [h.2]
    rfl

theorem word_ofList_map_range (b : Buffer) {k n : Nat} (h : k + 4 ≤ n) :
    word (Buffer.ofList ((List.range n).map b)) k = word b k := by
  have hbyte : ∀ j < n, Buffer.ofList ((List.range n).map b) j = b j := by
    intro j hj
    rw [Buffer.ofList, List.getD_eq_getElem?_getD, List.getElem?_map, List.getElem?_range hj]
    rfl
  unfold word
  rw [hbyte k (by omega), hbyte (k + 1) (by omega), hbyte (k + 2) (by omega), hbyte (k + 3) (by omega)]

/-- The response to a request that is served brings the answers back. -/
theorem Served.brings {answers : Nat → BitVec 32} {p : Server Int} (h : Served r answers p buf) :
    0 ≤ p.result buf ∧ Brings (sendResponse p buf) (r.readAddrs.mapIdx fun i _ => answers i) := by
  by_cases hnil : r.readAddrs = []
  · have hresult := h.silent hnil
    refine ⟨Int.le_of_eq hresult.symm, fun _ => if_pos hresult, fun hne => ?_⟩
    rw [hnil] at hne
    exact absurd rfl hne
  · obtain ⟨hresult, -, -, hwords, -⟩ := h.answered hnil
    have hlen : (r.readAddrs.mapIdx fun i _ => answers i).length = r.readAddrs.length := List.length_mapIdx
    have hbytes : (p.result buf).toNat = 16 + 4 * r.readAddrs.length := by omega
    refine ⟨by omega, fun hno => ?_, fun _ => ⟨_, if_neg (by omega), ?_, fun i hi => ?_⟩⟩
    · rw [List.mapIdx_eq_nil_iff] at hno
      exact absurd hno hnil
    · rw [List.length_map, List.length_range, hbytes, hlen]
    · rw [hlen] at hi
      rw [word_ofList_map_range _ (by omega), hwords i hi, List.getElem_mapIdx]

end Report

/-- A failure is passed on or silenced; anything else is passed on. -/
theorem serverCallback_of_nonneg (etherboneAbort : Bool) {turn : Turn} {recvLen : Nat} {buf : Buffer}
    (h : 0 ≤ (callback turn.answers turn.allocated turn.heap recvLen).result buf) :
    (serverCallback etherboneAbort turn recvLen).result buf =
        (callback turn.answers turn.allocated turn.heap recvLen).result buf ∧
      (serverCallback etherboneAbort turn recvLen).final buf =
        (callback turn.answers turn.allocated turn.heap recvLen).final buf ∧
      calls (serverCallback etherboneAbort turn recvLen) buf =
        calls (callback turn.answers turn.allocated turn.heap recvLen) buf := by
  refine ⟨?_, rfl, ?_⟩
  · unfold serverCallback
    rw [result_bind, result_pure, decide_eq_false (Int.not_lt.mpr h), Bool.and_false]
    rfl
  · unfold serverCallback
    rw [calls_bind, calls_pure, List.append_nil]

/-- What the server makes of a turn with a transfer. -/
theorem Sends.report {bufSize : Nat} {turn : Turn} {t : Transfer} (h : Sends bufSize turn t) (etherboneAbort : Bool)
    (buf : Buffer) :
    calls (serverCallback etherboneAbort turn (turn.datagram.take bufSize).length)
        (receive (turn.datagram.take bufSize) buf) = t.calls turn.answers ∧
      0 ≤ (serverCallback etherboneAbort turn (turn.datagram.take bufSize).length).result
        (receive (turn.datagram.take bufSize) buf) ∧
      Brings (sendResponse (serverCallback etherboneAbort turn (turn.datagram.take bufSize).length)
        (receive (turn.datagram.take bufSize) buf)) (t.replies turn.answers) := by
  obtain ⟨hallocated, r, offset, hasks, harrives⟩ := h
  have hsame : Same (turn.datagram.take bufSize).length (Buffer.ofList (turn.datagram.take bufSize))
      (receive (turn.datagram.take bufSize) buf) := same_receive _ (fun _ => 0) buf
  have hserved := (harrives.congr hsame).served turn.answers turn.heap hasks
  rw [← hallocated] at hserved
  obtain ⟨hnonneg, hbrings⟩ := hserved.brings
  obtain ⟨hresult, hfinal, hcalls⟩ := serverCallback_of_nonneg etherboneAbort hnonneg
  refine ⟨?_, ?_, ?_⟩
  · rw [hcalls, hserved.calls, Transfer.calls_of_asks turn.answers hasks]
  · rw [hresult]
    exact hnonneg
  · rw [sendResponse, hresult, hfinal, Transfer.replies_of_asks turn.answers hasks]
    exact hbrings

/-! ## Sessions -/

/-- A session of transfers whose reads the memory answers. -/
theorem session_refines (etherboneAbort : Bool) (bufSize : Nat) {turns : List Turn} {ts : List Transfer}
    (h : List.Forall₂ (Sends bufSize) turns ts) : ∀ (buf : Buffer) {mem mem' : PlMem},
    replay mem ((udpServerRun etherboneAbort bufSize buf turns).flatMap Report.calls) = some mem' →
    mem' = ts.foldl Transfer.next mem ∧
      List.Forall₂ Brings ((udpServerRun etherboneAbort bufSize buf turns).map Report.sent)
        (Transfer.answers mem ts) := by
  induction h with
  | nil =>
    intro buf mem mem' hreplay
    cases hreplay
    exact ⟨rfl, .nil⟩
  | @cons turn t turns ts hsends _ ih =>
    intro buf mem mem' hreplay
    obtain ⟨hcalls, hresult, hbrings⟩ := hsends.report etherboneAbort buf
    have hrun : udpServerRun etherboneAbort bufSize buf (turn :: turns) =
        _ :: udpServerRun etherboneAbort bufSize _ turns :=
      if_neg (Int.not_lt.mpr hresult)
    rw [hrun] at hreplay ⊢
    rw [List.flatMap_cons, replay_append, hcalls, Option.bind_eq_some_iff] at hreplay
    obtain ⟨mem₁, hfirst, hrest⟩ := hreplay
    obtain ⟨rfl, hreplies⟩ := t.replay_calls hfirst
    obtain ⟨hmem, hanswers⟩ := ih _ hrest
    refine ⟨hmem, ?_⟩
    rw [List.map_cons, Transfer.answers, ← hreplies]
    exact .cons hbrings hanswers

/-- The handlers of `main.c` have answers for every session. -/
theorem exists_replay (etherboneAbort : Bool) {bufSize : Nat} {turns : List Turn} {ts : List Transfer}
    (h : List.Forall₂ (Sends bufSize) turns ts) : ∀ (buf : Buffer) (mem : PlMem),
    ∃ turns', List.Forall₂ (fun turn turn' => turn' = { turn with answers := turn'.answers }) turns turns' ∧
      List.Forall₂ (Sends bufSize) turns' ts ∧
      ∃ mem', replay mem ((udpServerRun etherboneAbort bufSize buf turns').flatMap Report.calls) = some mem' := by
  induction h with
  | nil => exact fun buf mem => ⟨[], .nil, .nil, mem, rfl⟩
  | @cons turn t turns ts hsends _ ih =>
    intro buf mem
    have hsends' : Sends bufSize { turn with answers := t.truth mem } t := hsends
    obtain ⟨hcalls, hresult, -⟩ := hsends'.report etherboneAbort buf
    obtain ⟨turns', hsame, hall, mem', hreplay⟩ := ih ((serverCallback etherboneAbort { turn with answers := t.truth mem }
      (turn.datagram.take bufSize).length).final (receive (turn.datagram.take bufSize) buf)) (t.next mem)
    refine ⟨{ turn with answers := t.truth mem } :: turns', .cons rfl hsame, .cons hsends' hall, mem', ?_⟩
    have hrun : udpServerRun etherboneAbort bufSize buf ({ turn with answers := t.truth mem } :: turns') =
        _ :: udpServerRun etherboneAbort bufSize _ turns' := if_neg (Int.not_lt.mpr hresult)
    rw [hrun, List.flatMap_cons, replay_append, hcalls, Transfer.replay_truth]
    exact hreplay

/-- **The server is a memory.** Whatever surrounds the requests and whatever was in the buffer before, a sequence of
transfers can be served by the handlers of `main.c`, and whenever it is, the server answers as the memory itself would,
one transfer after the other, and leaves the memory as they leave it. -/
theorem server_is_memory (etherboneAbort : Bool) (bufSize : Nat) {turns : List Turn} {ts : List Transfer}
    (h : List.Forall₂ (Sends bufSize) turns ts) (buf : Buffer) (mem : PlMem) :
    (∃ turns' mem', List.Forall₂ (fun turn turn' => turn' = { turn with answers := turn'.answers }) turns turns' ∧
      replay mem ((udpServerRun etherboneAbort bufSize buf turns').flatMap Report.calls) = some mem') ∧
    ∀ mem', replay mem ((udpServerRun etherboneAbort bufSize buf turns).flatMap Report.calls) = some mem' →
      mem' = ts.foldl Transfer.next mem ∧
        List.Forall₂ Brings ((udpServerRun etherboneAbort bufSize buf turns).map Report.sent)
          (Transfer.answers mem ts) := by
  refine ⟨?_, fun mem' => session_refines etherboneAbort bufSize h buf⟩
  obtain ⟨turns', hsame, -, mem', hreplay⟩ := exists_replay etherboneAbort h buf mem
  exact ⟨turns', mem', hsame, hreplay⟩

/-- Two words are written and read back. -/
def sampleTurns : List Turn :=
  [⟨writeTwice.bytes, fun _ => 0, true, fun _ => 0⟩,
    ⟨readTwice.bytes, fun i => if i = 0 then 7 else 9, true, fun _ => 0⟩]

theorem sampleTurns_sends : List.Forall₂ (Sends 4096) sampleTurns [.write 0x80 [7, 9], .read [0x80, 0x84]] :=
  .cons ⟨rfl, writeTwice, 0, ⟨rfl, rfl, rfl⟩, arrives_ofList writeTwice⟩
    (.cons ⟨rfl, readTwice, 0, ⟨rfl, rfl⟩, arrives_ofList readTwice⟩ .nil)

theorem sampleTurns_replay : replay (fun _ => 0) ((udpServerRun true 4096 (fun _ => 0) sampleTurns).flatMap
    Report.calls) = some (Transfer.store (fun _ => 0) 0x80 [7, 9]) := by
  have hcalls : (udpServerRun true 4096 (fun _ => 0) sampleTurns).flatMap Report.calls =
      [.write 0x80 7, .write 0x84 9, .read 0x80 7, .read 0x84 9] := by decide +kernel
  rw [hcalls]
  rfl

theorem server_is_memory_twoWords :
    List.Forall₂ Brings ((udpServerRun true 4096 (fun _ => 0) sampleTurns).map Report.sent) [[], [7, 9]] :=
  ((server_is_memory true 4096 sampleTurns_sends (fun _ => 0) fun _ => 0).2 _ sampleTurns_replay).2

end RowhammerTester.Firmware.Etherbone
