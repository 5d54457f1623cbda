import RowhammerTester.Firmware.Etherbone.Bounds

/-!
# Datagrams do not leak into each other

The receive buffer keeps the bytes of earlier datagrams behind those of the last one, and the callback looks at some of
them on short datagrams.

* `Same n b b'` : two buffers with the same first `n` bytes; `reaches_congr`, `processPacket_congr` : the callback ends
  in the same way on both;
* `callback_isolated` : the calls, the return value and the response depend on the bytes received and on the answers
  alone, and a failed callback has called no handler;
* `udpServerRun` : the loop of the server, `udpServerRun_isolated`.
-/

namespace RowhammerTester.Firmware.Etherbone
open Traced

/-- The first `n` bytes are the same. -/
def Same (n : Nat) (b b' : Buffer) : Prop := ∀ k < n, b k = b' k

theorem Same.symm {n : Nat} {b b' : Buffer} (h : Same n b b') : Same n b' b := fun k hk => (h k hk).symm

section Packet
variable {req req' buf buf' : Buffer} {answers : Nat → BitVec 32} {n : Nat}

theorem headerOk_congr (h : Same 4 req req') : HeaderOk req ↔ HeaderOk req' := by
  unfold HeaderOk half
  rw [h 0 (by decide), h (0 + 1) (by decide), h 2 (by decide), h 3 (by decide)]

theorem word_congr {k : Nat} (h : Same n req req') (hk : k + 4 ≤ n) : word req k = word req' k := by
  unfold word
  rw [h k (by omega), h (k + 1) (by omega), h (k + 2) (by omega), h (k + 3) (by omega)]

theorem writeCalls_congr {wcount : Nat} (h : Same n req req') (hn : 0 < wcount → 16 + 4 * wcount ≤ n) :
    writeCalls req wcount = writeCalls req' wcount := by
  apply List.map_congr_left
  intro i hi
  rw [List.mem_range] at hi
  have hlen := hn (by omega)
  rw [word_congr h (show 12 + 4 ≤ n by omega), word_congr h (show 16 + 4 * i + 4 ≤ n by omega)]

theorem readCalls_congr {rcount : Nat} (h : Same n req req') (hn : 0 < rcount → 16 + 4 * rcount ≤ n) :
    readCalls req answers rcount = readCalls req' answers rcount := by
  apply List.map_congr_left
  intro i hi
  rw [List.mem_range] at hi
  have hlen := hn (by omega)
  rw [word_congr h (show 16 + 4 * i + 4 ≤ n by omega)]

/-- Two runs end in the same way: the same calls, return value and response, and no call where they fail. -/
structure EndsAlike (p p' : Server Int) (buf buf' : Buffer) : Prop where
  failed : p.result buf = -1 → calls p buf = []
  result : p.result buf = p'.result buf'
  calls : calls p buf = calls p' buf'
  response : ∀ k : Nat, (k : Int) < p.result buf → p.final buf k = p'.final buf' k

/-- A packet is carried out in the same way when its bytes and those that the response leaves are the same. -/
theorem processPacket_congr (hreq : Same (packetLen req) req req') (hbuf : Same n buf buf') (hn : packetLen req ≤ n) :
    EndsAlike (processPacket req answers) (processPacket req' answers) buf buf' := by
  have h8 := eight_le_packetLen req
  have hok := headerOk_congr fun k hk => hreq k (by omega)
  by_cases hheader : HeaderOk req
  · rcases getField_one (req 2) 0 with hpf | hpf
    · obtain ⟨h12, hw, hr⟩ := packetLen_of_records hpf
      have h10 : req 10 = req' 10 := hreq 10 (by omega)
      have h11 : req 11 = req' 11 := hreq 11 (by omega)
      have hpf' : getField (req' 2) 0 1 = 0 := hreq 2 (by omega) ▸ hpf
      obtain ⟨hresult, hfinal, hcalls⟩ := processPacket_of_records req buf answers hheader hpf
      obtain ⟨hresult', hfinal', hcalls'⟩ := processPacket_of_records req' buf' answers (hok.mp hheader) hpf'
      rw [← h11] at hresult' hfinal' hcalls'
      rw [← h10, ← writeCalls_congr hreq hw, ← readCalls_congr hreq hr] at hcalls'
      refine ⟨fun hfail => ?_, hresult.trans hresult'.symm, hcalls.trans hcalls'.symm, fun k hk => ?_⟩
      · rw [hresult] at hfail
        omega
      · rw [hresult] at hk
        rw [hfinal, hfinal']
        by_cases hzero : (req 11).toNat = 0
        · rw [if_pos hzero] at hk
          omega
        · rw [if_neg hzero] at hk
          rw [if_neg hzero, if_neg hzero]
          have hlen := hr (by omega)
          exact response_congr (fun j _ hj => hreq j (by omega)) (hbuf k (by omega)) (by omega)
    · have hpf' : getField (req' 2) 0 1 = 1 := hreq 2 (by omega) ▸ hpf
      obtain ⟨hresult, hfinal, hcalls⟩ := processPacket_of_probe req buf answers hheader hpf
      obtain ⟨hresult', hfinal', hcalls'⟩ := processPacket_of_probe req' buf' answers (hok.mp hheader) hpf'
      refine ⟨fun _ => hcalls, hresult.trans hresult'.symm, hcalls.trans hcalls'.symm, fun k hk => ?_⟩
      rw [hresult] at hk
      rw [hfinal, hfinal']
      exact header_congr 1 (hbuf k (by omega))
  · obtain ⟨hresult, -, hcalls⟩ := processPacket_of_bad req buf answers hheader
    obtain ⟨hresult', -, hcalls'⟩ := processPacket_of_bad req' buf' answers fun h => hheader (hok.mpr h)
    refine ⟨fun _ => hcalls, hresult.trans hresult'.symm, hcalls.trans hcalls'.symm, fun k hk => ?_⟩
    rw [hresult] at hk
    omega

end Packet

section Callback
variable {buf buf' : Buffer} {recvLen offset : Nat}

theorem packetLen_from_congr (h : Same recvLen buf buf') (hlen : offset + packetLen (buf.from offset) ≤ recvLen) :
    packetLen (buf'.from offset) = packetLen (buf.from offset) :=
  packetLen_congr fun k hk => (h (offset + k) (by omega)).symm

/-- Bytes behind those received decide nothing: where they are looked at, the datagram is refused either way. -/
theorem reaches_congr (h : Same recvLen buf buf') (hreaches : Reaches buf recvLen offset) :
    Reaches buf' recvLen offset := by
  obtain ⟨hmagic, hfirst, hheader, hlen⟩ := reaches_iff.mp hreaches
  have hhalf : ∀ j ≤ offset, half buf' j = half buf j := by
    intro j hj
    unfold half
    rw [h j (by omega), h (j + 1) (by omega)]
  refine reaches_iff.mpr ⟨?_, ?_, hheader, ?_⟩
  · rw [hhalf offset (Nat.le_refl _)]
    exact hmagic
  · intro j hj
    rw [hhalf j (Nat.le_of_lt hj)]
    exact hfirst j hj
  · rw [packetLen_from_congr h hlen]
    exact hlen

/-- The bytes received and the answers of the read handler decide what the callback does. -/
theorem endsAlike_callback (answers : Nat → BitVec 32) (allocated : Bool) (heap heap' : Buffer)
    (h : Same recvLen buf buf') :
    EndsAlike (callback answers allocated heap recvLen) (callback answers allocated heap' recvLen) buf buf' := by
  by_cases hcarried : allocated = true ∧ ∃ offset, Reaches buf recvLen offset
  · obtain ⟨rfl, offset, hreaches⟩ := hcarried
    have hreaches' := reaches_congr h hreaches
    obtain ⟨-, -, -, hlen⟩ := reaches_iff.mp hreaches
    have hlen' := packetLen_from_congr h hlen
    obtain ⟨hresult, hfinal, hcalls⟩ := callback_of_reaches answers heap hreaches
    obtain ⟨hresult', hfinal', hcalls'⟩ := callback_of_reaches answers heap' hreaches'
    rw [hlen'] at hresult' hfinal' hcalls'
    have hcopied := packetLen_copied buf heap offset
    have hreq : Same (packetLen (copied buf heap offset (packetLen (buf.from offset))))
        (copied buf heap offset (packetLen (buf.from offset)))
        (copied buf' heap' offset (packetLen (buf.from offset))) := by
      intro k hk
      rw [hcopied] at hk
      unfold copied
      rw [if_pos hk, if_pos hk]
      exact h (offset + k) (by omega)
    have hends : EndsAlike _ (processPacket _ answers) buf buf' := processPacket_congr hreq h (by omega)
    refine ⟨fun hfail => hcalls.trans (hends.failed (hresult ▸ hfail)),
      hresult.trans (hends.result.trans hresult'.symm), hcalls.trans (hends.calls.trans hcalls'.symm), fun k hk => ?_⟩
    rw [hfinal, hfinal']
    exact hends.response k (hresult ▸ hk)
  · have hrefused : allocated = false ∨ ∀ offset, ¬ Reaches buf recvLen offset := by
      rw [not_and_or, Bool.not_eq_true, not_exists] at hcarried
      exact hcarried
    have hrefused' : allocated = false ∨ ∀ offset, ¬ Reaches buf' recvLen offset :=
      hrefused.imp_right fun hnot offset hreaches' => hnot offset (reaches_congr h.symm hreaches')
    obtain ⟨hresult, -, hcalls⟩ := callback_of_refused answers heap hrefused
    obtain ⟨hresult', -, hcalls'⟩ := callback_of_refused answers heap' hrefused'
    refine ⟨fun _ => hcalls, hresult.trans hresult'.symm, hcalls.trans hcalls'.symm, fun k hk => ?_⟩
    rw [hresult] at hk
    omega

end Callback

/-- A failed callback has called no handler; the return value, the calls and the response depend only on the bytes
received and on the answers of the read handler. -/
theorem callback_isolated (answers : Nat → BitVec 32) (allocated : Bool) (heap heap' buf buf' : Buffer) (recvLen : Nat)
    (h : ∀ k < recvLen, buf k = buf' k) :
    ((callback answers allocated heap recvLen).result buf = -1 →
      calls (callback answers allocated heap recvLen) buf = []) ∧
    (callback answers allocated heap recvLen).result buf = (callback answers allocated heap' recvLen).result buf' ∧
    calls (callback answers allocated heap recvLen) buf = calls (callback answers allocated heap' recvLen) buf' ∧
    ∀ k : Nat, (k : Int) < (callback answers allocated heap recvLen).result buf →
      (callback answers allocated heap recvLen).final buf k =
        (callback answers allocated heap' recvLen).final buf' k := by
  have hends := endsAlike_callback answers allocated heap heap' h
  exact ⟨hends.failed, hends.result, hends.calls, hends.response⟩

/-- A datagram of one byte, the first of the magic, over a buffer that goes on with the second one. -/
theorem callback_isolated_stale :
    (callback (fun _ => 5) true (fun _ => 0) 1).result (Buffer.ofList [0x4e, 0x6f]) =
      (callback (fun _ => 5) true (fun _ => 0) 1).result (Buffer.ofList [0x4e]) := by
  have hsame : ∀ k < 1, Buffer.ofList [0x4e, 0x6f] k = Buffer.ofList [0x4e] k := by decide
  exact (callback_isolated (fun _ => 5) true (fun _ => 0) (fun _ => 0) _ _ 1 hsame).2.1

/-! ## The server -/

/-- What the loop of the server meets in a round. -/
structure Turn where
  datagram : List Byte
  answers : Nat → BitVec 32
  allocated : Bool
  heap : Buffer

/-- What a round does: the calls of the handlers and the response that is sent. -/
structure Report where
  calls : List Event
  sent : Option (List Byte)

/-- The callback of the server; without `--etherbone-abort` failures are silent. -/
def serverCallback (etherboneAbort : Bool) (turn : Turn) (recvLen : Nat) : Server Int := do
  let res ← callback turn.answers turn.allocated turn.heap recvLen
  return if !etherboneAbort && decide (res < 0) then 0 else res

/-- `recvfrom`: the datagram, cut to the size of the buffer, over what the buffer held. -/
def receive (datagram : List Byte) (buf : Buffer) : Buffer := fun k => datagram.getD k (buf k)

/-- `sendto`: the response, unless it is empty. -/
def sendResponse (p : Server Int) (buf : Buffer) : Option (List Byte) :=
  if p.result buf = 0 then none else some ((List.range (p.result buf).toNat).map (p.final buf))

/-- The loop of `udp_server_run`. -/
def udpServerRun (etherboneAbort : Bool) (bufSize : Nat) : Buffer → List Turn → List Report
  | _, [] => []
  | buf, turn :: turns =>
    let datagram := turn.datagram.take bufSize
    let buf := receive datagram buf
    let p := serverCallback etherboneAbort turn datagram.length
    if p.result buf < 0 then [⟨calls p buf, none⟩]
    else ⟨calls p buf, sendResponse p buf⟩ :: udpServerRun etherboneAbort bufSize (p.final buf) turns

theorem same_receive (datagram : List Byte) (buf buf' : Buffer) :
    Same datagram.length (receive datagram buf) (receive datagram buf') := by
  intro k hk
  unfold receive
  rw [List.getD_eq_getElem?_getD, List.getD_eq_getElem?_getD, List.getElem?_eq_getElem hk]
  rfl

theorem EndsAlike.sendResponse {p p' : Server Int} {buf buf' : Buffer} (h : EndsAlike p p' buf buf') :
    sendResponse p buf = sendResponse p' buf' := by
  unfold Etherbone.sendResponse
  rw [← h.result]
  split
  · rfl
  · congr 1
    apply List.map_congr_left
    intro k hk
    rw [List.mem_range] at hk
    exact h.response k (by omega)

/-- A round does the same whatever the buffer held before. -/
theorem serverCallback_receive (etherboneAbort : Bool) (turn : Turn) (datagram : List Byte) (buf buf' : Buffer) :
    EndsAlike (serverCallback etherboneAbort turn datagram.length) (serverCallback etherboneAbort turn datagram.length)
      (receive datagram buf) (receive datagram buf') := by
  have hends := endsAlike_callback turn.answers turn.allocated turn.heap turn.heap (same_receive datagram buf buf')
  have hcalls : ∀ b, calls (serverCallback etherboneAbort turn datagram.length) b =
      calls (callback turn.answers turn.allocated turn.heap datagram.length) b := by
    intro b
    unfold serverCallback
    rw [calls_bind, calls_pure, List.append_nil]
  refine ⟨?_, ?_, ?_, ?_⟩
  · intro hfail
    rw [hcalls]
    refine hends.failed ?_
    unfold serverCallback at hfail
    rw [result_bind, result_pure] at hfail
    split at hfail
    · cases hfail
    · exact hfail
  · unfold serverCallback
    rw [result_bind, result_bind, hends.result]
    rfl
  · rw [hcalls, hcalls, hends.calls]
  · intro k hk
    unfold serverCallback at hk ⊢
    rw [result_bind, result_pure] at hk
    rw [final_bind, final_bind, final_pure, final_pure]
    refine hends.response k ?_
    split at hk
    · omega
    · exact hk

/-- What the server does on a sequence of datagrams does not depend on what the buffer held at the start. -/
theorem udpServerRun_isolated (etherboneAbort : Bool) (bufSize : Nat) (turns : List Turn) (buf buf' : Buffer) :
    udpServerRun etherboneAbort bufSize buf turns = udpServerRun etherboneAbort bufSize buf' turns := by
  induction turns generalizing buf buf' with
  | nil => rfl
  | cons turn turns ih =>
    have hends := serverCallback_receive etherboneAbort turn (turn.datagram.take bufSize) buf buf'
    unfold udpServerRun
    dsimp only
    rw [hends.sendResponse, hends.calls, hends.result, ih _ ((serverCallback etherboneAbort turn
      (turn.datagram.take bufSize).length).final (receive (turn.datagram.take bufSize) buf'))]

end RowhammerTester.Firmware.Etherbone
