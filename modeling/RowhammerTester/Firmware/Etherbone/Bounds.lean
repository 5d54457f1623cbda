import RowhammerTester.Firmware.Etherbone.Semantics

/-!
# The bounds of the Etherbone server

* `Within len n` : loads below `len`, stores below `n`; `processPacket_within` : a packet is read within its own length
  and answered within it;
* `callback_within` : hence the callback stays within the bytes received, wherever they start.
-/

namespace RowhammerTester.Firmware.Etherbone
open Traced

/-- Loads from the request are below `len`, stores to the response below `n`. -/
def Within (len n : Nat) : Event → Prop
  | .load k => k < len
  | .store k => k < n
  | _ => True

section Accesses
variable {len n : Nat} {req : Buffer} {k : Nat}

theorem emits_event {e : Event} (h : Within len n e) : Emits (Within len n) (fun _ => True) (emit e : Server Unit) :=
  Emits.emit h

theorem emits_load (h : k < len) : Emits (Within len n) (fun b => b = req k) (load req k) :=
  (emits_event (e := .load k) h).bind fun _ _ => Emits.pure rfl

theorem emits_loadHalf (h : k + 1 < len) : Emits (Within len n) (fun v => v = half req k) (loadHalf req k) := by
  refine (emits_load (by omega)).bind fun hi hhi => ?_
  refine (emits_load h).bind fun lo hlo => ?_
  rw [hhi, hlo]
  exact Emits.pure rfl

theorem emits_loadWord (h : k + 3 < len) : Emits (Within len n) (fun v => v = word req k) (loadWord req k) := by
  refine (emits_load (by omega)).bind fun b0 h0 => ?_
  refine (emits_load (by omega)).bind fun b1 h1 => ?_
  refine (emits_load (by omega)).bind fun b2 h2 => ?_
  refine (emits_load h).bind fun b3 h3 => ?_
  rw [h0, h1, h2, h3]
  exact Emits.pure rfl

theorem emits_loadField (h : k < len) (lo width : Nat) :
    Emits (Within len n) (fun v => v = getField (req k) lo width) (loadField req k lo width) := by
  refine (emits_load h).bind fun b hb => ?_
  rw [hb]
  exact Emits.pure rfl

theorem emits_store (h : k < n) (v : Byte) : Emits (Within len n) (fun _ => True) (store k v) :=
  (emits_event (e := .store k) h).bind fun _ _ => Emits.modify _

theorem emits_storeWord (h : k + 3 < n) (v : BitVec 32) : Emits (Within len n) (fun _ => True) (storeWord k v) := by
  refine (emits_store (by omega) _).bind fun _ _ => ?_
  refine (emits_store (by omega) _).bind fun _ _ => ?_
  refine (emits_store (by omega) _).bind fun _ _ => ?_
  exact emits_store h _

theorem emits_storeField (h : k < n) (lo width v : Nat) :
    Emits (Within len n) (fun _ => True) (storeField k lo width v) :=
  (emits_event (e := .store k) h).bind fun _ _ => Emits.modify _

theorem emits_stderr (text : String) (values : List Nat) :
    Emits (Within len n) (fun _ => True) (emit (.stderr text values) : Server Unit) := emits_event trivial

end Accesses

section Packet
variable {len n : Nat} {req : Buffer} {answers : Nat → BitVec 32}

theorem emits_checkHeader (h : 4 ≤ len) : Emits (Within len n) (fun _ => True) (checkHeader req) := by
  unfold checkHeader
  refine (emits_loadHalf (by omega)).bind fun magic _ => ?_
  split
  · exact (emits_stderr _ _).bind fun _ _ => Emits.pure trivial
  · refine (emits_loadField (by omega) 4 4).bind fun version _ => ?_
    split
    · exact (emits_stderr _ _).bind fun _ _ => Emits.pure trivial
    · refine (emits_loadField (by omega) 4 4).bind fun addrSize _ => ?_
      split
      · exact (emits_stderr _ _).bind fun _ _ => Emits.pure trivial
      · refine (emits_loadField (by omega) 0 4).bind fun portSize _ => ?_
        split
        · exact (emits_stderr _ _).bind fun _ _ => Emits.pure trivial
        · exact Emits.pure trivial

theorem emits_storeHeader (h : 4 ≤ n) (pr : Nat) : Emits (Within len n) (fun _ => True) (storeHeader pr) := by
  refine (emits_store (by omega) _).bind fun _ _ => ?_
  refine (emits_store (by omega) _).bind fun _ _ => ?_
  refine (emits_storeField (by omega) _ _ _).bind fun _ _ => ?_
  refine (emits_storeField (by omega) _ _ _).bind fun _ _ => ?_
  refine (emits_storeField (by omega) _ _ _).bind fun _ _ => ?_
  refine (emits_storeField (by omega) _ _ _).bind fun _ _ => ?_
  refine (emits_storeField (by omega) _ _ _).bind fun _ _ => ?_
  exact emits_storeField (by omega) _ _ _

theorem emits_writeRecords {wcount : Nat} (h : 0 < wcount → 16 + 4 * wcount ≤ len) :
    Emits (Within len n) (fun _ => True) (writeRecords req wcount) := by
  unfold writeRecords
  split
  · next hpos =>
    have hlen := h hpos
    refine (emits_loadWord (by omega)).bind fun addr _ => ?_
    refine Emits.bind (Emits.foldRange ?_) fun _ _ => Emits.pure trivial
    intro i hi addr
    refine (emits_loadWord (by omega)).bind fun data _ => ?_
    exact (emits_event (e := .write addr data) trivial).bind fun _ _ => Emits.pure trivial
  · exact Emits.pure trivial

theorem emits_copyBase (hlen : 16 ≤ len) (hn : 16 ≤ n) : Emits (Within len n) (fun _ => True) (copyBase req) := by
  refine (emits_load (by omega)).bind fun b0 _ => ?_
  refine (emits_load (by omega)).bind fun b1 _ => ?_
  refine (emits_load (by omega)).bind fun b2 _ => ?_
  refine (emits_load (by omega)).bind fun b3 _ => ?_
  refine (emits_store (by omega) _).bind fun _ _ => ?_
  refine (emits_store (by omega) _).bind fun _ _ => ?_
  refine (emits_store (by omega) _).bind fun _ _ => ?_
  exact emits_store (by omega) _

/-- The response to the reads is as long as the part of the request that holds them. -/
theorem emits_readRecords {rcount : Nat} (h : 0 < rcount → 16 + 4 * rcount ≤ len) (hn : len ≤ n) :
    Emits (Within len n) (fun respLen => respLen ≤ n) (readRecords req answers rcount) := by
  unfold readRecords
  split
  · next hpos =>
    have hlen := h hpos
    refine Emits.bind (Emits.foldRange ?_) fun _ _ => ?_
    · intro i hi _
      refine (emits_loadWord (by omega)).bind fun addr _ => ?_
      refine (emits_event (e := .read addr (answers i)) trivial).bind fun _ _ => ?_
      exact emits_storeWord (by omega) _
    · refine (emits_storeHeader (by omega) 0).bind fun _ _ => ?_
      refine (emits_store (by omega) _).bind fun _ _ => ?_
      refine (emits_store (by omega) _).bind fun _ _ => ?_
      refine (emits_copyBase (by omega) (by omega)).bind fun _ _ => ?_
      exact Emits.pure (by omega)
  · exact Emits.pure (Nat.zero_le n)

/-! ## The length of a packet -/

theorem eight_le_packetLen (req : Buffer) : 8 ≤ packetLen req := by
  unfold packetLen
  split <;> omega

theorem packetLen_of_records (hpf : getField (req 2) 0 1 = 0) :
    12 ≤ packetLen req ∧ (0 < (req 10).toNat → 16 + 4 * (req 10).toNat ≤ packetLen req) ∧
      (0 < (req 11).toNat → 16 + 4 * (req 11).toNat ≤ packetLen req) := by
  unfold packetLen
  rw [if_pos hpf]
  refine ⟨by omega, ?_, ?_⟩
  · intro hpos
    rw [if_neg ((eq_zero_iff rfl).not.mpr (Nat.ne_of_gt hpos))]
    omega
  · intro hpos
    rw [if_neg ((eq_zero_iff rfl).not.mpr (Nat.ne_of_gt hpos))]
    omega

/-- A packet is read within its length and answered within it. -/
theorem processPacket_within (req : Buffer) (answers : Nat → BitVec 32) (hn : packetLen req ≤ n) :
    Emits (Within (packetLen req) n) (fun ret : Int => ret ≤ n) (processPacket req answers) := by
  have h8 := eight_le_packetLen req
  refine (emits_checkHeader (by omega)).bind fun ok _ => ?_
  split
  · exact Emits.pure (by omega)
  · refine (emits_loadField (by omega) 0 1).bind fun pf hpf => ?_
    split
    · refine (emits_storeHeader (by omega) 1).bind fun _ _ => ?_
      exact Emits.pure (by omega)
    · next hne =>
      subst hpf
      obtain ⟨h12, hw, hr⟩ := packetLen_of_records ((getField_one (req 2) 0).resolve_right hne)
      refine (emits_load (by omega)).bind fun rcount hrcount => ?_
      refine (emits_load (by omega)).bind fun wcount hwcount => ?_
      subst hrcount hwcount
      refine (emits_writeRecords hw).bind fun _ _ => ?_
      refine (emits_readRecords hr hn).bind fun respLen hle => ?_
      exact Emits.pure (by omega)

end Packet

/-! ## The callback -/

section Callback
variable {len n : Nat}

theorem emits_examine (k : Nat) : Emits (Within len n) (fun _ => True) (examine k) := by
  refine (emits_event (e := .examine k) trivial).bind fun _ _ => ?_
  intro buf
  exact ⟨fun e he => absurd he List.not_mem_nil, trivial⟩

theorem emits_searchFrom (k m : Nat) : Emits (Within len n) (fun _ => True) (searchFrom k m) := by
  induction m generalizing k with
  | zero => exact Emits.pure trivial
  | succ m ih =>
    refine Emits.bind (Q := fun _ => True) ?_ fun magic _ => ?_
    · refine (emits_examine k).bind fun _ _ => ?_
      refine (emits_examine (k + 1)).bind fun _ _ => ?_
      exact Emits.pure trivial
    · split
      · exact Emits.pure trivial
      · exact ih (k + 1)

theorem emits_sectionLength (k : Nat) : Emits (Within len n) (fun _ => True) (sectionLength k) := by
  refine (emits_examine k).bind fun count _ => ?_
  split
  · exact (emits_examine k).bind fun _ _ => Emits.pure trivial
  · exact Emits.pure trivial

theorem emits_packetLength (offset : Nat) : Emits (Within len n) (fun _ => True) (packetLength offset) := by
  refine (emits_examine _).bind fun b _ => ?_
  split
  · refine (emits_sectionLength _).bind fun _ _ => ?_
    exact (emits_sectionLength _).bind fun _ _ => Emits.pure trivial
  · exact Emits.pure trivial

/-- The length of a packet depends on the packet alone. -/
theorem packetLen_congr {b b' : Buffer} (h : ∀ k < packetLen b, b' k = b k) : packetLen b' = packetLen b := by
  have h8 := eight_le_packetLen b
  have h2 : b' 2 = b 2 := h 2 (by omega)
  by_cases hpf : getField (b 2) 0 1 = 0
  · have h12 := (packetLen_of_records hpf).1
    have h10 : b' 10 = b 10 := h 10 (by omega)
    have h11 : b' 11 = b 11 := h 11 (by omega)
    unfold packetLen
    rw [h2, h10, h11]
  · unfold packetLen
    rw [h2, if_neg hpf, if_neg hpf]

/-- The copy has the length of the packet. -/
theorem packetLen_copied (buf heap : Buffer) (offset : Nat) :
    packetLen (copied buf heap offset (packetLen (buf.from offset))) = packetLen (buf.from offset) :=
  packetLen_congr fun _ hk => if_pos hk

theorem callback_events {buf heap : Buffer} {recvLen offset : Nat} (answers : Nat → BitVec 32)
    (h : Reaches buf recvLen offset) :
    (callback answers true heap recvLen).events buf = (search recvLen).events buf ++ (packetLength offset).events buf ++
      (processPacket (copied buf heap offset (packetLen (buf.from offset))) answers).events buf := by
  obtain ⟨hfound, hheader, havail⟩ := h
  obtain ⟨hlen, hlfinal, -⟩ := packetLength_eq buf offset
  have hsfinal : (search recvLen).final buf = buf := (searchFrom_final buf 0 recvLen).1
  rw [hlen] at havail
  unfold callback
  simp [hfound, hsfinal, hlen, hlfinal, Nat.not_lt.mpr hheader, Nat.not_lt.mpr havail]

end Callback

/-- Whenever a packet is carried out, the request is read within its computed length, and the response is stored and
sent within the length of the datagram. -/
theorem callback_within (buf heap : Buffer) (answers : Nat → BitVec 32) (recvLen offset : Nat)
    (h : Reaches buf recvLen offset) :
    (∀ k, .load k ∈ (callback answers true heap recvLen).events buf → k < (packetLength offset).result buf) ∧
    (∀ k, .store k ∈ (callback answers true heap recvLen).events buf → k < recvLen) ∧
    (callback answers true heap recvLen).result buf ≤ recvLen := by
  obtain ⟨hlen, -, -⟩ := packetLength_eq buf offset
  obtain ⟨-, -, -, havail⟩ := reaches_iff.mp h
  have hcopied := packetLen_copied buf heap offset
  obtain ⟨hevents, hresult⟩ := processPacket_within (n := recvLen)
    (copied buf heap offset (packetLen (buf.from offset))) answers (by omega) buf
  rw [hcopied] at hevents
  have hall : ∀ e ∈ (callback answers true heap recvLen).events buf,
      Within (packetLen (buf.from offset)) recvLen e := by
    intro e he
    rw [callback_events answers h, List.mem_append, List.mem_append] at he
    obtain (he | he) | he := he
    · exact (emits_searchFrom 0 recvLen buf).1 e he
    · exact (emits_packetLength offset buf).1 e he
    · exact hevents e he
  refine ⟨?_, fun k hk => hall _ hk, ?_⟩
  · intro k hk
    rw [hlen]
    exact hall _ hk
  · rw [(callback_of_reaches answers heap h).1]
    exact hresult

/-- A write of 7 to `0x40` and the reads of `0x80` and `0x84`, behind a byte of garbage. -/
def writeAndReads : Buffer := Buffer.ofList
  [0xff, 0x4e, 0x6f, 0x10, 0x44, 0, 0, 0, 0, 0, 0x0f, 1, 2, 0, 0, 0, 0x40, 0, 0, 0, 7, 0, 0, 0, 0, 0, 0, 0, 0x80,
    0, 0, 0, 0x84]

theorem callback_within_sample : Reaches writeAndReads 33 1 ∧
    (∀ k, .load k ∈ (callback (fun _ => 5) true (fun _ => 0) 33).events writeAndReads →
      k < (packetLength 1).result writeAndReads) ∧
    (callback (fun _ => 5) true (fun _ => 0) 33).result writeAndReads ≤ 33 := by
  have hreaches : Reaches writeAndReads 33 1 := reaches_iff.mpr (by decide +kernel)
  obtain ⟨hload, -, hresult⟩ := callback_within writeAndReads (fun _ => 0) (fun _ => 5) 33 1 hreaches
  exact ⟨hreaches, hload, hresult⟩

end RowhammerTester.Firmware.Etherbone
