import RowhammerTester.Firmware.Etherbone.Server

/-!
# What the Etherbone server does with a packet

* `HeaderOk` : the checks of the header; `writeCalls`, `readCalls` : the calls of the handlers; `header`, `response` :
  the bytes of a response (`word_response`, `response_congr`);
* `processPacket_of_bad`, `processPacket_of_probe`, `processPacket_of_records` : a packet in these terms;
* `packetLen` : the length of a packet; `Reaches` : the packet is carried out; `callback_of_reaches`,
  `callback_of_refused` : the callback.
-/

namespace RowhammerTester.Firmware.Etherbone
open Traced

/-! ## Accesses -/

section Accesses
variable (req buf : Buffer) (k : Nat)

@[simp] theorem examine_result : (examine k).result buf = buf k := (rfl)

@[simp] theorem examine_final : (examine k).final buf = buf := (rfl)

@[simp] theorem examineHalf_result : (examineHalf k).result buf = half buf k := (rfl)

@[simp] theorem examineHalf_final : (examineHalf k).final buf = buf := (rfl)

@[simp] theorem load_result : (load req k).result buf = req k := (rfl)

@[simp] theorem load_final : (load req k).final buf = buf := (rfl)

@[simp] theorem loadHalf_result : (loadHalf req k).result buf = half req k := (rfl)

@[simp] theorem loadHalf_final : (loadHalf req k).final buf = buf := (rfl)

@[simp] theorem loadWord_result : (loadWord req k).result buf = word req k := (rfl)

@[simp] theorem loadWord_final : (loadWord req k).final buf = buf := (rfl)

@[simp] theorem loadField_result (lo width : Nat) :
    (loadField req k lo width).result buf = getField (req k) lo width := (rfl)

@[simp] theorem loadField_final (lo width : Nat) : (loadField req k lo width).final buf = buf := (rfl)

@[simp] theorem store_final (v : Byte) : (store k v).final buf = Function.update buf k v := (rfl)

@[simp] theorem storeWord_final (v : BitVec 32) : (storeWord k v).final buf = putWord buf k v := (rfl)

end Accesses

/-! ## Calls of the handlers -/

section Calls
variable {α β : Type} (req buf : Buffer) (k : Nat)

@[simp] theorem calls_pure (a : α) : calls (pure a) buf = [] := (rfl)

@[simp] theorem calls_bind (p : Server α) (f : α → Server β) :
    calls (p >>= f) buf = calls p buf ++ calls (f (p.result buf)) (p.final buf) := List.filter_append _ _

@[simp] theorem calls_get : calls get buf = [] := (rfl)

@[simp] theorem calls_write (addr v : BitVec 32) : calls (emit (.write addr v)) buf = [.write addr v] := (rfl)

@[simp] theorem calls_read (addr v : BitVec 32) : calls (emit (.read addr v)) buf = [.read addr v] := (rfl)

@[simp] theorem calls_stderr (text : String) (values : List Nat) : calls (emit (.stderr text values)) buf = [] := (rfl)

@[simp] theorem calls_examine : calls (examine k) buf = [] := (rfl)

@[simp] theorem calls_examineHalf : calls (examineHalf k) buf = [] := (rfl)

@[simp] theorem calls_load : calls (load req k) buf = [] := (rfl)

@[simp] theorem calls_loadHalf : calls (loadHalf req k) buf = [] := (rfl)

@[simp] theorem calls_loadWord : calls (loadWord req k) buf = [] := (rfl)

@[simp] theorem calls_loadField (lo width : Nat) : calls (loadField req k lo width) buf = [] := (rfl)

@[simp] theorem calls_store (v : Byte) : calls (store k v) buf = [] := (rfl)

@[simp] theorem calls_storeWord (v : BitVec 32) : calls (storeWord k v) buf = [] := (rfl)

@[simp] theorem calls_storeHeader (pr : Nat) : calls (storeHeader pr) buf = [] := (rfl)

@[simp] theorem calls_copyBase : calls (copyBase req) buf = [] := (rfl)

end Calls

/-! ## The header -/

/-- The header of a request that the server accepts. -/
def HeaderOk (req : Buffer) : Prop :=
  half req 0 = MAGIC ∧ getField (req 2) 4 4 = 1 ∧ getField (req 3) 4 4 = 4 ∧ getField (req 3) 0 4 = 4

instance (req : Buffer) : Decidable (HeaderOk req) := inferInstanceAs (Decidable (_ ∧ _))

theorem checkHeader_eq (req buf : Buffer) : (checkHeader req).result buf = (if HeaderOk req then 0 else -1) ∧
    (checkHeader req).final buf = buf ∧ calls (checkHeader req) buf = [] := by
  unfold checkHeader HeaderOk
  by_cases hmagic : half req 0 = MAGIC
  · by_cases hversion : getField (req 2) 4 4 = 1
    · by_cases haddr : getField (req 3) 4 4 = 4
      · by_cases hport : getField (req 3) 0 4 = 4
        · simp [hmagic, hversion, haddr, hport]
        · simp [hmagic, hversion, haddr, hport]
      · simp [hmagic, hversion, haddr]
    · simp [hmagic, hversion]
  · simp [hmagic]

/-- The first four bytes of a response. -/
def header (pr : Nat) (buf : Buffer) : Buffer := (storeHeader pr).final buf

/-! ## The records -/

/-- The calls of the write handler. -/
def writeCalls (req : Buffer) (wcount : Nat) : List Event :=
  (List.range wcount).map fun i => .write (word req 12 + BitVec.ofNat 32 (4 * i)) (word req (16 + 4 * i))

/-- The calls of the read handler. -/
def readCalls (req : Buffer) (answers : Nat → BitVec 32) (rcount : Nat) : List Event :=
  (List.range rcount).map fun i => .read (word req (16 + 4 * i)) (answers i)

/-- The answers as records. -/
def putAnswers (answers : Nat → BitVec 32) (buf : Buffer) : Nat → Buffer
  | 0 => buf
  | n + 1 => putWord (putAnswers answers buf n) (16 + 4 * n) (answers n)

/-- The response to `rcount` reads. -/
def response (req : Buffer) (answers : Nat → BitVec 32) (rcount : Nat) (buf : Buffer) : Buffer := fun k =>
  if 12 ≤ k ∧ k < 16 then req k
  else if k = 11 then 0
  else if k = 10 then BitVec.ofNat 8 rcount
  else header 0 (putAnswers answers buf rcount) k

section Records
variable (req buf : Buffer) (answers : Nat → BitVec 32)

theorem foldRange_writeRecord (n : Nat) :
    (foldRange (writeRecord req) (word req 12) n).result buf = word req 12 + BitVec.ofNat 32 (4 * n) ∧
    (foldRange (writeRecord req) (word req 12) n).final buf = buf ∧
    calls (foldRange (writeRecord req) (word req 12) n) buf = writeCalls req n := by
  induction n with
  | zero => exact ⟨by simp [foldRange], rfl, rfl⟩
  | succ n ih =>
    obtain ⟨hresult, hfinal, hcalls⟩ := ih
    refine ⟨?_, ?_, ?_⟩
    · simp only [foldRange, writeRecord, result_bind, hresult, hfinal, result_pure]
      rw [BitVec.add_assoc, Nat.mul_add, BitVec.ofNat_add]
      rfl
    · simp only [foldRange, writeRecord, final_bind, hfinal, loadWord_final, final_emit, final_pure]
    · simp only [foldRange, writeRecord, calls_bind, hcalls, hresult, hfinal, calls_loadWord, calls_write, calls_pure,
        loadWord_result, List.nil_append, List.append_nil]
      unfold writeCalls
      rw [List.range_succ, List.map_append]
      rfl

theorem writeRecords_eq (wcount : Nat) :
    (writeRecords req wcount).final buf = buf ∧ calls (writeRecords req wcount) buf = writeCalls req wcount := by
  obtain ⟨-, hfinal, hcalls⟩ := foldRange_writeRecord req buf wcount
  unfold writeRecords
  by_cases hpos : wcount > 0
  · rw [if_pos hpos]
    simp [hfinal, hcalls]
  · obtain rfl : wcount = 0 := by omega
    exact ⟨rfl, rfl⟩

theorem foldRange_readRecord (n : Nat) :
    (foldRange (readRecord req answers) () n).final buf = putAnswers answers buf n ∧
    calls (foldRange (readRecord req answers) () n) buf = readCalls req answers n := by
  induction n with
  | zero => exact ⟨rfl, rfl⟩
  | succ n ih =>
    obtain ⟨hfinal, hcalls⟩ := ih
    refine ⟨?_, ?_⟩
    · simp only [foldRange, readRecord, final_bind, hfinal, loadWord_final, final_emit, storeWord_final]
      rfl
    · simp only [foldRange, readRecord, calls_bind, hcalls, hfinal, calls_loadWord, calls_read, calls_storeWord,
        loadWord_result, List.nil_append, List.append_nil]
      unfold readCalls
      rw [List.range_succ, List.map_append]
      rfl

/-- What is stored behind the answers. -/
theorem final_response (rcount : Nat) :
    (copyBase req).final ((store 11 0).final ((store 10 (BitVec.ofNat 8 rcount)).final
      (header 0 (putAnswers answers buf rcount)))) = response req answers rcount buf := by
  funext k
  unfold response
  simp only [copyBase, final_bind, load_final, load_result, store_final, Function.update_apply]
  split_ifs <;> first | rfl | omega | simp_all

theorem readRecords_eq (rcount : Nat) :
    (readRecords req answers rcount).result buf = (if rcount = 0 then 0 else 16 + rcount * 4) ∧
    (readRecords req answers rcount).final buf = (if rcount = 0 then buf else response req answers rcount buf) ∧
    calls (readRecords req answers rcount) buf = readCalls req answers rcount := by
  obtain ⟨hfinal, hcalls⟩ := foldRange_readRecord req buf answers rcount
  unfold readRecords
  by_cases hpos : rcount > 0
  · rw [if_pos hpos, if_neg (by omega), if_neg (by omega)]
    refine ⟨rfl, ?_, ?_⟩
    · rw [← final_response]
      simp only [final_bind, hfinal, final_pure]
      rfl
    · simp [hcalls]
  · obtain rfl : rcount = 0 := by omega
    exact ⟨rfl, rfl, rfl⟩

end Records

/-! ## The response -/

section Response
variable {req req' buf buf' : Buffer} {answers : Nat → BitVec 32} {n k : Nat}

theorem header_of_le (pr : Nat) (h : 4 ≤ k) : header pr buf k = buf k := by
  unfold header storeHeader
  simp only [final_bind, store_final, storeField, final_emit, final_modify]
  rw [Function.update_of_ne (by omega), Function.update_of_ne (by omega), Function.update_of_ne (by omega),
    Function.update_of_ne (by omega), Function.update_of_ne (by omega), Function.update_of_ne (by omega),
    Function.update_of_ne (by omega), Function.update_of_ne (by omega)]

/-- A byte of the header depends on this byte of the buffer alone. -/
theorem header_congr (pr : Nat) (h : buf k = buf' k) : header pr buf k = header pr buf' k := by
  rcases Nat.lt_or_ge k 4 with hlt | hge
  · unfold header storeHeader
    simp only [final_bind, store_final, storeField, final_emit, final_modify, Function.update_apply]
    interval_cases k <;> simp [h]
  · rw [header_of_le pr hge, header_of_le pr hge, h]

theorem putAnswers_of_lt (h : k < 16) : putAnswers answers buf n k = buf k := by
  induction n with
  | zero => rfl
  | succ n ih =>
    rw [putAnswers, putWord_of_outside _ _ _ (by omega)]
    exact ih

/-- The bytes of the answers. -/
theorem putAnswers_apply {i j : Nat} (hi : i < n) (hj : j < 4) :
    putAnswers answers buf n (16 + 4 * i + j) = wordByte (answers i) j := by
  induction n with
  | zero => exact absurd hi (Nat.not_lt_zero i)
  | succ n ih =>
    rw [putAnswers]
    by_cases heq : i = n
    · rw [heq]
      exact putWord_apply _ _ _ hj
    · rw [putWord_of_outside _ _ _ (by omega)]
      exact ih (by omega)

theorem response_of_le (h : 16 ≤ k) : response req answers n buf k = putAnswers answers buf n k := by
  unfold response
  rw [if_neg (by omega), if_neg (by omega), if_neg (by omega)]
  exact header_of_le 0 (by omega)

theorem word_response {i : Nat} (hi : i < n) : word (response req answers n buf) (16 + 4 * i) = answers i := by
  apply word_of_bytes
  intro j hj
  rw [response_of_le (by omega), putAnswers_apply hi hj]

theorem word_response_base : word (response req answers n buf) 12 = word req 12 := rfl

/-- The response depends on the base address and the answers, else on the same byte of the buffer. -/
theorem response_congr (hreq : ∀ j, 12 ≤ j → j < 16 → req j = req' j) (hbuf : buf k = buf' k) (hk : k < 16 + 4 * n) :
    response req answers n buf k = response req' answers n buf' k := by
  rcases Nat.lt_or_ge k 16 with hlt | hge
  · unfold response
    split
    · next h => exact hreq k h.1 h.2
    · have hput : putAnswers answers buf n k = putAnswers answers buf' n k := by
        rw [putAnswers_of_lt hlt, putAnswers_of_lt hlt, hbuf]
      rw [header_congr 0 hput]
  · obtain ⟨i, j, hi, hj, rfl⟩ : ∃ i j, i < n ∧ j < 4 ∧ k = 16 + 4 * i + j :=
      ⟨(k - 16) / 4, (k - 16) % 4, by omega, by omega, by omega⟩
    rw [response_of_le hge, response_of_le hge, putAnswers_apply hi hj, putAnswers_apply hi hj]

end Response

/-! ## A packet -/

section Packet
variable (req buf : Buffer) (answers : Nat → BitVec 32)

theorem processPacket_of_bad (h : ¬ HeaderOk req) : (processPacket req answers).result buf = -1 ∧
    (processPacket req answers).final buf = buf ∧ calls (processPacket req answers) buf = [] := by
  obtain ⟨hresult, hfinal, hcalls⟩ := checkHeader_eq req buf
  rw [if_neg h] at hresult
  unfold processPacket
  simp [hresult, hfinal, hcalls]

theorem processPacket_of_probe (h : HeaderOk req) (hpf : getField (req 2) 0 1 = 1) :
    (processPacket req answers).result buf = 8 ∧ (processPacket req answers).final buf = header 1 buf ∧
    calls (processPacket req answers) buf = [] := by
  obtain ⟨hresult, hfinal, hcalls⟩ := checkHeader_eq req buf
  rw [if_pos h] at hresult
  unfold processPacket
  simp [hresult, hfinal, hcalls, hpf, probeResponse, header]

theorem processPacket_of_records (h : HeaderOk req) (hpf : getField (req 2) 0 1 = 0) :
    (processPacket req answers).result buf = (if (req 11).toNat = 0 then 0 else 16 + (req 11).toNat * 4 : Nat) ∧
    (processPacket req answers).final buf =
      (if (req 11).toNat = 0 then buf else response req answers (req 11).toNat buf) ∧
    calls (processPacket req answers) buf =
      writeCalls req (req 10).toNat ++ readCalls req answers (req 11).toNat := by
  obtain ⟨hresult, hfinal, hcalls⟩ := checkHeader_eq req buf
  obtain ⟨hwfinal, hwcalls⟩ := writeRecords_eq req buf (req 10).toNat
  obtain ⟨hrresult, hrfinal, hrcalls⟩ := readRecords_eq req buf answers (req 11).toNat
  rw [if_pos h] at hresult
  unfold processPacket
  refine ⟨?_, ?_, ?_⟩
  · simp only [result_bind, hresult, hfinal, ne_eq, not_true_eq_false, if_false, loadField_result, loadField_final, hpf,
      zero_ne_one, load_result, load_final, hwfinal, hrresult, result_pure]
  · simp only [final_bind, hresult, hfinal, ne_eq, not_true_eq_false, if_false, loadField_result, loadField_final, hpf,
      zero_ne_one, load_result, load_final, hwfinal, hrfinal, final_pure]
  · simp only [calls_bind, hresult, hfinal, hcalls, ne_eq, not_true_eq_false, if_false, loadField_result,
      loadField_final, calls_loadField, hpf, zero_ne_one, load_result, load_final, calls_load, hwfinal, hwcalls,
      hrcalls, calls_pure, List.nil_append, List.append_nil]

end Packet

/-! ## The callback -/

/-- The length of the packet at the beginning of `b`. -/
def packetLen (b : Buffer) : Nat :=
  if getField (b 2) 0 1 = 0 then
    12 + (if b 10 = 0 then 0 else (1 + (b 10).toNat) * 4) + (if b 11 = 0 then 0 else (1 + (b 11).toNat) * 4)
  else 8

theorem getField_one (b : Byte) (lo : Nat) : getField b lo 1 = 0 ∨ getField b lo 1 = 1 := by
  unfold getField
  omega

theorem eq_zero_iff {v : Byte} {n : Nat} (h : v.toNat = n) : v = 0 ↔ n = 0 := by
  rw [← h]
  exact (BitVec.toNat_eq (y := 0)).trans Iff.rfl

section Callback
variable {buf : Buffer} {recvLen offset : Nat}

theorem sectionLength_eq (buf : Buffer) (k : Nat) :
    (sectionLength k).result buf = (if buf k = 0 then 0 else (1 + (buf k).toNat) * 4) ∧
    (sectionLength k).final buf = buf ∧ calls (sectionLength k) buf = [] := by
  unfold sectionLength
  by_cases h : buf k = 0#8
  · simp [h]
  · simp [h]

theorem packetLength_eq (buf : Buffer) (offset : Nat) :
    (packetLength offset).result buf = packetLen (buf.from offset) ∧ (packetLength offset).final buf = buf ∧
    calls (packetLength offset) buf = [] := by
  obtain ⟨hw, hwfinal, hwcalls⟩ := sectionLength_eq buf (offset + 10)
  obtain ⟨hr, hrfinal, hrcalls⟩ := sectionLength_eq buf (offset + 11)
  unfold packetLength packetLen Buffer.from
  by_cases h : getField (buf (offset + 2)) 0 1 = 0
  · simp [h, hw, hwfinal, hwcalls, hr, hrfinal, hrcalls, ETHERBONE_HEADER_LENGTH, ETHERBONE_RECORD_HEADER_LENGTH]
  · simp [h, ETHERBONE_HEADER_LENGTH]

theorem searchFrom_final (buf : Buffer) (k n : Nat) :
    (searchFrom k n).final buf = buf ∧ calls (searchFrom k n) buf = [] := by
  induction n generalizing k with
  | zero => exact ⟨rfl, rfl⟩
  | succ n ih =>
    unfold searchFrom
    by_cases h : half buf k = MAGIC
    · simp [h]
    · simp [h, ih]

/-- The search finds the first magic. -/
theorem searchFrom_eq_some (k n : Nat) : (searchFrom k n).result buf = some offset ↔
    k ≤ offset ∧ offset < k + n ∧ half buf offset = MAGIC ∧ ∀ j, k ≤ j → j < offset → half buf j ≠ MAGIC := by
  induction n generalizing k with
  | zero =>
    constructor
    · intro h
      exact absurd h (by simp [searchFrom])
    · intro ⟨hle, hlt, _⟩
      omega
  | succ n ih =>
    unfold searchFrom
    by_cases h : half buf k = MAGIC
    · simp only [result_bind, examineHalf_result, examineHalf_final, h, if_true, result_pure, Option.some.injEq]
      constructor
      · rintro rfl
        exact ⟨Nat.le_refl k, by omega, h, fun j hj hj' => absurd hj' (by omega)⟩
      · intro ⟨hle, _, _, hbefore⟩
        by_contra hne
        exact hbefore k (Nat.le_refl k) (by omega) h
    · simp only [result_bind, examineHalf_result, examineHalf_final, h, if_false, ih]
      constructor
      · intro ⟨hle, hlt, hmagic, hbefore⟩
        refine ⟨by omega, by omega, hmagic, ?_⟩
        intro j hj hj'
        by_cases hjk : j = k
        · rwa [hjk]
        · exact hbefore j (by omega) hj'
      · intro ⟨hle, hlt, hmagic, hbefore⟩
        have hne : k ≠ offset := fun heq => h (heq ▸ hmagic)
        exact ⟨by omega, by omega, hmagic, fun j hj hj' => hbefore j (by omega) hj'⟩

/-- The callback carries out the packet at `offset` if it can allocate the copy. -/
structure Reaches (buf : Buffer) (recvLen offset : Nat) : Prop where
  found : (search recvLen).result buf = some offset
  header : ETHERBONE_HEADER_LENGTH ≤ recvLen - offset
  available : (packetLength offset).result buf ≤ recvLen - offset

theorem reaches_iff : Reaches buf recvLen offset ↔
    half buf offset = MAGIC ∧ (∀ j < offset, half buf j ≠ MAGIC) ∧ offset + 8 ≤ recvLen ∧
      offset + packetLen (buf.from offset) ≤ recvLen := by
  have hsearch : (search recvLen).result buf = some offset ↔ _ := searchFrom_eq_some 0 recvLen
  obtain ⟨hlen, -, -⟩ := packetLength_eq buf offset
  constructor
  · intro ⟨hfound, hheader, havail⟩
    obtain ⟨-, hlt, hmagic, hbefore⟩ := hsearch.mp hfound
    rw [hlen] at havail
    unfold ETHERBONE_HEADER_LENGTH at hheader
    exact ⟨hmagic, fun j hj => hbefore j (Nat.zero_le j) hj, by omega, by omega⟩
  · intro ⟨hmagic, hbefore, hheader, havail⟩
    refine ⟨hsearch.mpr ⟨Nat.zero_le _, by omega, hmagic, fun j _ hj => hbefore j hj⟩, ?_, ?_⟩
    · unfold ETHERBONE_HEADER_LENGTH
      omega
    · rw [hlen]
      omega

variable (answers : Nat → BitVec 32) (heap : Buffer)

theorem callback_of_reaches (h : Reaches buf recvLen offset) :
    (callback answers true heap recvLen).result buf =
      (processPacket (copied buf heap offset (packetLen (buf.from offset))) answers).result buf ∧
    (callback answers true heap recvLen).final buf =
      (processPacket (copied buf heap offset (packetLen (buf.from offset))) answers).final buf ∧
    calls (callback answers true heap recvLen) buf =
      calls (processPacket (copied buf heap offset (packetLen (buf.from offset))) answers) buf := by
  obtain ⟨hfound, hheader, havail⟩ := h
  obtain ⟨hlen, hlfinal, hlcalls⟩ := packetLength_eq buf offset
  obtain ⟨hsfinal, hscalls⟩ : (search recvLen).final buf = buf ∧ calls (search recvLen) buf = [] :=
    searchFrom_final buf 0 recvLen
  rw [hlen] at havail
  unfold callback
  simp [hfound, hsfinal, hscalls, hlen, hlfinal, hlcalls, Nat.not_lt.mpr hheader, Nat.not_lt.mpr havail]

/-- A datagram that is refused, or that could not be copied. -/
theorem callback_of_refused {allocated : Bool} (h : allocated = false ∨ ∀ offset, ¬ Reaches buf recvLen offset) :
    (callback answers allocated heap recvLen).result buf = -1 ∧
    (callback answers allocated heap recvLen).final buf = buf ∧
    calls (callback answers allocated heap recvLen) buf = [] := by
  obtain ⟨hsfinal, hscalls⟩ : (search recvLen).final buf = buf ∧ calls (search recvLen) buf = [] :=
    searchFrom_final buf 0 recvLen
  unfold callback
  cases hfound : (search recvLen).result buf with
  | none => simp [hfound, hsfinal, hscalls]
  | some offset =>
    obtain ⟨hlen, hlfinal, hlcalls⟩ := packetLength_eq buf offset
    by_cases hheader : recvLen - offset < ETHERBONE_HEADER_LENGTH
    · simp [hfound, hsfinal, hscalls, hheader]
    · by_cases havail : recvLen - offset < packetLen (buf.from offset)
      · simp [hfound, hsfinal, hscalls, hheader, hlen, hlfinal, hlcalls, havail]
      · have hfalse : allocated = false := by
          refine h.resolve_right fun hnot => hnot offset ⟨hfound, Nat.not_lt.mp hheader, ?_⟩
          rw [hlen]
          exact Nat.not_lt.mp havail
        simp [hfound, hsfinal, hscalls, hheader, hlen, hlfinal, hlcalls, havail, hfalse]

end Callback

end RowhammerTester.Firmware.Etherbone
