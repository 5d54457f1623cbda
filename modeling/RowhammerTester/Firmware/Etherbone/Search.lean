import RowhammerTester.Firmware.Etherbone.Semantics

/-!
# What the Etherbone server looks at before it copies a packet

* `looked` : the bytes of the receive buffer that a program looks at; `looked_processPacket` : none once the packet is
  copied;
* `mem_looked_search`, `mem_looked_packetLength` : the bytes of the search and of the length of a packet;
* `callback_looks_within_iff` : when all of them are in the receive buffer.
-/

namespace RowhammerTester.Firmware.Etherbone
open Traced

/-- The byte of the receive buffer that is looked at. -/
def Event.examined? : Event → Option Nat
  | .examine k => some k
  | _ => none

/-- The bytes of the receive buffer that are looked at. -/
def looked {α : Type} (p : Server α) (buf : Buffer) : List Nat := (p.events buf).filterMap Event.examined?

section Looked
variable {α β : Type} (req buf : Buffer) (k : Nat)

theorem mem_looked_iff (p : Server α) : k ∈ looked p buf ↔ .examine k ∈ p.events buf := by
  unfold looked
  rw [List.mem_filterMap]
  constructor
  · rintro ⟨e, he, hk⟩
    cases e <;> cases hk
    exact he
  · intro h
    exact ⟨.examine k, h, rfl⟩

@[simp] theorem looked_pure (a : α) : looked (pure a) buf = [] := (rfl)

@[simp] theorem looked_bind (p : Server α) (f : α → Server β) :
    looked (p >>= f) buf = looked p buf ++ looked (f (p.result buf)) (p.final buf) := List.filterMap_append

@[simp] theorem looked_examine : looked (examine k) buf = [k] := (rfl)

@[simp] theorem looked_examineHalf : looked (examineHalf k) buf = [k, k + 1] := (rfl)

@[simp] theorem looked_load : looked (load req k) buf = [] := (rfl)

@[simp] theorem looked_loadHalf : looked (loadHalf req k) buf = [] := (rfl)

@[simp] theorem looked_loadWord : looked (loadWord req k) buf = [] := (rfl)

@[simp] theorem looked_loadField (lo width : Nat) : looked (loadField req k lo width) buf = [] := (rfl)

@[simp] theorem looked_store (v : Byte) : looked (store k v) buf = [] := (rfl)

@[simp] theorem looked_storeHeader (pr : Nat) : looked (storeHeader pr) buf = [] := (rfl)

@[simp] theorem looked_copyBase : looked (copyBase req) buf = [] := (rfl)

@[simp] theorem looked_get : looked (get : Server Buffer) buf = [] := (rfl)

theorem looked_foldRange {body : Nat → β → Server β} (h : ∀ i b buf, looked (body i b) buf = []) (b : β) (n : Nat) :
    looked (foldRange body b n) buf = [] := by
  induction n with
  | zero => rfl
  | succ n ih =>
    rw [foldRange, looked_bind, ih, h]
    rfl

end Looked

/-! ## The copied packet -/

section Copied
variable (req buf : Buffer) (answers : Nat → BitVec 32)

theorem looked_checkHeader : looked (checkHeader req) buf = [] := by
  unfold checkHeader
  simp only [looked_bind, looked_loadHalf, List.nil_append]
  split
  · rfl
  · simp only [looked_bind, looked_loadField, List.nil_append]
    split
    · rfl
    · simp only [looked_bind, looked_loadField, List.nil_append]
      split
      · rfl
      · simp only [looked_bind, looked_loadField, List.nil_append]
        split <;> rfl

theorem looked_writeRecords (wcount : Nat) : looked (writeRecords req wcount) buf = [] := by
  unfold writeRecords
  split
  · rw [looked_bind, looked_loadWord, looked_bind, looked_foldRange]
    · rfl
    · intro i addr buf
      rfl
  · rfl

theorem looked_readRecords (rcount : Nat) : looked (readRecords req answers rcount) buf = [] := by
  unfold readRecords
  split
  · rw [looked_bind, looked_foldRange]
    · simp
    · intro i _ buf
      rfl
  · rfl

/-- The packet is carried out from the copy. -/
theorem looked_processPacket : looked (processPacket req answers) buf = [] := by
  unfold processPacket
  rw [looked_bind, looked_checkHeader, List.nil_append]
  split
  · rfl
  · rw [looked_bind, looked_loadField, List.nil_append]
    split
    · rfl
    · simp [looked_writeRecords, looked_readRecords]

end Copied

/-! ## The search -/

section Search
variable {buf : Buffer} {recvLen offset k : Nat}

theorem looked_searchFrom_succ (o n : Nat) : looked (searchFrom o (n + 1)) buf =
    [o, o + 1] ++ if half buf o = MAGIC then [] else looked (searchFrom (o + 1) n) buf := by
  rw [searchFrom, looked_bind, looked_examineHalf, examineHalf_result, examineHalf_final]
  split <;> rfl

/-- The search looks at the two bytes of every place up to the first magic. -/
theorem mem_looked_searchFrom (o n : Nat) : k ∈ looked (searchFrom o n) buf ↔
    ∃ j, o ≤ j ∧ j < o + n ∧ (∀ i, o ≤ i → i < j → half buf i ≠ MAGIC) ∧ (k = j ∨ k = j + 1) := by
  induction n generalizing o with
  | zero =>
    refine iff_of_false List.not_mem_nil ?_
    rintro ⟨j, hle, hlt, -⟩
    omega
  | succ n ih =>
    rw [looked_searchFrom_succ, List.mem_append, List.mem_pair]
    by_cases hmagic : half buf o = MAGIC
    · rw [if_pos hmagic, or_iff_left List.not_mem_nil]
      constructor
      · intro hk
        exact ⟨o, Nat.le_refl o, by omega, fun i hi hlt => absurd hlt (by omega), hk⟩
      · rintro ⟨j, hle, hlt, hbefore, hk⟩
        have hj : j = o := by
          by_contra hne
          exact hbefore o (Nat.le_refl o) (by omega) hmagic
        exact hj ▸ hk
    · rw [if_neg hmagic, ih]
      constructor
      · rintro (hk | ⟨j, hle, hlt, hbefore, hk⟩)
        · exact ⟨o, Nat.le_refl o, by omega, fun i hi hlt => absurd hlt (by omega), hk⟩
        · refine ⟨j, by omega, by omega, ?_, hk⟩
          intro i hi hij
          rcases Nat.eq_or_lt_of_le hi with rfl | hlt'
          · exact hmagic
          · exact hbefore i hlt' hij
      · rintro ⟨j, hle, hlt, hbefore, hk⟩
        rcases Nat.eq_or_lt_of_le hle with rfl | hlt'
        · exact .inl hk
        · exact .inr ⟨j, hlt', by omega, fun i hi => hbefore i (by omega), hk⟩

theorem mem_looked_search : k ∈ looked (search recvLen) buf ↔
    ∃ j < recvLen, (∀ i < j, half buf i ≠ MAGIC) ∧ (k = j ∨ k = j + 1) := by
  rw [search, mem_looked_searchFrom]
  simp

theorem mem_looked_sectionLength : k ∈ looked (sectionLength offset) buf ↔ k = offset := by
  unfold sectionLength
  rw [looked_bind, looked_examine]
  split <;> simp

theorem mem_looked_packetLength : k ∈ looked (packetLength offset) buf ↔
    k = offset + 2 ∨ getField (buf (offset + 2)) 0 1 = 0 ∧ (k = offset + 10 ∨ k = offset + 11) := by
  unfold packetLength
  rw [looked_bind, looked_examine, examine_result, examine_final]
  by_cases hpf : getField (buf (offset + 2)) 0 1 = 0
  · rw [if_pos hpf, looked_bind, looked_bind, looked_pure, (sectionLength_eq buf (offset + 10)).2.1]
    simp [mem_looked_sectionLength, hpf]
  · simp [hpf]

end Search

/-! ## The callback -/

section Callback
variable {buf : Buffer} {recvLen offset : Nat} (answers : Nat → BitVec 32) (allocated : Bool) (heap : Buffer)

theorem looked_callback_of_none (h : (search recvLen).result buf = none) :
    looked (callback answers allocated heap recvLen) buf = looked (search recvLen) buf := by
  unfold callback
  rw [looked_bind, h]
  exact List.append_nil _

theorem looked_callback_of_some (h : (search recvLen).result buf = some offset) :
    looked (callback answers allocated heap recvLen) buf = looked (search recvLen) buf ++
      if recvLen - offset < ETHERBONE_HEADER_LENGTH then [] else looked (packetLength offset) buf := by
  have hfinal : (search recvLen).final buf = buf := (searchFrom_final buf 0 recvLen).1
  unfold callback
  rw [looked_bind, h, hfinal]
  dsimp only
  split
  · rfl
  · rw [looked_bind]
    congr 1
    -- nothing is looked at behind the length of the packet
    rw [List.append_right_eq_self]
    split
    · rfl
    · split
      · rfl
      · rw [looked_bind, looked_get, looked_processPacket]
        rfl

/-- The search, and the length of a packet that has been found with its header. -/
theorem mem_looked_callback {k : Nat} : k ∈ looked (callback answers allocated heap recvLen) buf ↔
    k ∈ looked (search recvLen) buf ∨ ∃ o, half buf o = MAGIC ∧ (∀ i < o, half buf i ≠ MAGIC) ∧ o + 8 ≤ recvLen ∧
      k ∈ looked (packetLength o) buf := by
  have hfound : ∀ o, (search recvLen).result buf = some o ↔ _ := fun o => searchFrom_eq_some 0 recvLen
  cases hsearch : (search recvLen).result buf with
  | none =>
    rw [looked_callback_of_none answers allocated heap hsearch, iff_self_or]
    rintro ⟨o, hmagic, hbefore, hheader, -⟩
    have hsome := (hfound o).mpr ⟨Nat.zero_le o, by omega, hmagic, fun i _ => hbefore i⟩
    rw [hsearch] at hsome
    cases hsome
  | some offset =>
    obtain ⟨-, hlt, hmagic, hbefore⟩ := (hfound offset).mp hsearch
    rw [looked_callback_of_some answers allocated heap hsearch, List.mem_append]
    apply or_congr_right
    unfold ETHERBONE_HEADER_LENGTH
    constructor
    · intro hk
      split at hk
      · exact absurd hk List.not_mem_nil
      · exact ⟨offset, hmagic, fun i => hbefore i (Nat.zero_le i), by omega, hk⟩
    · rintro ⟨o, hmagic', hbefore', hheader, hk⟩
      have hsome := (hfound o).mpr ⟨Nat.zero_le o, by omega, hmagic', fun i _ => hbefore' i⟩
      obtain rfl := Option.some.inj (hsearch.symm.trans hsome)
      rwa [if_neg (by omega)]

end Callback

/-- **When the search stays inside the buffer.** All bytes that are looked at are in the receive buffer exactly if a
datagram that fills the buffer has the magic before its last byte, and the counts of a packet that is no probe are in
the buffer. -/
theorem callback_looks_within_iff {bufSize recvLen : Nat} (hle : recvLen ≤ bufSize) (buf heap : Buffer)
    (answers : Nat → BitVec 32) (allocated : Bool) :
    (∀ k, .examine k ∈ (callback answers allocated heap recvLen).events buf → k < bufSize) ↔
      (recvLen = bufSize → recvLen ≠ 0 → ∃ o, o + 1 < recvLen ∧ half buf o = MAGIC) ∧
      (∀ o, half buf o = MAGIC → (∀ i < o, half buf i ≠ MAGIC) → o + 8 ≤ recvLen →
        getField (buf (o + 2)) 0 1 = 0 → o + 11 < bufSize) := by
  simp only [← mem_looked_iff, mem_looked_callback, mem_looked_search, mem_looked_packetLength]
  constructor
  · intro h
    refine ⟨?_, ?_⟩
    · intro hfull hpos
      by_contra hnone
      have hlast := h recvLen (.inl ⟨recvLen - 1, by omega, ?_, .inr (by omega)⟩)
      · omega
      · intro i hi hmagic
        exact hnone ⟨i, by omega, hmagic⟩
    · intro o hmagic hbefore hheader hpf
      exact h (o + 11) (.inr ⟨o, hmagic, hbefore, hheader, .inr ⟨hpf, .inr rfl⟩⟩)
  · rintro ⟨hfull, hcounts⟩ k (⟨j, hj, hbefore, hk⟩ | ⟨o, hmagic, hbefore, hheader, hk⟩)
    · by_contra hout
      obtain ⟨o, ho, hmagic⟩ := hfull (by omega) (by omega)
      exact hbefore o (by omega) hmagic
    · rcases hk with rfl | ⟨hpf, hk⟩
      · omega
      · have hlast := hcounts o hmagic hbefore hheader hpf
        omega

/-- A probe that fills a buffer of eight bytes. -/
def probe : Buffer := Buffer.ofList [0x4e, 0x6f, 0x11, 0x44, 0, 0, 0, 0]

theorem callback_looks_within_iff_probe :
    .examine 2 ∈ (callback (fun _ => 0) true (fun _ => 0) 8).events probe ∧
    ∀ k, .examine k ∈ (callback (fun _ => 0) true (fun _ => 0) 8).events probe → k < 8 := by
  refine ⟨by decide +kernel, ?_⟩
  apply (callback_looks_within_iff (Nat.le_refl 8) probe (fun _ => 0) (fun _ => 0) true).mpr
  refine ⟨fun _ _ => ⟨0, by decide, by decide⟩, ?_⟩
  intro o hmagic hbefore _ hpf
  have hzero : o = 0 := by
    by_contra hne
    exact hbefore 0 (Nat.pos_of_ne_zero hne) (by decide)
  subst hzero
  exact absurd hpf (by decide)

/-- Without a magic the byte behind a full buffer is looked at, and without the probe flag the counts behind it. -/
theorem looks_behind_full_buffer :
    .examine 8 ∈ (callback (fun _ => 0) true (fun _ => 0) 8).events (Buffer.ofList []) ∧
    .examine 11 ∈ (callback (fun _ => 0) true (fun _ => 0) 8).events (Buffer.ofList [0x4e, 0x6f, 0x10, 0x44]) := by
  decide +kernel

end RowhammerTester.Firmware.Etherbone
