import Mathlib.Data.BitVec
import Mathlib.Tactic.IntervalCases

/-!
# Byte buffers

* `Buffer` : the bytes of a buffer; `half`, `word` : the values in network byte order; `wordBytes` : the bytes of a
  word;
* `getField`, `setField` : the bit-fields of a byte, the first one in the lowest bits;
* `putWord` : a word stored in a buffer (`putWord_apply`, `putWord_of_outside`);
* `Holds b k l` : the bytes `l` stand in `b` from `k` on (`holds_append`, `word_of_holds`).
-/

namespace RowhammerTester.Firmware

abbrev Byte := BitVec 8

/-- The bytes from a pointer on. -/
abbrev Buffer := Nat → Byte

/-- The bytes from `offset` on. -/
def Buffer.from (b : Buffer) (offset : Nat) : Buffer := fun k => b (offset + k)

/-- The bytes `l`, then zeros. -/
def Buffer.ofList (l : List Byte) : Buffer := fun k => l.getD k 0

/-- `ntohs` of the 16-bit value at `k`. -/
def half (b : Buffer) (k : Nat) : BitVec 16 := b k ++ b (k + 1)

/-- `ntohl` of the 32-bit value at `k`. -/
def word (b : Buffer) (k : Nat) : BitVec 32 := b k ++ b (k + 1) ++ b (k + 2) ++ b (k + 3)

/-- Byte `i` of a word in network byte order. -/
def wordByte (v : BitVec 32) (i : Nat) : Byte := v.extractLsb' (8 * (3 - i)) 8

/-- The bytes of a word in network byte order. -/
def wordBytes (v : BitVec 32) : List Byte := [wordByte v 0, wordByte v 1, wordByte v 2, wordByte v 3]

/-- `width` bits of a byte from bit `lo` on. -/
def getField (b : Byte) (lo width : Nat) : Nat := b.toNat / 2 ^ lo % 2 ^ width

def setField (b : Byte) (lo width v : Nat) : Byte :=
  (b &&& ~~~(BitVec.ofNat 8 (2 ^ width - 1) <<< lo)) ||| ((BitVec.ofNat 8 v &&& BitVec.ofNat 8 (2 ^ width - 1)) <<< lo)

/-- Store a word in network byte order. -/
def putWord (b : Buffer) (k : Nat) (v : BitVec 32) : Buffer :=
  Function.update (Function.update (Function.update (Function.update b k (wordByte v 0))
    (k + 1) (wordByte v 1)) (k + 2) (wordByte v 2)) (k + 3) (wordByte v 3)

/-- The bytes `l` stand from `k` on. -/
def Holds (b : Buffer) (k : Nat) (l : List Byte) : Prop := ∀ (i : Nat) (h : i < l.length), b (k + i) = l[i]

theorem append_wordByte (v : BitVec 32) : wordByte v 0 ++ wordByte v 1 ++ wordByte v 2 ++ wordByte v 3 = v := by
  ext i hi
  simp only [wordByte, BitVec.getElem_append, BitVec.getElem_extractLsb']
  rw [← BitVec.getLsbD_eq_getElem hi]
  split
  · rw [show 8 * (3 - 3) + i = i by omega]
  · split
    · rw [show 8 * (3 - 2) + (i - 8) = i by omega]
    · split
      · rw [show 8 * (3 - 1) + (i - 8 - 8) = i by omega]
      · rw [show 8 * (3 - 0) + (i - 8 - 8 - 8) = i by omega]

section PutWord
variable (b : Buffer) (k : Nat) (v : BitVec 32)

theorem putWord_apply {i : Nat} (h : i < 4) : putWord b k v (k + i) = wordByte v i := by
  unfold putWord
  interval_cases i <;> simp

theorem putWord_of_outside {j : Nat} (h : j < k ∨ k + 4 ≤ j) : putWord b k v j = b j := by
  unfold putWord
  rw [Function.update_of_ne (by omega), Function.update_of_ne (by omega), Function.update_of_ne (by omega),
    Function.update_of_ne (by omega)]

end PutWord

/-! ## Bytes in a buffer -/

section Holds
variable {b : Buffer} {k : Nat}

theorem word_of_bytes {v : BitVec 32} (h : ∀ i < 4, b (k + i) = wordByte v i) : word b k = v := by
  unfold word
  rw [h 1 (by decide), h 2 (by decide), h 3 (by decide)]
  have h0 := h 0 (by decide)
  rw [Nat.add_zero] at h0
  rw [h0]
  exact append_wordByte v

theorem holds_append {l l' : List Byte} : Holds b k (l ++ l') ↔ Holds b k l ∧ Holds b (k + l.length) l' := by
  constructor
  · intro h
    constructor
    · intro i hi
      rw [h i (by rw [List.length_append]; omega), List.getElem_append_left hi]
    · intro i hi
      rw [Nat.add_assoc, h (l.length + i) (by rw [List.length_append]; omega), List.getElem_append_right (by omega)]
      congr 1
      omega
  · intro ⟨hl, hl'⟩ i hi
    rw [List.length_append] at hi
    by_cases hlt : i < l.length
    · rw [List.getElem_append_left hlt, hl i hlt]
    · rw [List.getElem_append_right (by omega), ← hl' (i - l.length) (by omega)]
      congr 1
      omega

theorem holds_wordBytes {v : BitVec 32} (h : Holds b k (wordBytes v)) : word b k = v := by
  apply word_of_bytes
  intro i hi
  rw [h i hi]
  interval_cases i <;> rfl

theorem length_flatMap_wordBytes (l : List (BitVec 32)) : (l.flatMap wordBytes).length = 4 * l.length := by
  induction l with
  | nil => rfl
  | cons v l ih =>
    rw [List.flatMap_cons, List.length_append, ih, List.length_cons]
    change 4 + 4 * l.length = _
    omega

/-- The words of a list of words, one after the other. -/
theorem word_of_holds {l : List (BitVec 32)} (h : Holds b k (l.flatMap wordBytes)) (i : Nat) (hi : i < l.length) :
    word b (k + 4 * i) = l[i] := by
  induction l generalizing k i with
  | nil => exact absurd hi (Nat.not_lt_zero i)
  | cons v l ih =>
    rw [List.flatMap_cons, holds_append] at h
    cases i with
    | zero => exact holds_wordBytes h.1
    | succ i =>
      have hword := ih h.2 i (Nat.lt_of_succ_lt_succ hi)
      rwa [show k + (wordBytes v).length + 4 * i = k + 4 * (i + 1) by change k + 4 + 4 * i = _; omega] at hword

end Holds

end RowhammerTester.Firmware
