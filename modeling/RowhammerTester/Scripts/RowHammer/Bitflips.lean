import RowhammerTester.Hdl.Bits
import RowhammerTester.Playbook.RowErrors
import Mathlib.Data.Nat.Size

/-!
# `bitflip_list`

The flips of an error are written as positions in the binary text of `val ^ exp`, which is padded to the length of the
text of `exp`. The same expression stands in the logs of the playbook, and `logs2dq` and `logs2vis` derive the DQ pads
from the positions.

* `bin`, `formatBin` : the texts; `bitflipList` : the positions of the digit one;
* `differingBits` : the bits in which two words differ, from the highest on; `flipEntries` : the bits with their
  entries;
* `bitflipList_eq` : bit `b` has the entry `digits - 1 - b`, where `digits` is the length of the longer of the two
  words;
* `samePositions_iff` : two errors give the bits they share the same entries exactly if these lengths are the same.
-/

namespace RowhammerTester.Scripts.RowHammer
open RowhammerTester.Hdl RowhammerTester.Playbook

/-! ## Texts -/

def digit (b : Bool) : Char := if b then '1' else '0'

/-- The binary digits of a number, the most significant first. -/
def binDigits (n : Nat) : List Char := if n = 0 then ['0'] else n.bits.reverse.map digit

/-- `bin(n)`. -/
def bin (n : Nat) : List Char := '0' :: 'b' :: binDigits n

/-- `f'{x:#0{width}b}'`: zeros are inserted after the `0b` until the text has the width. -/
def formatBin (x width : Nat) : List Char := '0' :: 'b' :: (binDigits x).leftpad (width - 2) '0'

def bitflipList (val exp : Nat) : List Nat :=
  let expr := formatBin (val ^^^ exp) (bin exp).length
  ((expr.drop 2).zipIdx.filter fun p => p.1 = '1').map Prod.snd

/-- `get_dqs_on_col` of `logs2vis`: the pads of the flips of a column, without repetitions. -/
def getDqsOnCol (data : List Nat) (dqPads : Nat) : List String :=
  (data.map fun flip => s!"dq[{flip % dqPads}]").eraseDups

/-! ## Digits and bits -/

theorem bits_eq (n : Nat) : n.bits = (List.range (bitLength n)).map n.testBit := by
  have hsize : n.size = bitLength n := by
    apply Nat.le_antisymm
    · exact Nat.size_le.mpr (lt_two_pow_bitLength n)
    · exact bitLength_le_of_lt (Nat.size_le.mp le_rfl)
  apply List.ext_getElem
  · rw [Nat.size_eq_bits_len, List.length_map, List.length_range, hsize]
  · intro i h _
    rw [List.getElem_map, List.getElem_range, Nat.testBit_eq_inth, List.getI_eq_getElem _ h]

/-- The digits are the bits below the length, and a single zero for the number zero. -/
theorem binDigits_eq (n : Nat) :
    binDigits n = (List.range (max 1 (bitLength n))).reverse.map fun b => digit (n.testBit b) := by
  unfold binDigits
  split
  · next h => subst h; rfl
  · next h =>
    have hpos : 1 ≤ bitLength n := by
      unfold bitLength
      rw [if_neg h]
      omega
    rw [max_eq_right hpos, bits_eq, ← List.map_reverse, List.map_map]
    rfl

theorem length_binDigits (n : Nat) : (binDigits n).length = max 1 (bitLength n) := by
  rw [binDigits_eq, List.length_map, List.length_reverse, List.length_range]

theorem testBit_of_bitLength_le {n b : Nat} (h : bitLength n ≤ b) : n.testBit b = false :=
  Nat.testBit_lt_two_pow (lt_of_lt_of_le (lt_two_pow_bitLength n) (Nat.pow_le_pow_right (by decide) h))

/-- Padding shows further bits of the number. -/
theorem leftpad_binDigits (n width : Nat) : (binDigits n).leftpad width '0' =
    (List.range (max width (max 1 (bitLength n)))).reverse.map fun b => digit (n.testBit b) := by
  unfold List.leftpad
  rw [length_binDigits, binDigits_eq]
  generalize hlen : max 1 (bitLength n) = len
  have hsum : max width len = len + (width - len) := by omega
  rw [hsum, List.range_add, List.reverse_append, List.map_append]
  congr 1
  symm
  rw [List.eq_replicate_iff]
  refine ⟨by simp, fun c hc => ?_⟩
  simp only [List.mem_map, List.mem_reverse, List.mem_range] at hc
  obtain ⟨b, ⟨k, -, rfl⟩, rfl⟩ := hc
  rw [testBit_of_bitLength_le (by omega)]
  rfl

/-! ## Positions -/

/-- The positions of the ones among digits counted down. -/
theorem positions_eq (g : Nat → Bool) (n k : Nat) :
    (((((List.range n).reverse.map fun b => digit (g b)).zipIdx k).filter fun p => p.1 = '1').map Prod.snd) =
      ((List.range n).reverse.filter g).map fun b => k + (n - 1 - b) := by
  induction n generalizing k with
  | zero => rfl
  | succ n ih =>
    have htail : ((List.range n).reverse.filter g).map (fun b => k + 1 + (n - 1 - b)) =
        ((List.range n).reverse.filter g).map fun b => k + (n + 1 - 1 - b) := by
      apply List.map_congr_left
      intro b hb
      have hlt : b < n := by simpa using (List.mem_filter.mp hb).1
      omega
    rw [List.range_succ, List.reverse_append, List.reverse_singleton, List.singleton_append, List.map_cons,
      List.zipIdx_cons]
    cases h : g n with
    | true =>
      rw [List.filter_cons_of_pos (by simp [digit]), List.filter_cons_of_pos h, List.map_cons, List.map_cons, ih, htail]
      congr 1
      omega
    | false =>
      rw [List.filter_cons_of_neg (by simp [digit]), List.filter_cons_of_neg (by simp [h]), ih, htail]

/-- The bits in which two words differ, from the highest on. -/
def differingBits (val exp : Nat) : List Nat :=
  (List.range (bitLength (val ^^^ exp))).reverse.filter (val ^^^ exp).testBit

/-- The digits of the text. -/
def digits (val exp : Nat) : Nat := max 1 (max (bitLength val) (bitLength exp))

theorem mem_differingBits {val exp b : Nat} : b ∈ differingBits val exp ↔ (val ^^^ exp).testBit b = true := by
  unfold differingBits
  rw [List.mem_filter, List.mem_reverse, List.mem_range]
  refine ⟨fun h => h.2, fun h => ⟨?_, h⟩⟩
  by_contra hle
  rw [testBit_of_bitLength_le (by omega)] at h
  cases h

theorem length_differingBits (val exp : Nat) : (differingBits val exp).length = bitflips val exp := by
  unfold differingBits bitflips bitcount
  rw [bits_eq, List.count_eq_countP, List.countP_map, ← List.countP_eq_length_filter, List.countP_reverse]
  congr 1
  funext b
  simp

theorem bitLength_xor_le (a b : Nat) : bitLength (a ^^^ b) ≤ max (bitLength a) (bitLength b) := by
  apply bitLength_le_of_lt
  apply Nat.xor_lt_two_pow
  · exact lt_of_lt_of_le (lt_two_pow_bitLength a) (Nat.pow_le_pow_right (by decide) (le_max_left _ _))
  · exact lt_of_lt_of_le (lt_two_pow_bitLength b) (Nat.pow_le_pow_right (by decide) (le_max_right _ _))

theorem digits_eq (val exp : Nat) :
    max (max 1 (bitLength exp)) (max 1 (bitLength (val ^^^ exp))) = digits val exp := by
  have hxor := bitLength_xor_le val exp
  have hval := bitLength_xor_le (val ^^^ exp) exp
  rw [Nat.xor_assoc, Nat.xor_self, Nat.xor_zero] at hval
  unfold digits
  omega

/-- Further bits of the difference are no flips. -/
theorem filter_testBit {val exp n : Nat} (h : bitLength (val ^^^ exp) ≤ n) :
    (List.range n).reverse.filter (val ^^^ exp).testBit = differingBits val exp := by
  obtain ⟨d, rfl⟩ := Nat.exists_eq_add_of_le h
  have hnone : ((List.range d).map (bitLength (val ^^^ exp) + ·)).reverse.filter (val ^^^ exp).testBit = [] := by
    rw [List.filter_eq_nil_iff]
    intro b hb
    simp only [List.mem_reverse, List.mem_map] at hb
    obtain ⟨k, -, rfl⟩ := hb
    rw [testBit_of_bitLength_le (Nat.le_add_right _ _)]
    decide
  rw [List.range_add, List.reverse_append, List.filter_append, hnone, List.nil_append]
  rfl

theorem bitflipList_eq (val exp : Nat) :
    bitflipList val exp = (differingBits val exp).map fun b => digits val exp - 1 - b := by
  have hwidth : (bin exp).length - 2 = max 1 (bitLength exp) := by
    rw [← length_binDigits]
    rfl
  have hle : bitLength (val ^^^ exp) ≤ digits val exp := by
    rw [← digits_eq]
    omega
  unfold bitflipList formatBin
  dsimp only
  rw [List.drop_succ_cons, List.drop_succ_cons, List.drop_zero, hwidth, leftpad_binDigits, digits_eq, positions_eq,
    filter_testBit hle]
  simp only [Nat.zero_add]

/-! ## Two errors -/

/-- The bits with their entries. -/
def flipEntries (val exp : Nat) : List (Nat × Nat) := (differingBits val exp).zip (bitflipList val exp)

theorem mem_flipEntries {val exp b p : Nat} :
    (b, p) ∈ flipEntries val exp ↔ (val ^^^ exp).testBit b = true ∧ p = digits val exp - 1 - b := by
  unfold flipEntries
  rw [bitflipList_eq, ← List.map_prod_left_eq_zip, ← mem_differingBits]
  simp only [List.mem_map, Prod.mk.injEq]
  constructor
  · rintro ⟨b', hb', rfl, rfl⟩
    exact ⟨hb', rfl⟩
  · rintro ⟨hb, rfl⟩
    exact ⟨b, hb, rfl, rfl⟩

/-- The flips of two errors have one entry for each bit, and the entry says the bit. -/
structure SamePositions (val exp val' exp' : Nat) : Prop where
  length_eq : (bitflipList val exp).length = bitflips val exp
  length_eq' : (bitflipList val' exp').length = bitflips val' exp'
  entry_eq : ∀ b p p', (b, p) ∈ flipEntries val exp → (b, p') ∈ flipEntries val' exp' → p = p'
  list_eq : val ^^^ exp = val' ^^^ exp' → bitflipList val exp = bitflipList val' exp'
  dqs_eq : val ^^^ exp = val' ^^^ exp' →
    ∀ dqPads, getDqsOnCol (bitflipList val exp) dqPads = getDqsOnCol (bitflipList val' exp') dqPads

theorem length_bitflipList (val exp : Nat) : (bitflipList val exp).length = bitflips val exp := by
  rw [bitflipList_eq, List.length_map, length_differingBits]

/-- A differing bit is one of the digits. -/
theorem lt_digits {val exp b : Nat} (h : (val ^^^ exp).testBit b = true) : b < max (bitLength val) (bitLength exp) := by
  have hlt : b < bitLength (val ^^^ exp) := by
    by_contra hle
    rw [testBit_of_bitLength_le (by omega)] at h
    cases h
  exact lt_of_lt_of_le hlt (bitLength_xor_le val exp)

theorem bitflipList_congr {val exp val' exp' : Nat} (hxor : val ^^^ exp = val' ^^^ exp')
    (h : (∀ b, ¬((val ^^^ exp).testBit b = true ∧ (val' ^^^ exp').testBit b = true)) ∨
      max (bitLength val) (bitLength exp) = max (bitLength val') (bitLength exp')) :
    bitflipList val exp = bitflipList val' exp' := by
  have hbits : differingBits val exp = differingBits val' exp' := by
    unfold differingBits
    rw [hxor]
  rw [bitflipList_eq, bitflipList_eq, hbits]
  apply List.map_congr_left
  intro b hb
  have hb' := mem_differingBits.mp hb
  rcases h with hnone | hlen
  · exact absurd ⟨hxor ▸ hb', hb'⟩ (hnone b)
  · unfold digits
    rw [hlen]

/-- **Flip positions.** Two errors in words of any width give every bit in which both differ the same entry, and the
same list when the same bits differ, exactly if the longer of the value read and the value expected has as many bits in
both errors; only errors without a common bit are unaffected. -/
theorem samePositions_iff (val exp val' exp' : Nat) : SamePositions val exp val' exp' ↔
    (∀ b, ¬((val ^^^ exp).testBit b = true ∧ (val' ^^^ exp').testBit b = true)) ∨
      max (bitLength val) (bitLength exp) = max (bitLength val') (bitLength exp') := by
  constructor
  · intro h
    by_cases hcommon : ∃ b, (val ^^^ exp).testBit b = true ∧ (val' ^^^ exp').testBit b = true
    · right
      obtain ⟨b, hb, hb'⟩ := hcommon
      have hentry := h.entry_eq b _ _ (mem_flipEntries.mpr ⟨hb, rfl⟩) (mem_flipEntries.mpr ⟨hb', rfl⟩)
      have hlt := lt_digits hb
      have hlt' := lt_digits hb'
      unfold digits at hentry
      omega
    · left
      intro b hb
      exact hcommon ⟨b, hb⟩
  · intro h
    refine ⟨length_bitflipList _ _, length_bitflipList _ _, fun b p p' hp hp' => ?_,
      fun hxor => bitflipList_congr hxor h, fun hxor dqPads => ?_⟩
    · obtain ⟨hb, rfl⟩ := mem_flipEntries.mp hp
      obtain ⟨hb', rfl⟩ := mem_flipEntries.mp hp'
      rcases h with hnone | hlen
      · exact absurd ⟨hb, hb'⟩ (hnone b)
      · unfold digits
        rw [hlen]
    · rw [bitflipList_congr hxor h]

/-- The lowest bit of a 32-bit word flips: in a word of ones it is position 31 and pad 31, in a word of zeros position 0
and pad 0. -/
theorem lowest_bit_moves :
    bitflipList 0xfffffffe 0xffffffff = [31] ∧ bitflipList 1 0 = [0] ∧
      getDqsOnCol (bitflipList 0xfffffffe 0xffffffff) 64 = ["dq[31]"] ∧ getDqsOnCol (bitflipList 1 0) 64 = ["dq[0]"] ∧
      0xfffffffe ^^^ 0xffffffff = 1 ^^^ 0 ∧ ¬SamePositions 0xfffffffe 0xffffffff 1 0 := by
  have hones : bitflipList 0xfffffffe 0xffffffff = [31] := by decide +kernel
  have hzeros : bitflipList 1 0 = [0] := by decide +kernel
  refine ⟨hones, hzeros, by rw [hones]; decide +kernel, by rw [hzeros]; decide +kernel, by decide, fun h => ?_⟩
  have hlist := h.list_eq (by decide)
  rw [hones, hzeros] at hlist
  exact absurd hlist (by decide)

end RowhammerTester.Scripts.RowHammer
