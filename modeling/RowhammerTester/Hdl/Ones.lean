import RowhammerTester.Hdl.Bits
import Mathlib.Algebra.BigOperators.Ring.Finset
import Mathlib.Algebra.Order.BigOperators.Group.Finset
import Mathlib.Data.Nat.Bits

/-!
# Ones in windows of bits

* `ones x lo len` : the ones among the bits `lo .. lo + len - 1` of `x`;
* `ones_add`, `ones_mul` : a window cut in pieces; `ones_strided` : in pieces of pieces, the stride first.
-/

namespace RowhammerTester.Hdl
open Finset

/-- The number of ones among the bits `lo .. lo + len - 1`. -/
def ones (x lo len : Nat) : Nat := ∑ i ∈ range len, (x.testBit (lo + i)).toNat

section Ones
variable (x lo : Nat)

theorem ones_add (m n : Nat) : ones x lo (m + n) = ones x lo m + ones x (lo + m) n := by
  unfold ones
  rw [sum_range_add]
  simp only [Nat.add_assoc]

theorem ones_mul (k n : Nat) : ones x lo (k * n) = ∑ j ∈ range k, ones x (lo + j * n) n := by
  induction k with
  | zero => rw [Nat.zero_mul, range_zero, sum_empty, ones, range_zero, sum_empty]
  | succ k ih => rw [Nat.succ_mul, ones_add, sum_range_succ, ih]

/-- Every piece of a window has `k` parts; the first parts of all pieces together, the second ones and so on are the
window. -/
theorem ones_strided (pieces k n : Nat) :
    ∑ part ∈ range k, ∑ piece ∈ range pieces, ones x (lo + part * n + piece * (k * n)) n =
      ones x lo (pieces * (k * n)) := by
  rw [sum_comm, ones_mul]
  apply sum_congr rfl
  intro piece _
  rw [ones_mul]
  apply sum_congr rfl
  intro part _
  rw [Nat.add_right_comm]

theorem ones_eq_zero_iff {len : Nat} : ones x lo len = 0 ↔ ∀ i < len, x.testBit (lo + i) = false := by
  unfold ones
  rw [sum_eq_zero_iff]
  simp

theorem ones_le (len : Nat) : ones x lo len ≤ len := by
  unfold ones
  calc ∑ i ∈ range len, (x.testBit (lo + i)).toNat ≤ ∑ _i ∈ range len, 1 := sum_le_sum fun i _ => Bool.toNat_le _
    _ = len := by rw [sum_const, card_range, nsmul_eq_mul, Nat.cast_id, Nat.mul_one]

/-- A window with a zero has fewer ones than bits. -/
theorem ones_lt {len i : Nat} (hi : i < len) (h : x.testBit (lo + i) = false) : ones x lo len < len := by
  unfold ones
  calc ∑ i ∈ range len, (x.testBit (lo + i)).toNat < ∑ _i ∈ range len, 1 :=
        sum_lt_sum (fun j _ => Bool.toNat_le _) ⟨i, mem_range.mpr hi, by rw [h]; decide⟩
    _ = len := by rw [sum_const, card_range, nsmul_eq_mul, Nat.cast_id, Nat.mul_one]

end Ones

/-- The ones of a number below `2 ^ w` are in its lowest `w` bits. -/
theorem ones_eq_of_lt {x w n : Nat} (h : x < 2 ^ w) (hn : w ≤ n) : ones x 0 n = ones x 0 w := by
  obtain ⟨d, rfl⟩ := Nat.exists_eq_add_of_le hn
  have hzero : ones x (0 + w) d = 0 := by
    rw [ones_eq_zero_iff]
    intro i _
    exact Nat.testBit_lt_two_pow (lt_of_lt_of_le h (Nat.pow_le_pow_right (by decide) (by omega)))
  rw [ones_add, hzero, Nat.add_zero]

theorem count_map_range' (f : Nat → Bool) (lo len : Nat) :
    ((List.range' lo len).map f).count true = ∑ i ∈ range len, (f (lo + i)).toNat := by
  induction len with
  | zero => rfl
  | succ len ih =>
    rw [List.range'_concat, List.map_append, List.count_append, ih, sum_range_succ, Nat.one_mul]
    cases h : f (lo + len) with
    | false => simp [h]
    | true => simp [h]

end RowhammerTester.Hdl
