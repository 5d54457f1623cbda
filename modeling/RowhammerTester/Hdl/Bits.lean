import Mathlib.Data.Nat.Bitwise
import Mathlib.Tactic.Ring

/-!
# Bit fields of natural numbers

Signals of a given width are natural numbers below a power of two.

* `bitLength n` : the number of bits of `n`; `signalMax m` : the width of a signal that holds `0 .. m - 1`;
* `slice n lo len` : the bits `lo .. lo + len - 1` of `n`;
* `packFields fields` : the shift-and-or loop that places `(width, value)` fields from the least significant bit on;
  `packFields_eq` reads it as a mixed-radix number (`concat`), whose fields `slice_low` and `slice_high` read back.
-/

namespace RowhammerTester.Hdl

/-! ## Widths -/

/-- The number of bits needed to write `n`. -/
def bitLength (n : Nat) : Nat := if n = 0 then 0 else n.log2 + 1

theorem lt_two_pow_bitLength (n : Nat) : n < 2 ^ bitLength n := by
  unfold bitLength
  split
  · next h => subst h; decide
  · exact Nat.lt_log2_self

theorem bitLength_le_of_lt {n w : Nat} (h : n < 2 ^ w) : bitLength n ≤ w := by
  unfold bitLength
  split
  · exact Nat.zero_le _
  · next hn => exact (Nat.log2_lt hn).mpr h

theorem bitLength_le_iff {n w : Nat} : bitLength n ≤ w ↔ n < 2 ^ w :=
  ⟨fun h => lt_of_lt_of_le (lt_two_pow_bitLength n) (Nat.pow_le_pow_right (by decide) h), bitLength_le_of_lt⟩

/-- The width of a signal declared with `max=m`: it holds every value below `m`. -/
def signalMax (m : Nat) : Nat := bitLength (m - 1)

theorem lt_two_pow_signalMax {v m : Nat} (h : v < m) : v < 2 ^ signalMax m :=
  lt_of_le_of_lt (by omega) (lt_two_pow_bitLength (m - 1))

/-! ## Slices -/

/-- The `len` bits of `n` from bit `lo` on. -/
def slice (n lo len : Nat) : Nat := n / 2 ^ lo % 2 ^ len

theorem slice_lt (n lo len : Nat) : slice n lo len < 2 ^ len := Nat.mod_lt _ (Nat.two_pow_pos len)

/-- Bits below the cut are kept. -/
theorem slice_mod (n : Nat) {lo len w : Nat} (h : lo + len ≤ w) : slice (n % 2 ^ w) lo len = slice n lo len := by
  unfold slice
  rw [show w = lo + (w - lo) by omega, pow_add, Nat.mod_mul_right_div_self]
  exact Nat.mod_mod_of_dvd _ (pow_dvd_pow 2 (by omega))

/-- The low field of a concatenation. -/
theorem slice_low (a b w len : Nat) (h : len ≤ w) :
    slice (a + 2 ^ w * b) 0 len = a % 2 ^ len := by
  unfold slice
  obtain ⟨k, rfl⟩ := Nat.exists_eq_add_of_le h
  rw [pow_zero, Nat.div_one, pow_add, Nat.mul_assoc, Nat.add_mul_mod_self_left]

/-- A field above the low one. -/
theorem slice_high (a b w lo len : Nat) (ha : a < 2 ^ w) :
    slice (a + 2 ^ w * b) (w + lo) len = slice b lo len := by
  unfold slice
  rw [pow_add, ← Nat.div_div_eq_div_mul, Nat.add_mul_div_left _ _ (Nat.two_pow_pos w),
    Nat.div_eq_of_lt ha, Nat.zero_add]

/-! ## Packing fields -/

/-- The loop that ors every `(width, value)` field, masked to its width, at the next free bit. -/
def packFields (fields : List (Nat × Nat)) : Nat :=
  (fields.foldl (fun (acc : Nat × Nat) f =>
    (acc.1 ||| ((f.2 &&& (2 ^ f.1 - 1)) <<< acc.2), acc.2 + f.1)) (0, 0)).1

/-- The fields as a mixed-radix number, the first one least significant. -/
def concat : List (Nat × Nat) → Nat
  | [] => 0
  | (w, v) :: fields => v % 2 ^ w + 2 ^ w * concat fields

theorem or_shiftLeft_eq_add (a b n : Nat) (ha : a < 2 ^ n) : a ||| (b <<< n) = a + 2 ^ n * b := by
  rw [Nat.or_comm, Nat.shiftLeft_eq, Nat.mul_comm b, ← Nat.two_pow_add_eq_or_of_lt ha, Nat.add_comm]

theorem foldl_pack (fields : List (Nat × Nat)) : ∀ (a n : Nat), a < 2 ^ n →
    (fields.foldl (fun (acc : Nat × Nat) f =>
      (acc.1 ||| ((f.2 &&& (2 ^ f.1 - 1)) <<< acc.2), acc.2 + f.1)) (a, n)).1 =
      a + 2 ^ n * concat fields := by
  induction fields with
  | nil => intro a n _; simp [concat]
  | cons f fields ih =>
    intro a n ha
    obtain ⟨w, v⟩ := f
    have hv : v % 2 ^ w < 2 ^ w := Nat.mod_lt _ (Nat.two_pow_pos w)
    have hlt : a + 2 ^ n * (v % 2 ^ w) < 2 ^ (n + w) := by
      have h1 : 2 ^ n * (v % 2 ^ w) ≤ 2 ^ n * (2 ^ w - 1) := Nat.mul_le_mul_left _ (by omega)
      have h2 : 2 ^ n * (2 ^ w - 1) + 2 ^ n = 2 ^ (n + w) := by
        rw [pow_add, ← Nat.mul_succ]
        congr 1
        have := Nat.two_pow_pos w
        omega
      omega
    rw [List.foldl_cons, Nat.and_two_pow_sub_one_eq_mod, or_shiftLeft_eq_add _ _ _ ha, ih _ _ hlt, concat]
    ring

theorem packFields_eq (fields : List (Nat × Nat)) : packFields fields = concat fields := by
  unfold packFields
  rw [foldl_pack fields 0 0 (by decide)]
  simp

end RowhammerTester.Hdl
