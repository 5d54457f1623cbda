import Mathlib.Data.Int.Bitwise

/-!
# Row mappings

Logical row numbers are those of neighbouring rows on the chip, physical ones those of the addresses.

* `logicalToPhysicalInt_injective` : different logical rows are different physical rows;
* `physicalToLogical_eq_iff` : the physical rows that one logical row stands for.
-/

namespace RowhammerTester.Playbook

/-- The subclasses of `RowMapping`. -/
inductive RowMapping where
  | TrivialRowMapping | TypeARowMapping | TypeBRowMapping
deriving DecidableEq, Repr

namespace RowMapping

/-- Bit 3 flips the bits 1 and 2. -/
def typeA (row : Nat) : Nat :=
  let bit3 := (row &&& 8) >>> 3
  row ^^^ (bit3 <<< 1) ^^^ (bit3 <<< 2)

def logicalToPhysical : RowMapping → Nat → Nat
  | .TrivialRowMapping, logical => logical
  | .TypeARowMapping, logical => typeA logical
  | .TypeBRowMapping, logical => logical * 2

def physicalToLogical : RowMapping → Nat → Nat
  | .TrivialRowMapping, physical => physical
  | .TypeARowMapping, physical => typeA physical
  | .TypeBRowMapping, physical => physical / 2

/-- `typeA` of any integer. -/
def typeAInt (row : Int) : Int :=
  let bit3 := Int.land row 8 >>> 3
  Int.xor (Int.xor row (bit3 <<< 1)) (bit3 <<< 2)

/-- `logical_to_physical` of any integer. -/
def logicalToPhysicalInt : RowMapping → Int → Int
  | .TrivialRowMapping, logical => logical
  | .TypeARowMapping, logical => typeAInt logical
  | .TypeBRowMapping, logical => logical * 2

@[simp] theorem logicalToPhysicalInt_natCast (mapping : RowMapping) (logical : Nat) :
    mapping.logicalToPhysicalInt logical = (mapping.logicalToPhysical logical : Nat) := by
  cases mapping with
  | TrivialRowMapping => rfl
  | TypeARowMapping => rfl
  | TypeBRowMapping => exact (Nat.cast_mul logical 2).symm

/-! ## Bits -/

theorem typeA_eq (row : Nat) : typeA row = if row.testBit 3 then row ^^^ 6 else row := by
  unfold typeA
  rw [show 8 = 2 ^ 3 from rfl, Nat.and_two_pow]
  cases row.testBit 3 with
  | true => exact Nat.xor_assoc row 2 4
  | false => simp

theorem ldiff_eight (n : Nat) : Nat.ldiff 8 n = if n.testBit 3 then 0 else 8 := by
  apply Nat.eq_of_testBit_eq
  intro i
  have height : ∀ i, Nat.testBit 8 i = decide (3 = i) := fun i => Nat.testBit_two_pow (n := 3) (m := i)
  rw [Nat.testBit_ldiff, height]
  by_cases hi : 3 = i
  · subst hi
    cases n.testBit 3 with
    | true => rfl
    | false => rfl
  · cases n.testBit 3 with
    | true => simp [hi]
    | false => simp [hi, height]

theorem typeAInt_negSucc (n : Nat) :
    typeAInt (Int.negSucc n) = Int.negSucc (if n.testBit 3 then n else n ^^^ 6) := by
  have hland : Int.land (Int.negSucc n) 8 = (if n.testBit 3 then 0 else 8 : Nat) := congrArg Int.ofNat (ldiff_eight n)
  unfold typeAInt
  rw [hland]
  cases n.testBit 3 with
  | true => exact congrArg Int.negSucc (by simp)
  | false => exact congrArg Int.negSucc (Nat.xor_assoc n 2 4)

theorem typeAInt_involutive : Function.Involutive typeAInt := by
  have hbit : ∀ n : Nat, (n ^^^ 6).testBit 3 = n.testBit 3 := by
    intro n
    rw [Nat.testBit_xor]
    exact Bool.xor_false _
  have htwice : ∀ n : Nat, n ^^^ 6 ^^^ 6 = n := by
    intro n
    rw [Nat.xor_assoc, Nat.xor_self, Nat.xor_zero]
  intro row
  cases row with
  | ofNat n =>
    show typeAInt (typeA n : Nat) = (n : Int)
    have hnat : typeAInt ((typeA n : Nat) : Int) = (typeA (typeA n) : Nat) := rfl
    rw [hnat, typeA_eq n]
    cases h : n.testBit 3 with
    | true => simp [typeA_eq, h, hbit, htwice]
    | false => simp [typeA_eq, h]
  | negSucc n =>
    rw [typeAInt_negSucc, typeAInt_negSucc]
    cases h : n.testBit 3 with
    | true => simp [h]
    | false => simp [h, hbit, htwice]

theorem logicalToPhysicalInt_injective (mapping : RowMapping) : Function.Injective mapping.logicalToPhysicalInt := by
  cases mapping with
  | TrivialRowMapping => exact Function.injective_id
  | TypeARowMapping => exact typeAInt_involutive.injective
  | TypeBRowMapping => exact mul_left_injective₀ (by decide)

/-- The physical rows of a logical row: its own, and under `TypeBRowMapping` the row behind it. -/
theorem physicalToLogical_eq_iff (mapping : RowMapping) (physical : Nat) (logical : Int) :
    (mapping.physicalToLogical physical : Int) = logical ↔ (physical : Int) = mapping.logicalToPhysicalInt logical ∨
      mapping = .TypeBRowMapping ∧ (physical : Int) = 2 * logical + 1 := by
  cases mapping with
  | TrivialRowMapping =>
    show (physical : Int) = logical ↔ _
    simp [logicalToPhysicalInt]
  | TypeARowMapping =>
    have heq := typeAInt_involutive.eq_iff (x := (physical : Int)) (y := logical)
    show typeAInt physical = logical ↔ _
    rw [heq]
    simp [logicalToPhysicalInt]
  | TypeBRowMapping =>
    show ((physical / 2 : Nat) : Int) = logical ↔ (physical : Int) = logical * 2 ∨ _
    simp only [true_and]
    omega

/-- Only under `TypeBRowMapping` do two physical rows have the same logical number. -/
theorem physicalToLogical_injective {mapping : RowMapping} (h : mapping ≠ .TypeBRowMapping) :
    Function.Injective mapping.physicalToLogical := by
  intro a b hab
  have ha := (physicalToLogical_eq_iff mapping a _).mp (congrArg Nat.cast hab)
  have hb := (physicalToLogical_eq_iff mapping b _).mp rfl
  simp only [h, false_and, or_false] at ha hb
  exact Int.natCast_inj.mp (ha.trans hb.symm)

end RowMapping

end RowhammerTester.Playbook
