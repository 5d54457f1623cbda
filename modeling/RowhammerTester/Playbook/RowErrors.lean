import RowhammerTester.Playbook.RowMapping
import Mathlib.Data.Nat.Bits

/-!
# Errors by rows

* `RowErrors` : the errors found after a payload, as the payload generators get them;
* `bitflips` : the bits in which two words differ.
-/

namespace RowhammerTester.Playbook

/-- An error of a row: the index of the word in the row, the data read and the data expected. -/
structure RowError where
  index : Int
  value : Nat
  expected : Nat
deriving DecidableEq, Repr

/-- The errors by physical rows, in the order of the dictionary. -/
abbrev RowErrors := List (Nat × List RowError)

/-- `bin(x).count('1')`. -/
def bitcount (x : Nat) : Nat := x.bits.count true

def bitflips (val ref : Nat) : Nat := bitcount (val ^^^ ref)

/-- The flips of all errors of a row. -/
def flips (errors : List RowError) : Nat := (errors.map fun e => bitflips e.value e.expected).sum

end RowhammerTester.Playbook
