import Mathlib.Algebra.BigOperators.Ring.Finset
import Mathlib.Data.Finset.Prod

/-!
# Dictionaries of counts

A histogram is a function from its keys to counts, an absent key having the count zero.

* `tally d keys` : the histogram with one more for every key of a list;
* `tally_tally` : two lists one after the other; `tally_apply_of_not_mem` : other keys keep their count;
* `sum_tally` : what the keys of a list add to a weighted sum over keys.
-/

namespace RowhammerTester

section Tally
variable {κ ι : Type} [DecidableEq κ] [DecidableEq ι]

/-- One more for every occurrence of a key. -/
def tally (d : κ → Nat) (keys : List κ) : κ → Nat := fun key => d key + keys.count key

variable (d : κ → Nat) (keys : List κ)

@[simp] theorem tally_nil : tally d [] = d := rfl

theorem tally_apply (key : κ) : tally d keys key = d key + keys.count key := rfl

@[simp] theorem tally_tally (keys' : List κ) : tally (tally d keys) keys' = tally d (keys ++ keys') := by
  funext key
  rw [tally_apply, tally_apply, tally_apply, List.count_append, Nat.add_assoc]

theorem tally_apply_of_not_mem {key : κ} (h : key ∉ keys) : tally d keys key = d key := by
  rw [tally_apply, List.count_eq_zero_of_not_mem h, Nat.add_zero]

/-- One key. -/
theorem update_eq_tally (key : κ) : Function.update d key (d key + 1) = tally d [key] := by
  funext key'
  by_cases h : key' = key
  · rw [h, Function.update_self, tally_apply, List.count_singleton_self]
  · rw [Function.update_of_ne h, tally_apply_of_not_mem d [key] (by simpa using h)]

theorem tally_map_apply {f : ι → κ} (hf : Function.Injective f) (l : List ι) (i : ι) :
    tally d (l.map f) (f i) = d (f i) + l.count i := by
  rw [tally_apply, List.count_map_of_injective l f hf i]

/-- The keys of a list under an injective map add their weights to a sum over a set that has all of them. -/
theorem sum_tally {f : ι → κ} (hf : Function.Injective f) (w : ι → Nat) {l : List ι} {s : Finset ι}
    (h : ∀ i ∈ l, i ∈ s) :
    ∑ i ∈ s, w i * tally d (l.map f) (f i) = ∑ i ∈ s, w i * d (f i) + (l.map w).sum := by
  have hcount : (l.map w).sum = ∑ i ∈ s, w i * l.count i := by
    rw [Finset.sum_list_map_count]
    apply Finset.sum_subset_zero_on_sdiff
    · intro i hi
      exact h i (List.mem_toFinset.mp hi)
    · intro i hi
      have hnot : i ∉ l := fun hmem => (Finset.mem_sdiff.mp hi).2 (List.mem_toFinset.mpr hmem)
      rw [List.count_eq_zero_of_not_mem hnot, Nat.mul_zero]
    · intro i _
      rw [nsmul_eq_mul, Nat.cast_id, Nat.mul_comm]
  rw [hcount, ← Finset.sum_add_distrib]
  apply Finset.sum_congr rfl
  intro i _
  rw [tally_map_apply d hf, Nat.mul_add]

end Tally

end RowhammerTester
