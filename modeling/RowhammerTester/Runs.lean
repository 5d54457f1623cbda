import Mathlib.Order.Basic

/-!
# Maximal runs

The intervals `[a, b)` of the numbers below `n` on which a property holds and which cannot be extended.

* `IsRun p n a b` : a maximal run; `IsRun.eq_of_mem` : a number is in one run only, `exists_run` : and is in one;
* `isRun_succ_iff_of_lt`, `isRun_succ_self_iff`, `IsRun.extend`, `isRun_singleton` : the runs below `n + 1` by those
  below `n`;
* `Inside p n k`, `Ends p n k` : there is a run of length `k` that ends before `n`, or at `n`.
-/

namespace RowhammerTester.Runs

/-- `[a, b)` is a maximal run of `p` below `n`. -/
structure IsRun (p : Nat → Prop) (n a b : Nat) : Prop where
  lt : a < b
  le : b ≤ n
  holds : ∀ d < b, a ≤ d → p d
  left : ∀ d < a, d + 1 = a → ¬ p d
  right : b < n → ¬ p b

instance (p : Nat → Prop) [DecidablePred p] (n a b : Nat) : Decidable (IsRun p n a b) :=
  decidable_of_iff (a < b ∧ b ≤ n ∧ (∀ d < b, a ≤ d → p d) ∧ (∀ d < a, d + 1 = a → ¬ p d) ∧ (b < n → ¬ p b))
    ⟨fun ⟨h₁, h₂, h₃, h₄, h₅⟩ => ⟨h₁, h₂, h₃, h₄, h₅⟩, fun ⟨h₁, h₂, h₃, h₄, h₅⟩ => ⟨h₁, h₂, h₃, h₄, h₅⟩⟩

/-- A run of length `k` that ends before `n`. -/
def Inside (p : Nat → Prop) (n k : Nat) : Prop := ∃ a < n, a + k < n ∧ IsRun p n a (a + k)

/-- A run of length `k` that ends at `n`. -/
def Ends (p : Nat → Prop) (n k : Nat) : Prop := ∃ a < n, a + k = n ∧ IsRun p n a n

instance (p : Nat → Prop) [DecidablePred p] (n k : Nat) : Decidable (Inside p n k) :=
  inferInstanceAs (Decidable (∃ a < n, a + k < n ∧ IsRun p n a (a + k)))

instance (p : Nat → Prop) [DecidablePred p] (n k : Nat) : Decidable (Ends p n k) :=
  inferInstanceAs (Decidable (∃ a < n, a + k = n ∧ IsRun p n a n))

section Runs
variable {p : Nat → Prop} {n a b a' b' d k : Nat}

theorem IsRun.inside (h : IsRun p n a b) (hlt : b < n) : Inside p n (b - a) := by
  have hab := h.lt
  refine ⟨a, by omega, by omega, ?_⟩
  rwa [Nat.add_sub_cancel' (Nat.le_of_lt hab)]

theorem IsRun.ends (h : IsRun p n a n) : Ends p n (n - a) := ⟨a, h.lt, Nat.add_sub_cancel' (Nat.le_of_lt h.lt), h⟩

/-! ## One run for each number -/

/-- Two runs that meet begin together, -/
theorem IsRun.left_le (h : IsRun p n a b) (h' : IsRun p n a' b') (ha : a ≤ d) (hb' : d < b') : a ≤ a' := by
  by_contra hlt
  have hpred : a - 1 + 1 = a := by omega
  exact h.left (a - 1) (by omega) hpred (h'.holds (a - 1) (by omega) (by omega))

/-- and end together. -/
theorem IsRun.le_right (h : IsRun p n a b) (h' : IsRun p n a' b') (ha : a ≤ d) (hb' : d < b') : b ≤ b' := by
  by_contra hlt
  have hle := h.le
  exact h'.right (by omega) (h.holds b' (by omega) (by omega))

theorem IsRun.eq_of_mem (h : IsRun p n a b) (h' : IsRun p n a' b') (ha : a ≤ d) (hb : d < b) (ha' : a' ≤ d)
    (hb' : d < b') : a = a' ∧ b = b' :=
  ⟨Nat.le_antisymm (h.left_le h' ha hb') (h'.left_le h ha' hb),
    Nat.le_antisymm (h.le_right h' ha hb') (h'.le_right h ha' hb)⟩

/-- There is one run at most that ends at `n`. -/
theorem IsRun.eq_of_ends (h : IsRun p n a n) (h' : IsRun p n a' n) : a = a' := by
  have hlt := h.lt
  have hlt' := h'.lt
  exact (h.eq_of_mem h' (d := n - 1) (by omega) (by omega) (by omega) (by omega)).1

/-! ## The runs below the next number -/

/-- What ends before `n` is not changed. -/
theorem isRun_succ_iff_of_lt (hb : b < n) : IsRun p (n + 1) a b ↔ IsRun p n a b := by
  constructor
  · intro h
    exact ⟨h.lt, Nat.le_of_lt hb, h.holds, h.left, fun _ => h.right (by omega)⟩
  · intro h
    exact ⟨h.lt, by omega, h.holds, h.left, fun _ => h.right hb⟩

/-- A run that ends at `n` is closed by a number without the property. -/
theorem isRun_succ_self_iff : IsRun p (n + 1) a n ↔ IsRun p n a n ∧ ¬ p n := by
  constructor
  · intro h
    exact ⟨⟨h.lt, Nat.le_refl n, h.holds, h.left, fun hlt => absurd hlt (Nat.lt_irrefl n)⟩,
      h.right (Nat.lt_succ_self n)⟩
  · rintro ⟨h, hn⟩
    exact ⟨h.lt, Nat.le_succ n, h.holds, h.left, fun _ => hn⟩

theorem holds_succ (h : IsRun p n a n) (hn : p n) : ∀ d < n + 1, a ≤ d → p d := by
  intro d hd ha
  rcases Nat.lt_succ_iff_lt_or_eq.mp hd with hlt | rfl
  · exact h.holds d hlt ha
  · exact hn

/-- A number with the property goes on with a run, -/
theorem IsRun.extend (h : IsRun p n a n) (hn : p n) : IsRun p (n + 1) a (n + 1) :=
  ⟨Nat.lt_succ_of_lt h.lt, Nat.le_refl _, holds_succ h hn, h.left, fun hlt => absurd hlt (Nat.lt_irrefl _)⟩

/-- or opens one. -/
theorem isRun_singleton (hopen : ∀ d < n, d + 1 = n → ¬ p d) (hn : p n) : IsRun p (n + 1) n (n + 1) := by
  refine ⟨Nat.lt_succ_self n, Nat.le_refl _, ?_, hopen, fun hlt => absurd hlt (Nat.lt_irrefl _)⟩
  intro d hd ha
  obtain rfl : n = d := by omega
  exact hn

/-- Up to every number with the property there is a run. -/
theorem exists_run_last (hn : p n) : ∃ a, IsRun p (n + 1) a (n + 1) := by
  induction n with
  | zero => exact ⟨0, isRun_singleton (fun d hd => absurd hd (Nat.not_lt_zero d)) hn⟩
  | succ n ih =>
    by_cases hp : p n
    · obtain ⟨a, h⟩ := ih hp
      exact ⟨a, h.extend hn⟩
    · refine ⟨n + 1, isRun_singleton ?_ hn⟩
      intro d _ hd
      obtain rfl : d = n := by omega
      exact hp

/-- Every number with the property is in a run. -/
theorem exists_run (hd : d < n) (hp : p d) : ∃ a b, IsRun p n a b ∧ a ≤ d ∧ d < b := by
  induction n with
  | zero => exact absurd hd (Nat.not_lt_zero d)
  | succ n ih =>
    rcases Nat.lt_succ_iff_lt_or_eq.mp hd with hlt | rfl
    · obtain ⟨a, b, h, ha, hb⟩ := ih hlt
      rcases Nat.lt_or_eq_of_le h.le with hbn | rfl
      · exact ⟨a, b, (isRun_succ_iff_of_lt hbn).mpr h, ha, hb⟩
      · by_cases hb' : p b
        · exact ⟨a, b + 1, h.extend hb', ha, Nat.lt_succ_of_lt hb⟩
        · exact ⟨a, b, isRun_succ_self_iff.mpr ⟨h, hb'⟩, ha, hb⟩
    · obtain ⟨a, h⟩ := exists_run_last hp
      exact ⟨a, d + 1, h, by have := h.lt; omega, Nat.lt_succ_self d⟩

end Runs

end RowhammerTester.Runs
