import Mathlib.Order.WellFounded

/-!
# Synchronous machines

A machine is a function `step` from the registers and the inputs of a cycle to the registers of the next cycle.

* `run step s inp t` : the registers after `t` clock edges (`run_add`, `run_induction`);
* `events step out s inp t` : what the first `t` cycles emitted, in order;
* `eventually_of_rank` : a rank that keeps falling until `P` holds makes `P` happen; `exists_constant` : a rank that
  never rises comes to rest.
-/

namespace RowhammerTester.Hdl

section Run
variable {σ ι : Type*} (step : σ → ι → σ) (s : σ) (inp : Nat → ι)

/-- The registers after `t` clock edges. -/
def run : Nat → σ
  | 0 => s
  | t + 1 => step (run t) (inp t)

@[simp] theorem run_zero : run step s inp 0 = s := rfl

theorem run_succ (t : Nat) : run step s inp (t + 1) = step (run step s inp t) (inp t) := rfl

theorem run_add (t u : Nat) :
    run step s inp (t + u) = run step (run step s inp t) (fun k => inp (t + k)) u := by
  induction u with
  | zero => rfl
  | succ u ih => rw [← Nat.add_assoc, run_succ, run_succ, ih]

theorem run_succ' (t : Nat) :
    run step s inp (t + 1) = run step (step s (inp 0)) (fun k => inp (k + 1)) t := by
  rw [Nat.add_comm, run_add]
  congr 1
  funext k
  rw [Nat.add_comm]

/-- An invariant of the steps that a run takes. -/
theorem run_induction {P : σ → Prop} (h0 : P s)
    (hstep : ∀ t, P (run step s inp t) → P (step (run step s inp t) (inp t))) :
    ∀ t, P (run step s inp t) := by
  intro t
  induction t with
  | zero => exact h0
  | succ t ih => exact hstep t ih

/-- What the first `t` cycles of a run emit. -/
def events {β : Type*} (out : σ → ι → Option β) : Nat → List β
  | 0 => []
  | t + 1 => events out t ++ (out (run step s inp t) (inp t)).toList

theorem events_succ {β : Type*} (out : σ → ι → Option β) (t : Nat) :
    events step s inp out (t + 1) = events step s inp out t ++ (out (run step s inp t) (inp t)).toList := rfl

end Run

theorem prefix_map_range {β : Type*} (f : Nat → β) {m n : Nat} (h : m ≤ n) :
    (List.range m).map f <+: (List.range n).map f := by
  obtain ⟨d, rfl⟩ := Nat.exists_eq_add_of_le h
  rw [List.range_add, List.map_append]
  exact List.prefix_append _ _

/-! ## Progress -/

/-- If from every time at which `P` fails a smaller rank or `P` itself is reached, then `P` happens after any time. -/
theorem eventually_of_rank {α : Type*} [LT α] [WellFoundedLT α] {P : Nat → Prop} {rank : Nat → α}
    (h : ∀ t, ¬ P t → ∃ u, t < u ∧ (P u ∨ rank u < rank t)) (t : Nat) : ∃ u, t ≤ u ∧ P u := by
  induction hr : rank t using WellFoundedLT.induction generalizing t with
  | ind r ih =>
    by_cases hp : P t
    · exact ⟨t, Nat.le_refl t, hp⟩
    · obtain ⟨u, htu, hu | hu⟩ := h t hp
      · exact ⟨u, Nat.le_of_lt htu, hu⟩
      · obtain ⟨v, huv, hv⟩ := ih (rank u) (hr ▸ hu) u rfl
        exact ⟨v, Nat.le_trans (Nat.le_of_lt htu) huv, hv⟩

/-- A rank that never rises is constant from some time on. -/
theorem exists_constant {rank : Nat → Nat} (h : ∀ t, rank (t + 1) ≤ rank t) : ∃ t, ∀ u, t ≤ u → rank u = rank t := by
  have hle : ∀ t d, rank (t + d) ≤ rank t := by
    intro t d
    induction d with
    | zero => exact Nat.le_refl _
    | succ d ih => exact Nat.le_trans (h (t + d)) ih
  have hfall : ∀ t, ¬ (∀ u, t ≤ u → rank u = rank t) →
      ∃ u, t < u ∧ ((∀ v, u ≤ v → rank v = rank u) ∨ rank u < rank t) := by
    intro t hnot
    rw [Classical.not_forall] at hnot
    obtain ⟨u, hnot⟩ := hnot
    rw [Classical.not_imp] at hnot
    obtain ⟨htu, hne⟩ := hnot
    obtain ⟨d, rfl⟩ := Nat.exists_eq_add_of_le htu
    refine ⟨t + d, ?_, Or.inr (Nat.lt_of_le_of_ne (hle t d) hne)⟩
    refine Nat.lt_of_le_of_ne htu fun heq => hne ?_
    rw [← heq]
  obtain ⟨t, -, ht⟩ := eventually_of_rank hfall 0
  exact ⟨t, ht⟩

end RowhammerTester.Hdl
