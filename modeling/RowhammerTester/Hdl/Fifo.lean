import RowhammerTester.Hdl.Machine

/-!
# First-in first-out queues with handshakes

* `Fifo α` : a clocked queue with a `valid`/`ready` handshake on both sides, and what a user may rely on;
* `window f m n` : the entries `m .. n - 1` of a stream, which a queue holds after `n` pushes and `m` pops
  (`window_step`, `Fifo.contents_step_window`);
* `Fifo.exists_valid` : a queue that is not empty offers its head after a while;
* `Fifo.DrainsWithin n` : read without a pause, the queue is empty after `n` cycles;
* `Fifo.fallThrough`, `Fifo.buffered` : a queue read directly from its memory, and one with an output register.
-/

namespace RowhammerTester.Hdl

/-! ## Windows of a stream -/

section Window
variable {α : Type} (f : Nat → α)

/-- The entries `m .. n - 1` of a stream. -/
def window (m n : Nat) : List α := (List.range' m (n - m)).map f

theorem window_push {m n : Nat} (h : m ≤ n) : window f m (n + 1) = window f m n ++ [f n] := by
  rw [window, window, Nat.succ_sub h, List.range'_concat, List.map_append, Nat.one_mul, Nat.add_sub_cancel' h]
  rfl

theorem window_pop {m n : Nat} (h : m < n) : window f m n = f m :: window f (m + 1) n := by
  rw [window, window, show n - m = n - (m + 1) + 1 by omega, List.range'_succ]
  rfl

theorem window_eq_nil {m n : Nat} : window f m n = [] ↔ n ≤ m := by
  rw [window, List.map_eq_nil_iff, List.range'_eq_nil_iff]
  omega

/-- A pop and a push in one cycle. -/
theorem window_step {m n : Nat} (hle : m ≤ n) {pop : Bool} (hpop : pop = true → m < n) (push : Bool) :
    (if pop then (window f m n).tail else window f m n) ++ (if push then [f n] else []) =
      window f (if pop then m + 1 else m) (if push then n + 1 else n) := by
  have hmid : (if pop then (window f m n).tail else window f m n) = window f (if pop then m + 1 else m) n := by
    cases pop with
    | false => rfl
    | true =>
      rw [if_pos rfl, if_pos rfl, window_pop f (hpop rfl)]
      rfl
  rw [hmid]
  cases push with
  | false => exact List.append_nil _
  | true =>
    refine (window_push f ?_).symm
    split
    · next hp => exact hpop hp
    · exact hle

end Window

/-! ## Queues -/

/-- A queue. `contents` is what it holds, the head first, and `lag` bounds how long the head takes to be offered. -/
structure Fifo (α : Type) where
  State : Type
  ready : State → Bool
  valid : State → Bool
  payload : State → α
  /-- One clock edge: `sinkValid`, the payload offered at the sink, `sourceReady`. -/
  step : State → Bool → α → Bool → State
  contents : State → List α
  depth : Nat
  lag : State → Nat
  depth_pos : 0 < depth
  ready_of_lt : ∀ q, (contents q).length < depth → ready q = true
  head_of_valid : ∀ q, valid q = true → (contents q).head? = some (payload q)
  contents_step : ∀ q v a r, contents (step q v a r) =
    (if valid q && r then (contents q).tail else contents q) ++ (if ready q && v then [a] else [])
  valid_step : ∀ q v a, valid q = true → valid (step q v a false) = true
  lag_step : ∀ q v a r, contents q ≠ [] → valid q = false → lag (step q v a r) < lag q

namespace Fifo
variable {α : Type} (F : Fifo α)

theorem ne_nil_of_valid {q : F.State} (h : F.valid q = true) : F.contents q ≠ [] := by
  intro hnil
  have := F.head_of_valid q h
  rw [hnil] at this
  cases this

theorem contents_of_valid {q : F.State} (h : F.valid q = true) :
    F.contents q = F.payload q :: (F.contents q).tail := by
  have hhead := F.head_of_valid q h
  cases hc : F.contents q with
  | nil => exact absurd hc (F.ne_nil_of_valid h)
  | cons x xs =>
    rw [hc] at hhead
    cases hhead
    rfl

/-- What a queue holds after an edge, when the sink offers the next entry of the stream. -/
theorem contents_step_window {f : Nat → α} {m n : Nat} {q : F.State} (hle : m ≤ n) (hq : F.contents q = window f m n)
    {v : Bool} {a : α} (ha : v = true → a = f n) (r : Bool) :
    F.contents (F.step q v a r) =
      window f (if F.valid q && r then m + 1 else m) (if F.ready q && v then n + 1 else n) := by
  have hpop : (F.valid q && r) = true → m < n := by
    intro h
    have hne := F.ne_nil_of_valid (Bool.and_eq_true_iff.mp h).1
    rw [hq, ne_eq, window_eq_nil] at hne
    omega
  have hpush : (if F.ready q && v then [a] else []) = if F.ready q && v then [f n] else [] := by
    split
    · next h => rw [ha (Bool.and_eq_true_iff.mp h).2]
    · rfl
  rw [F.contents_step, hq, hpush]
  exact window_step f hle hpop _

/-- A queue that offers its head offers the oldest entry. -/
theorem payload_of_window {f : Nat → α} {m n : Nat} {q : F.State} (hq : F.contents q = window f m n)
    (hv : F.valid q = true) : F.payload q = f m ∧ m < n := by
  have hne := F.ne_nil_of_valid hv
  rw [hq, ne_eq, window_eq_nil] at hne
  have hhead := F.head_of_valid q hv
  rw [hq, window_pop f (by omega)] at hhead
  exact ⟨(Option.some.inj hhead).symm, by omega⟩

/-- A queue that is not empty offers its head after a while. -/
theorem exists_valid {q : Nat → F.State} {v : Nat → Bool} {a : Nat → α} {r : Nat → Bool}
    (hq : ∀ t, q (t + 1) = F.step (q t) (v t) (a t) (r t)) {t : Nat} (hne : F.contents (q t) ≠ []) :
    ∃ u, t ≤ u ∧ F.valid (q u) = true := by
  induction hl : F.lag (q t) using Nat.strongRecOn generalizing t with
  | ind l ih =>
    cases hv : F.valid (q t) with
    | true => exact ⟨t, Nat.le_refl t, hv⟩
    | false =>
      have hlag := F.lag_step (q t) (v t) (a t) (r t) hne hv
      rw [← hq] at hlag
      have hne' : F.contents (q (t + 1)) ≠ [] := by
        rw [hq, F.contents_step, hv]
        intro h
        exact hne (List.append_eq_nil_iff.mp h).1
      obtain ⟨u, hu, hvu⟩ := ih _ (hl ▸ hlag) hne' rfl
      exact ⟨u, by omega, hvu⟩

/-! ## Draining -/

/-- The states that a queue reaches from an empty one. -/
inductive Reached : F.State → Prop
  | empty {q : F.State} (h : F.contents q = []) : Reached q
  | step {q : F.State} (h : Reached q) (v : Bool) (a : α) (r : Bool) : Reached (F.step q v a r)

/-- Read whenever it offers an entry and not written, the queue is empty after `n` cycles. -/
def DrainsWithin (n : Nat) : Prop :=
  ∀ (q : Nat → F.State) (a : Nat → α), F.Reached (q 0) →
    (∀ t < n, q (t + 1) = F.step (q t) false (a t) (F.valid (q t))) → F.contents (q n) = []

/-- An empty queue that is not written stays empty. -/
theorem contents_step_nil {q : F.State} (h : F.contents q = []) (a : α) (r : Bool) :
    F.contents (F.step q false a r) = [] := by
  rw [F.contents_step, h, Bool.and_false]
  simp

/-- Every later time is good as well. -/
theorem DrainsWithin.mono {F : Fifo α} {n m : Nat} (h : F.DrainsWithin n) (hnm : n ≤ m) : F.DrainsWithin m := by
  intro q a hq hstep
  obtain ⟨d, rfl⟩ := Nat.exists_eq_add_of_le hnm
  have hn : F.contents (q n) = [] := h q a hq fun t ht => hstep t (by omega)
  clear hnm
  induction d with
  | zero => exact hn
  | succ d ih =>
    rw [← Nat.add_assoc, hstep (n + d) (by omega)]
    exact F.contents_step_nil (ih fun t ht => hstep t (by omega)) _ _

/-! ## Two kinds of queues -/

section Kinds
variable [Inhabited α] (n : Nat)

/-- A queue of `n + 1` entries read directly from its memory. -/
def fallThrough : Fifo α where
  State := List α
  ready q := decide (q.length < n + 1)
  valid q := !q.isEmpty
  payload q := q.headD default
  step q v a r := (if !q.isEmpty && r then q.tail else q) ++ (if decide (q.length < n + 1) && v then [a] else [])
  contents q := q
  depth := n + 1
  lag _ := 0
  depth_pos := Nat.succ_pos n
  ready_of_lt q h := decide_eq_true h
  head_of_valid q h := by
    cases q with
    | nil => cases h
    | cons x q => rfl
  contents_step q v a r := rfl
  valid_step q v a h := by
    cases q with
    | nil => cases h
    | cons x q => simp
  lag_step q v a r hne hv := by
    cases q with
    | nil => exact absurd rfl hne
    | cons x q => cases hv

/-- A queue of `n + 1` entries and an output register, which is filled when it is free or being read. -/
def buffered : Fifo α where
  State := List α × Option α
  ready q := decide (q.1.length < n + 1)
  valid q := q.2.isSome
  payload q := q.2.getD default
  step q v a r :=
    ((if !q.1.isEmpty && (!q.2.isSome || r) then q.1.tail else q.1) ++
        (if decide (q.1.length < n + 1) && v then [a] else []),
      if !q.1.isEmpty && (!q.2.isSome || r) then q.1.head? else if r then none else q.2)
  contents q := q.2.toList ++ q.1
  depth := n + 1
  lag q := if q.2.isSome then 0 else 1
  depth_pos := Nat.succ_pos n
  ready_of_lt q h := by
    apply decide_eq_true
    rw [List.length_append] at h
    omega
  head_of_valid q h := by
    obtain ⟨xs, x⟩ := q
    cases x with
    | none => cases h
    | some x => rfl
  contents_step q v a r := by
    obtain ⟨xs, x⟩ := q
    cases x <;> cases xs <;> cases r <;> simp
  valid_step q v a h := by
    obtain ⟨xs, x⟩ := q
    cases x with
    | none => cases h
    | some x => simp
  lag_step q v a r hne hv := by
    obtain ⟨xs, x⟩ := q
    cases x with
    | some x => cases hv
    | none =>
      cases xs with
      | nil => exact absurd rfl hne
      | cons y xs => simp

/-- Its memory never holds more than `n + 1` entries. -/
theorem buffered_length_le {q : (buffered n : Fifo α).State} (h : (buffered n : Fifo α).Reached q) :
    q.1.length ≤ n + 1 := by
  induction h with
  | @empty q h =>
    have hnil : q.2.toList ++ q.1 = [] := h
    rw [(List.append_eq_nil_iff.mp hnil).2]
    exact Nat.zero_le _
  | @step q _ v a r ih =>
    obtain ⟨xs, x⟩ := q
    have hle : xs.length ≤ n + 1 := ih
    have hpop : (if !xs.isEmpty && (!x.isSome || r) then xs.tail else xs).length ≤ xs.length := by
      cases !xs.isEmpty && (!x.isSome || r) <;> simp
    have hpush : (if decide (xs.length < n + 1) && v then [a] else []).length ≤ n + 1 - xs.length := by
      by_cases hlt : xs.length < n + 1
      · cases v <;> simp [hlt]
        omega
      · simp [hlt]
    show (_ ++ _ : List α).length ≤ n + 1
    rw [List.length_append]
    exact Nat.le_trans (Nat.add_le_add hpop hpush) (Nat.le_of_eq (Nat.add_sub_cancel' hle))

/-- Read at once, the output register takes the next entry of the memory. -/
theorem buffered_step_read (xs : List α) (x : Option α) (a : α) :
    (buffered n : Fifo α).step (xs, x) false a ((buffered n : Fifo α).valid (xs, x)) = (xs.tail, xs.head?) := by
  cases x <;> cases xs <;> simp [buffered]

/-- The buffered queue moves one entry in every cycle. -/
theorem buffered_drainsWithin : (buffered n : Fifo α).DrainsWithin (n + 2) := by
  intro q a hq hstep
  have hread : ∀ t < n + 2, q (t + 1) = ((q t).1.tail, (q t).1.head?) := fun t ht =>
    (hstep t ht).trans (buffered_step_read n (q t).1 (q t).2 (a t))
  have hmem : ∀ t ≤ n + 1, (q t).1.length ≤ n + 1 - t := by
    intro t
    induction t with
    | zero => exact fun _ => buffered_length_le n hq
    | succ t ih =>
      intro ht
      have hprev := ih (by omega)
      rw [hread t (by omega), List.length_tail]
      omega
  have hnil : (q (n + 1)).1 = [] := by
    have := hmem (n + 1) (Nat.le_refl _)
    exact List.eq_nil_of_length_eq_zero (by omega)
  rw [hread (n + 1) (by omega), hnil]
  rfl

end Kinds

end Fifo

end RowhammerTester.Hdl
