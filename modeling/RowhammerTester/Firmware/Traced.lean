import Mathlib.Logic.Basic

/-!
# Programs with a trace

A program over a state that tells what it does: `Traced ε σ α` goes from a state to a result, the next state and the
events in between.

* `result`, `final`, `events` : the three parts of a run, with their lemmas for `pure`, `bind`, `emit`, `get`, `modify`;
* `foldRange body b n` : the loop over the numbers below `n`;
* `Emits P Q p` : all events of `p` satisfy `P` and all results `Q`, with one rule for each construct.
-/

namespace RowhammerTester.Firmware

/-- A program with state `σ` and events `ε`. -/
def Traced (ε σ α : Type) := σ → α × σ × List ε

namespace Traced
variable {ε σ α β : Type}

/-- What the program returns. -/
def result (p : Traced ε σ α) (s : σ) : α := (p s).1

/-- The state in which it ends. -/
def final (p : Traced ε σ α) (s : σ) : σ := (p s).2.1

/-- What it has done, in order. -/
def events (p : Traced ε σ α) (s : σ) : List ε := (p s).2.2

instance : Monad (Traced ε σ) where
  pure a := fun s => (a, s, [])
  bind p f := fun s => ((f (p.result s)).result (p.final s), (f (p.result s)).final (p.final s),
    p.events s ++ (f (p.result s)).events (p.final s))

def emit (e : ε) : Traced ε σ Unit := fun s => ((), s, [e])

def get : Traced ε σ σ := fun s => (s, s, [])

def modify (f : σ → σ) : Traced ε σ Unit := fun s => ((), f s, [])

/-- The loop over the numbers below `n`, with a variable that starts as `b`. -/
def foldRange (body : Nat → β → Traced ε σ β) (b : β) : Nat → Traced ε σ β
  | 0 => pure b
  | n + 1 => do
    let b ← foldRange body b n
    body n b

variable (p : Traced ε σ α) (f : α → Traced ε σ β) (s : σ)

@[simp] theorem result_pure (a : α) : (pure a : Traced ε σ α).result s = a := (rfl)

@[simp] theorem final_pure (a : α) : (pure a : Traced ε σ α).final s = s := (rfl)

@[simp] theorem result_bind : (p >>= f).result s = (f (p.result s)).result (p.final s) := (rfl)

@[simp] theorem final_bind : (p >>= f).final s = (f (p.result s)).final (p.final s) := (rfl)

@[simp] theorem events_bind : (p >>= f).events s = p.events s ++ (f (p.result s)).events (p.final s) := (rfl)

@[simp] theorem final_emit (e : ε) : (emit e : Traced ε σ Unit).final s = s := (rfl)

@[simp] theorem result_get : (get : Traced ε σ σ).result s = s := (rfl)

@[simp] theorem final_get : (get : Traced ε σ σ).final s = s := (rfl)

@[simp] theorem events_get : (get : Traced ε σ σ).events s = [] := (rfl)

@[simp] theorem final_modify (g : σ → σ) : (modify g : Traced ε σ Unit).final s = g s := (rfl)

/-- Not an instance: `simp` would turn the binds of the rules into maps. -/
theorem lawfulMonad : LawfulMonad (Traced ε σ) := LawfulMonad.mk' _
  (fun p => by
    funext s
    change (p.result s, p.final s, p.events s ++ []) = p s
    rw [List.append_nil]
    rfl)
  (fun _ _ => rfl)
  (fun p f g => by
    funext s
    change ((p >>= f >>= g).result s, (p >>= f >>= g).final s, (p >>= f >>= g).events s) = _
    rw [events_bind, events_bind, List.append_assoc]
    rfl)

/-! ## Rules for the events -/

/-- All events satisfy `P`, all results `Q`. -/
def Emits (P : ε → Prop) (Q : α → Prop) (p : Traced ε σ α) : Prop := ∀ s, (∀ e ∈ p.events s, P e) ∧ Q (p.result s)

namespace Emits
variable {P : ε → Prop} {Q Q' : α → Prop} {R : β → Prop} {p : Traced ε σ α} {f : α → Traced ε σ β}

theorem mono (h : Emits P Q p) (hQ : ∀ a, Q a → Q' a) : Emits P Q' p := by
  intro s
  exact ⟨(h s).1, hQ _ (h s).2⟩

theorem pure {a : α} (h : Q a) : Emits P Q (Pure.pure a : Traced ε σ α) := by
  intro s
  exact ⟨fun e he => absurd he List.not_mem_nil, h⟩

theorem bind (hp : Emits P Q p) (hf : ∀ a, Q a → Emits P R (f a)) : Emits P R (p >>= f) := by
  intro s
  obtain ⟨hevents, hresult⟩ := hp s
  obtain ⟨hevents', hresult'⟩ := hf _ hresult (p.final s)
  refine ⟨?_, hresult'⟩
  intro e he
  rw [events_bind, List.mem_append] at he
  exact he.elim (hevents e) (hevents' e)

theorem emit {e : ε} (h : P e) : Emits P (fun _ => True) (Traced.emit e : Traced ε σ Unit) := by
  intro s
  refine ⟨?_, trivial⟩
  intro e' he'
  rw [List.mem_singleton.mp he']
  exact h

theorem modify (g : σ → σ) : Emits P (fun _ => True) (Traced.modify g : Traced ε σ Unit) := by
  intro s
  exact ⟨fun e he => absurd he List.not_mem_nil, trivial⟩

theorem foldRange {body : Nat → β → Traced ε σ β} {b : β} {n : Nat}
    (h : ∀ i < n, ∀ b, Emits P (fun _ => True) (body i b)) : Emits P (fun _ => True) (Traced.foldRange body b n) := by
  induction n with
  | zero => exact Emits.pure trivial
  | succ n ih => exact (ih fun i hi => h i (Nat.lt_succ_of_lt hi)).bind fun b _ => h n (Nat.lt_succ_self n) b

end Emits

end Traced

end RowhammerTester.Firmware
