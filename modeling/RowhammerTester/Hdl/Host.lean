import Mathlib.Order.WellFounded
import RowhammerTester.Hdl.Machine

/-!
# Sequential programs beside a clocked device

A program accesses the registers of a device one after the other, while the device goes on at every clock edge.

* `Host A R E α` : a program of accesses `A` answered by `R`, which returns an `α` or fails with an `E`; `Host.loop` :
  an endless loop that the body leaves, cut off after a number of rounds; `Host.map` : a program that returns less
  (`Host.loop_map`);
* `Device` : one clock edge, with or without an access, and what an access reads;
* `At`, `later` : the device at a time, and the same some edges later without an access;
* `runHost` : a program beside a device, `env` being what the device sees and `wait` how long the program takes
  (`Fails`); `accesses` : its accesses with their times (`Timed`);
* `Shadow R` : accesses that do not matter to the rest of the device, `R` relating it to the device left alone;
* `Preserves I p` : `p` keeps `I`, whether it returns or fails;
* `Triple P p Q` : from every `P`, with enough rounds, `p` returns and `Q` holds (`Triple.bind`, `Triple.loop`; for
  accesses that have to be in time, `Triple.timed_bind`);
* `Raises P p e Q` : from every `P`, with enough rounds, `p` fails with `e` and `Q` holds.
-/

namespace RowhammerTester.Hdl

/-! ## Programs -/

/-- A program of accesses. -/
inductive Host (A R E α : Type) : Type where
  | done (a : α)
  | fail (e : E)
  | access (a : A) (k : R → Host A R E α)

namespace Host
variable {A R E α β S : Type}

/-- The one program after the other. -/
def bind : Host A R E α → (α → Host A R E β) → Host A R E β
  | .done a, f => f a
  | .fail e, _ => .fail e
  | .access a k, f => .access a fun r => (k r).bind f

instance : Monad (Host A R E) where
  pure := .done
  bind := Host.bind

/-- Fail unless `c` holds. -/
def check (c : Prop) [Decidable c] (e : E) : Host A R E Unit := if c then .done () else .fail e

/-- Repeat `body` until it leaves the loop with `inr`; after `n` rounds fail with `e`. -/
def loop (e : E) (body : S → Host A R E (S ⊕ β)) : Nat → S → Host A R E β
  | 0, _ => .fail e
  | n + 1, s => (body s).bind fun
    | .inl s' => loop e body n s'
    | .inr b => .done b

theorem bind_eq (p : Host A R E α) (f : α → Host A R E β) : p >>= f = p.bind f := rfl

/-- The program with `f` of what it returns. -/
def map (f : α → β) (p : Host A R E α) : Host A R E β := p.bind fun a => .done (f a)

section Map
variable {γ S' : Type}

theorem bind_map (p : Host A R E α) (f : α → β) (q : β → Host A R E γ) :
    (p.map f).bind q = p.bind fun a => q (f a) := by
  induction p with
  | done a => rfl
  | fail e => rfl
  | access a k ih => exact congrArg (Host.access a) (funext ih)

theorem map_bind (p : Host A R E α) (q : α → Host A R E β) (f : β → γ) :
    (p.bind q).map f = p.bind fun a => (q a).map f := by
  induction p with
  | done a => rfl
  | fail e => rfl
  | access a k ih => exact congrArg (Host.access a) (funext ih)

/-- Loops whose rounds do the same return the same. -/
theorem loop_map {e : E} {body : S → Host A R E (S ⊕ β)} {body' : S' → Host A R E (S' ⊕ γ)} {f : S → S'} {g : β → γ}
    (h : ∀ s, body' (f s) = (body s).map (Sum.map f g)) (n : Nat) (s : S) :
    loop e body' n (f s) = (loop e body n s).map g := by
  induction n generalizing s with
  | zero => rfl
  | succ n ih =>
    rw [loop, loop, h, bind_map, map_bind]
    congr 1
    ext r
    cases r with
    | inl s' => exact ih s'
    | inr b => rfl

end Map

end Host

/-! ## Devices -/

/-- A clocked device. An access takes place in one cycle: it reads the registers of this cycle and acts at its edge. -/
structure Device (σ ι A R : Type) where
  clock : σ → ι → Option A → σ
  answer : σ → A → R

/-- The registers of a device at a time. -/
structure At (σ : Type) where
  time : Nat
  device : σ

section Exec
variable {σ ι A R : Type} (dev : Device σ ι A R) (env : Nat → ι)

/-- The same `n` edges later, without an access. -/
def later (c : At σ) (n : Nat) : At σ :=
  ⟨c.time + n, run (fun s i => dev.clock s i none) c.device (fun k => env (c.time + k)) n⟩

/-- An edge with the access `a`. -/
def perform (c : At σ) (a : A) : At σ := ⟨c.time + 1, dev.clock c.device (env c.time) (some a)⟩

theorem later_later (c : At σ) (m n : Nat) : later dev env (later dev env c m) n = later dev env c (m + n) := by
  unfold later
  rw [run_add, Nat.add_assoc]
  simp only [Nat.add_assoc]

theorem later_succ_device (c : At σ) (n : Nat) :
    (later dev env c (n + 1)).device = dev.clock (later dev env c n).device (env (c.time + n)) none := rfl

/-- What an edge without an access keeps holds later. -/
theorem later_induction {P : σ → Prop} (hstep : ∀ s i, P s → P (dev.clock s i none)) {c : At σ} (h : P c.device)
    (n : Nat) :
    P (later dev env c n).device :=
  run_induction _ _ _ h (fun _ ht => hstep _ _ ht) n

/-- An access that does not act is an edge without one. -/
theorem perform_later {a : A} (ha : ∀ s i, dev.clock s i (some a) = dev.clock s i none) (c : At σ) (n : Nat) :
    perform dev env (later dev env c n) a = later dev env c (n + 1) := by
  unfold perform
  rw [ha]
  rfl

/-! ## Accesses that do not matter -/

/-- `R` relates the device to the same device left alone, whatever the accesses `P`. -/
structure Shadow (R : σ → σ → Prop) (P : A → Prop) : Prop where
  refl : ∀ s, R s s
  clock : ∀ s s' i, R s s' → R (dev.clock s i none) (dev.clock s' i none)
  access : ∀ s s' i a, P a → R s s' → R (dev.clock s i (some a)) (dev.clock s' i none)

/-- The device is related to what it was at `c₀`, left alone for `n` edges. -/
structure Follows (R : σ → σ → Prop) (c₀ : At σ) (n : Nat) (c : At σ) : Prop where
  time : c.time = c₀.time + n
  device : R c.device (later dev env c₀ n).device

section Shadow
variable {dev env} {R : σ → σ → Prop} {P : A → Prop} {c₀ c : At σ} {n : Nat}

theorem Shadow.follows_refl (h : Shadow dev R P) (c₀ : At σ) : Follows dev env R c₀ 0 c₀ := ⟨rfl, h.refl _⟩

theorem Follows.later (hf : Follows dev env R c₀ n c) (h : Shadow dev R P) (m : Nat) :
    Follows dev env R c₀ (n + m) (later dev env c m) := by
  refine ⟨?_, ?_⟩
  · rw [← Nat.add_assoc, ← hf.time]
    rfl
  · induction m with
    | zero => exact hf.device
    | succ m ih =>
      rw [later_succ_device, ← Nat.add_assoc, later_succ_device, hf.time, Nat.add_assoc]
      exact h.clock _ _ _ ih

/-- An access takes an edge like any other. -/
theorem Follows.perform (hf : Follows dev env R c₀ n c) (h : Shadow dev R P) {a : A} (ha : P a) :
    Follows dev env R c₀ (n + 1) (perform dev env c a) := by
  refine ⟨?_, ?_⟩
  · rw [← Nat.add_assoc, ← hf.time]
    rfl
  · rw [later_succ_device, ← hf.time]
    exact h.access _ _ _ _ ha hf.device

end Shadow

variable {E α β : Type} (wait : Nat → Nat)

/-- A program beside a device: at the time `t` it takes `wait t` cycles until the cycle of its next access. -/
def runHost : Host A R E α → At σ → Except E α × At σ
  | .done a, c => (.ok a, c)
  | .fail e, c => (.error e, c)
  | .access a k, c =>
    runHost (k (dev.answer (later dev env c (wait c.time)).device a))
      (perform dev env (later dev env c (wait c.time)) a)

theorem runHost_bind {p : Host A R E α} {f : α → Host A R E β} {c c' : At σ} {a : α}
    (h : runHost dev env wait p c = (.ok a, c')) :
    runHost dev env wait (p.bind f) c = runHost dev env wait (f a) c' := by
  induction p generalizing c with
  | done b =>
    cases h
    rfl
  | fail e => cases h
  | access b k ih => exact ih _ h

theorem runHost_map {p : Host A R E α} (f : α → β) {c c' : At σ} {a : α} (h : runHost dev env wait p c = (.ok a, c')) :
    runHost dev env wait (p.map f) c = (.ok (f a), c') := runHost_bind dev env wait h

/-- The accesses of a program, each with the time of its cycle. -/
def accesses : Host A R E α → At σ → List (Nat × A)
  | .done _, _ => []
  | .fail _, _ => []
  | .access a k, c =>
    (c.time + wait c.time, a) :: accesses (k (dev.answer (later dev env c (wait c.time)).device a))
      (perform dev env (later dev env c (wait c.time)) a)

theorem accesses_bind {p : Host A R E α} {f : α → Host A R E β} {c c' : At σ} {a : α}
    (h : runHost dev env wait p c = (.ok a, c')) :
    accesses dev env wait (p.bind f) c = accesses dev env wait p c ++ accesses dev env wait (f a) c' := by
  induction p generalizing c with
  | done b =>
    cases h
    rfl
  | fail e => cases h
  | access b k ih => exact congrArg (List.cons _) (ih _ h)

theorem accesses_isPrefix (p : Host A R E α) (f : α → Host A R E β) (c : At σ) :
    accesses dev env wait p c <+: accesses dev env wait (p.bind f) c := by
  induction p generalizing c with
  | done b => exact List.nil_prefix
  | fail e => exact List.nil_prefix
  | access b k ih => exact List.prefix_cons_inj _ |>.mpr (ih _ _)

/-- With enough rounds, `ok` holds of the times and accesses of the program. -/
def Timed (ok : Nat → A → Prop) (p : Nat → Host A R E α) (c : At σ) : Prop :=
  ∃ f, ∀ g, f ≤ g → ∀ t a, (t, a) ∈ accesses dev env wait (p g) c → ok t a

/-- The program does not return. -/
def Fails (p : Host A R E α) : Prop := ∀ c a c', runHost dev env wait p c ≠ (.ok a, c')

theorem Fails.fail (e : E) : Fails dev env wait (.fail e : Host A R E α) := fun _ _ _ => nofun

variable {dev env wait} in
/-- A program does not return if what follows its first part does not. -/
theorem Fails.bind (p : Host A R E α) {f : α → Host A R E β} (h : ∀ a, Fails dev env wait (f a)) :
    Fails dev env wait (p.bind f) := by
  induction p with
  | done a => exact h a
  | fail e => exact Fails.fail dev env wait e
  | access a k ih => exact fun c => ih _ _

theorem runHost_bind_error {p : Host A R E α} {f : α → Host A R E β} {c c' : At σ} {e : E}
    (h : runHost dev env wait p c = (.error e, c')) : runHost dev env wait (p.bind f) c = (.error e, c') := by
  induction p generalizing c with
  | done b => cases h
  | fail e =>
    cases h
    rfl
  | access b k ih => exact ih _ h

/-! ## What is kept -/

/-- The program keeps `I`, whether it returns or fails. -/
def Preserves (I : σ → Prop) (p : Host A R E α) : Prop := ∀ c, I c.device → I (runHost dev env wait p c).2.device

namespace Preserves
variable {dev env wait} {I : σ → Prop}

theorem done (a : α) : Preserves dev env wait I (.done a : Host A R E α) := fun _ hc => hc

theorem fail (e : E) : Preserves dev env wait I (.fail e : Host A R E α) := fun _ hc => hc

theorem bind {p : Host A R E α} {f : α → Host A R E β} (hp : Preserves dev env wait I p)
    (hf : ∀ a, Preserves dev env wait I (f a)) : Preserves dev env wait I (p.bind f) := by
  intro c hc
  have hmid := hp c hc
  rcases hrun : runHost dev env wait p c with ⟨r, c'⟩
  rw [hrun] at hmid
  cases r with
  | ok a =>
    rw [runHost_bind dev env wait hrun]
    exact hf a c' hmid
  | error e =>
    rw [runHost_bind_error dev env wait hrun]
    exact hmid

/-- A program that does not return fails. -/
theorem exists_error {p : Host A R E α} (hp : Preserves dev env wait I p) (h : Fails dev env wait p) {c : At σ}
    (hc : I c.device) : ∃ e c', runHost dev env wait p c = (.error e, c') ∧ I c'.device := by
  have hkept := hp c hc
  rcases hrun : runHost dev env wait p c with ⟨r, c'⟩
  rw [hrun] at hkept
  cases r with
  | ok a => exact absurd hrun (h c a c')
  | error e => exact ⟨e, c', rfl, hkept⟩

end Preserves

/-! ## Triples -/

/-- From every `P`, with enough rounds for its loops, `p` returns and `Q` holds. -/
def Triple (P : At σ → Prop) (p : Nat → Host A R E α) (Q : α → At σ → Prop) : Prop :=
  ∀ c, P c → ∃ f a c', (∀ g, f ≤ g → runHost dev env wait (p g) c = (.ok a, c')) ∧ Q a c'

namespace Triple
variable {dev env wait} {P P' : At σ → Prop} {Q Q' : α → At σ → Prop} {p : Nat → Host A R E α}

theorem conseq (h : Triple dev env wait P p Q) (hP : ∀ c, P' c → P c) (hQ : ∀ a c, Q a c → Q' a c) :
    Triple dev env wait P' p Q' := by
  intro c hc
  obtain ⟨f, a, c', hexec, hq⟩ := h c (hP c hc)
  exact ⟨f, a, c', hexec, hQ a c' hq⟩

theorem weaken {R : At σ → Prop} (h : Triple dev env wait P p Q) : Triple dev env wait (fun c => P c ∧ R c) p Q :=
  h.conseq (fun _ hc => hc.1) fun _ _ hQ => hQ

/-- A precondition is proved for every configuration that meets it. -/
theorem of_forall (h : ∀ c₀, P c₀ → Triple dev env wait (fun c => c = c₀) p Q) : Triple dev env wait P p Q :=
  fun c hc => h c hc c rfl

theorem lift {φ : Prop} (h : φ → Triple dev env wait P p Q) : Triple dev env wait (fun c => φ ∧ P c) p Q :=
  fun c hc => h hc.1 c hc.2

theorem ex {γ : Type} {P : γ → At σ → Prop} (h : ∀ x, Triple dev env wait (P x) p Q) :
    Triple dev env wait (fun c => ∃ x, P x c) p Q := by
  rintro c ⟨x, hc⟩
  exact h x c hc

theorem at_of {c₀ : At σ} (hc : P c₀) (h : Triple dev env wait P p Q) : Triple dev env wait (fun c => c = c₀) p Q := by
  rintro c rfl
  exact h c hc

theorem done (a : α) (h : ∀ c, P c → Q a c) : Triple dev env wait P (fun _ => (.done a : Host A R E α)) Q :=
  fun c hc => ⟨0, a, c, fun _ _ => rfl, h c hc⟩

theorem bind {T : β → At σ → Prop} {q : α → Nat → Host A R E β} (hp : Triple dev env wait P p Q)
    (hq : ∀ a, Triple dev env wait (Q a) (q a) T) :
    Triple dev env wait P (fun g => (p g).bind fun a => q a g) T := by
  intro c hc
  obtain ⟨f, a, c', hexec, hQ⟩ := hp c hc
  obtain ⟨f', b, c'', hexec', hT⟩ := hq a c' hQ
  refine ⟨max f f', b, c'', fun g hg => ?_, hT⟩
  rw [runHost_bind dev env wait (hexec g (by omega))]
  exact hexec' g (by omega)

/-- One program after the other, whose accesses have to be in time. -/
theorem timed_bind {ok : Nat → A → Prop} {T : β → At σ → Prop} {q : α → Nat → Host A R E β}
    (hp : Triple dev env wait (fun c => P c ∧ Timed dev env wait ok p c) p Q)
    (hq : ∀ a, Triple dev env wait (fun c => Q a c ∧ Timed dev env wait ok (q a) c) (q a) T) :
    Triple dev env wait (fun c => P c ∧ Timed dev env wait ok (fun g => (p g).bind fun a => q a g) c)
      (fun g => (p g).bind fun a => q a g) T := by
  intro c hc
  obtain ⟨hP, n, htimed⟩ := hc
  have hleft : Timed dev env wait ok p c :=
    ⟨n, fun g hg t a h => htimed g hg t a ((accesses_isPrefix dev env wait (p g) (fun a => q a g) c).subset h)⟩
  obtain ⟨f, a, c', hexec, hQ⟩ := hp c ⟨hP, hleft⟩
  have hright : Timed dev env wait ok (q a) c' := by
    refine ⟨max n f, fun g hg t b h => htimed g (by omega) t b ?_⟩
    rw [accesses_bind dev env wait (hexec g (by omega))]
    exact List.mem_append_right _ h
  obtain ⟨f', b, c'', hexec', hT⟩ := hq a c' ⟨hQ, hright⟩
  refine ⟨max f f', b, c'', fun g hg => ?_, hT⟩
  rw [runHost_bind dev env wait (hexec g (by omega))]
  exact hexec' g (by omega)

/-- An access of the program. -/
theorem access (a : A) {k : R → Nat → Host A R E α}
    (h : ∀ c, P c → Triple dev env wait (fun c' => c' = perform dev env (later dev env c (wait c.time)) a)
      (k (dev.answer (later dev env c (wait c.time)).device a)) Q) :
    Triple dev env wait P (fun g => .access a fun r => k r g) Q := by
  intro c hc
  exact h c hc _ rfl

theorem check {c : Prop} [Decidable c] {e : E} (h : c) {Q : At σ → Prop} :
    Triple dev env wait Q (fun _ => (Host.check c e : Host A R E Unit)) (fun _ => Q) := by
  rw [Host.check, if_pos h]
  exact done () fun _ hc => hc

theorem ite_pos {c : Prop} [Decidable c] (hc : c) {q : Nat → Host A R E α} (h : Triple dev env wait P p Q) :
    Triple dev env wait P (fun g => if c then p g else q g) Q := by
  simpa only [if_pos hc] using h

theorem ite_neg {c : Prop} [Decidable c] (hc : ¬ c) {q : Nat → Host A R E α} (h : Triple dev env wait P p Q) :
    Triple dev env wait P (fun g => if c then q g else p g) Q := by
  simpa only [if_neg hc] using h

/-- A loop that carries a decreasing ghost `x` in its invariant. -/
theorem loop {S ω : Type} [Preorder ω] [WellFoundedLT ω] {e : E} {body : Nat → S → Host A R E (S ⊕ β)}
    {T : β → At σ → Prop} (I : ω → S → At σ → Prop)
    (h : ∀ x s, Triple dev env wait (I x s) (fun g => body g s) fun r c => match r with
      | .inl s' => ∃ y, y < x ∧ I y s' c
      | .inr b => T b c)
    (x : ω) (s : S) : Triple dev env wait (I x s) (fun g => Host.loop e (body g) g s) T := by
  -- the rounds that are left and the rounds of the loops inside the body are two numbers
  have hrounds : ∀ x s c, I x s c → ∃ f b c', (∀ g n, f ≤ g → f ≤ n →
      runHost dev env wait (Host.loop e (body g) n s) c = (.ok b, c')) ∧ T b c' := by
    intro x
    induction x using WellFoundedLT.induction with
    | ind x ih =>
      intro s c hc
      obtain ⟨f, r, c', hexec, hr⟩ := h x s c hc
      cases r with
      | inr b =>
        refine ⟨f + 1, b, c', fun g n hg hn => ?_, hr⟩
        obtain ⟨n, rfl⟩ := Nat.exists_eq_add_of_le' (show 1 ≤ n by omega)
        rw [Host.loop, runHost_bind dev env wait (hexec g (by omega))]
        rfl
      | inl s' =>
        obtain ⟨y, hy, hI⟩ := hr
        obtain ⟨f', b, c'', hexec', hT⟩ := ih y hy s' c' hI
        refine ⟨max f f' + 1, b, c'', fun g n hg hn => ?_, hT⟩
        obtain ⟨n, rfl⟩ := Nat.exists_eq_add_of_le' (show 1 ≤ n by omega)
        rw [Host.loop, runHost_bind dev env wait (hexec g (by omega))]
        exact hexec' g n (by omega) (by omega)
  intro c hc
  obtain ⟨f, b, c', hexec, hT⟩ := hrounds x s c hc
  exact ⟨f, b, c', fun g hg => hexec g g hg hg, hT⟩

end Triple

/-- From every `P`, with enough rounds for its loops, `p` fails with `e` and `Q` holds. -/
def Raises (P : At σ → Prop) (p : Nat → Host A R E α) (e : E) (Q : At σ → Prop) : Prop :=
  ∀ c, P c → ∃ f c', (∀ g, f ≤ g → runHost dev env wait (p g) c = (.error e, c')) ∧ Q c'

namespace Raises
variable {dev env wait} {P Q : At σ → Prop} {e : E}

theorem fail : Raises dev env wait P (fun _ => (.fail e : Host A R E α)) e P := fun c hc => ⟨0, c, fun _ _ => rfl, hc⟩

/-- What follows a failure is not reached. -/
theorem left {p : Nat → Host A R E α} {q : Nat → α → Host A R E β} (h : Raises dev env wait P p e Q) :
    Raises dev env wait P (fun g => (p g).bind (q g)) e Q := by
  intro c hc
  obtain ⟨f, c', hexec, hQ⟩ := h c hc
  exact ⟨f, c', fun g hg => runHost_bind_error dev env wait (hexec g hg), hQ⟩

theorem bind {p : Nat → Host A R E α} {q : α → Nat → Host A R E β} {Q' : α → At σ → Prop}
    (hp : Triple dev env wait P p Q') (hq : ∀ a, Raises dev env wait (Q' a) (q a) e Q) :
    Raises dev env wait P (fun g => (p g).bind fun a => q a g) e Q := by
  intro c hc
  obtain ⟨f, a, c', hexec, hQ'⟩ := hp c hc
  obtain ⟨f', c'', hexec', hQ⟩ := hq a c' hQ'
  refine ⟨max f f', c'', fun g hg => ?_, hQ⟩
  rw [runHost_bind dev env wait (hexec g (by omega))]
  exact hexec' g (by omega)

/-- A loop whose first round fails. -/
theorem loop {S : Type} {e' : E} {body : Nat → S → Host A R E (S ⊕ β)} {s : S}
    (h : Raises dev env wait P (fun g => body g s) e Q) :
    Raises dev env wait P (fun g => Host.loop e' (body g) g s) e Q := by
  intro c hc
  obtain ⟨f, c', hexec, hQ⟩ := h c hc
  refine ⟨f + 1, c', fun g hg => ?_, hQ⟩
  obtain ⟨n, rfl⟩ := Nat.exists_eq_add_of_le' (show 1 ≤ g by omega)
  exact runHost_bind_error dev env wait (hexec (n + 1) (by omega))

end Raises

end Exec

end RowhammerTester.Hdl
