import RowhammerTester.Hdl.Host

/-!
# Parts of a device

A device that contains another one, and the programs of the part.

* `Host.lift` : a program of the part as one of the whole;
* `Host.Extends` : what more rounds make of a program;
* `Part` : under `I` the part `π` of the device is a device by itself;
* `Part.triple` : a program of the part does beside the device what it does beside the part.
-/

namespace RowhammerTester.Hdl

namespace Host
variable {A B R E α β S : Type}

/-- The same program; its accesses go through `f`. -/
def lift (f : A → B) : Host A R E α → Host B R E α
  | .done a => .done a
  | .fail e => .fail e
  | .access a k => .access (f a) fun r => lift f (k r)

/-! ## More rounds -/

/-- `q` is `p`, or goes on where `p` fails with `e`. -/
inductive Extends (e : E) : Host A R E α → Host A R E α → Prop where
  | refl (p) : Extends e p p
  | further (q) : Extends e (.fail e) q
  | access (a) {k k'} (h : ∀ r, Extends e (k r) (k' r)) : Extends e (.access a k) (.access a k')

namespace Extends
variable {e : E}

theorem bind {p q : Host A R E α} {f g : α → Host A R E β} (h : Extends e p q) (hf : ∀ a, Extends e (f a) (g a)) :
    Extends e (p.bind f) (q.bind g) := by
  induction h with
  | refl p =>
    induction p with
    | done a => exact hf a
    | fail e' => exact refl _
    | access a k ih => exact access a ih
  | further q => exact further _
  | access a _ ih => exact access a ih

theorem seq (p : Host A R E α) {f g : α → Host A R E β} (hf : ∀ a, Extends e (f a) (g a)) :
    Extends e (p.bind f) (p.bind g) := (refl p).bind hf

theorem loop {body body' : S → Host A R E (S ⊕ β)} (h : ∀ s, Extends e (body s) (body' s)) {m n : Nat} (hle : m ≤ n)
    (s : S) : Extends e (Host.loop e body m s) (Host.loop e body' n s) := by
  induction m generalizing n s with
  | zero => exact further _
  | succ m ih =>
    obtain ⟨n, rfl⟩ := Nat.exists_eq_add_of_le' (show 1 ≤ n by omega)
    apply (h s).bind
    intro r
    cases r with
    | inl s' => exact ih (by omega) s'
    | inr b => exact refl _

theorem lift (f : A → B) {p q : Host A R E α} (h : Extends e p q) : Extends e (p.lift f) (q.lift f) := by
  induction h with
  | refl p => exact refl _
  | further q => exact further _
  | access a _ ih => exact access (f a) ih

variable {σ ι : Type} (dev : Device σ ι A R) (env : Nat → ι) (wait : Nat → Nat)

/-- What returns does so with more rounds. -/
theorem runHost_eq {p q : Host A R E α} (h : Extends e p q) {c c' : At σ} {a : α}
    (hrun : runHost dev env wait p c = (.ok a, c')) : runHost dev env wait q c = (.ok a, c') := by
  induction h generalizing c with
  | refl p => exact hrun
  | further q => cases hrun
  | access _ _ ih => exact ih _ hrun

end Extends

end Host

/-! ## Parts -/

section Part
variable {σ τ ι κ A B R E α : Type}

/-- The part at the time. -/
def At.view (π : σ → τ) (c : At σ) : At τ := ⟨c.time, π c.device⟩

/-- As long as the accesses go through `f`, `I` is kept, and the part `π` goes its own way. -/
structure Part (dev : Device σ ι B R) (env : Nat → ι) (part : Device τ κ A R) (env' : Nat → κ) (π : σ → τ) (f : A → B)
    (I : σ → Prop) : Prop where
  keeps : ∀ s t (a : Option A), I s → I (dev.clock s (env t) (a.map f))
  clock : ∀ s t (a : Option A), I s → π (dev.clock s (env t) (a.map f)) = part.clock (π s) (env' t) a
  answer : ∀ s a, I s → dev.answer s (f a) = part.answer (π s) a

namespace Part
variable {dev : Device σ ι B R} {env : Nat → ι} {part : Device τ κ A R} {env' : Nat → κ} {π : σ → τ} {f : A → B}
  {I : σ → Prop} (h : Part dev env part env' π f I) {c : At σ}
include h

theorem later (hI : I c.device) (n : Nat) : I (later dev env c n).device ∧
    At.view π (Hdl.later dev env c n) = Hdl.later part env' (At.view π c) n := by
  induction n with
  | zero => exact ⟨hI, rfl⟩
  | succ n ih =>
    obtain ⟨hkept, hview⟩ := ih
    refine ⟨h.keeps _ _ none hkept, ?_⟩
    have hpart : π (Hdl.later dev env c n).device = (Hdl.later part env' (At.view π c) n).device :=
      congrArg At.device hview
    have hclock := h.clock _ (c.time + n) none hkept
    rw [hpart] at hclock
    exact congrArg (At.mk (c.time + (n + 1))) hclock

theorem perform (hI : I c.device) (a : A) : I (perform dev env c (f a)).device ∧
    At.view π (Hdl.perform dev env c (f a)) = Hdl.perform part env' (At.view π c) a :=
  ⟨h.keeps _ _ (some a) hI, congrArg (At.mk (c.time + 1)) (h.clock _ _ (some a) hI)⟩

variable (wait : Nat → Nat)

theorem runHost (p : Host A R E α) : ∀ {c : At σ}, I c.device → ∃ c', I c'.device ∧
    runHost dev env wait (p.lift f) c = ((Hdl.runHost part env' wait p (At.view π c)).1, c') ∧
      At.view π c' = (Hdl.runHost part env' wait p (At.view π c)).2 := by
  induction p with
  | done a => exact fun hI => ⟨_, hI, rfl, rfl⟩
  | fail e => exact fun hI => ⟨_, hI, rfl, rfl⟩
  | access a k ih =>
    intro c hI
    obtain ⟨hlater, hview⟩ := h.later hI (wait c.time)
    obtain ⟨hperform, hview'⟩ := h.perform hlater a
    rw [hview] at hview'
    have hpart : π (Hdl.later dev env c (wait c.time)).device =
        (Hdl.later part env' (At.view π c) (wait c.time)).device := congrArg At.device hview
    have hanswer := h.answer _ a hlater
    rw [hpart] at hanswer
    obtain ⟨c', hkept, hrun, hview''⟩ := ih _ hperform
    rw [hview'] at hrun hview''
    refine ⟨c', hkept, ?_, hview''⟩
    rw [Host.lift, Hdl.runHost, hanswer]
    exact hrun

/-- Whatever a program of the part does, `I` is kept. -/
theorem preserves (p : Host A R E α) : Preserves dev env wait I (p.lift f) := by
  intro c hI
  obtain ⟨c', hkept, hrun, -⟩ := h.runHost wait p hI
  rw [hrun]
  exact hkept

/-- **A program of the part.** It does beside the device what it does beside the part, if it only goes on further with
more rounds. -/
theorem triple {e : E} {P : At τ → Prop} {p : Nat → Host A R E α} {Q : α → At τ → Prop}
    (hp : ∀ m n, m ≤ n → Host.Extends e (p m) (p n)) (ht : Triple part env' wait P p Q) :
    Triple dev env wait (fun c => I c.device ∧ P (At.view π c)) (fun g => (p g).lift f) fun a c =>
      I c.device ∧ Q a (At.view π c) := by
  intro c hc
  obtain ⟨hI, hP⟩ := hc
  obtain ⟨n, a, c', hexec, hQ⟩ := ht _ hP
  obtain ⟨c₁, hkept, hrun, hview⟩ := h.runHost wait (p n) hI
  rw [hexec n (Nat.le_refl n)] at hrun hview
  obtain rfl : At.view π c₁ = c' := hview
  exact ⟨n, a, c₁, fun g hg => ((hp n g hg).lift f).runHost_eq dev env wait hrun, hkept, hQ⟩

end Part

end Part

end RowhammerTester.Hdl
