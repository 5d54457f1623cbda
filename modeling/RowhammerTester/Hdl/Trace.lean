import Mathlib.Algebra.BigOperators.Group.List.Basic
import Mathlib.Data.List.Induction
import Mathlib.Algebra.GroupWithZero.Nat

/-!
# Traces of events that take time

Events happen one after the other, each taking `dur e` cycles.

* `duration dur es` : the cycles of a trace; `timed dur t es` : its events with their start times from `t` on;
* `Spaced dur P Q R es` : from every `P` event to the next `Q` event, start to start, the elapsed cycles satisfy `R`;
* `Watch dur P Q R since es` : the same checked from left to right, `since` being the cycles since the last `P` event
  that no `Q` event followed yet. `Watch` composes (`watch_append`) and decides `Spaced` (`spaced_iff_watch`);
* `Followed A B es` : every `A` event is directly followed by an event that `B` relates it to.
-/

namespace RowhammerTester.Hdl

section Timed
variable {ε : Type*} (dur : ε → Nat)

/-- The cycles a trace takes. -/
def duration (es : List ε) : Nat := (es.map dur).sum

@[simp] theorem duration_nil : duration dur [] = 0 := rfl

@[simp] theorem duration_cons (e : ε) (es : List ε) : duration dur (e :: es) = dur e + duration dur es := by
  simp [duration]

@[simp] theorem duration_append (xs ys : List ε) :
    duration dur (xs ++ ys) = duration dur xs + duration dur ys := by
  simp [duration]

/-- The events of a trace with their start times. -/
def timed : Nat → List ε → List (Nat × ε)
  | _, [] => []
  | t, e :: es => (t, e) :: timed (t + dur e) es

theorem le_of_mem_timed {es : List ε} : ∀ {t k : Nat} {e : ε}, (k, e) ∈ timed dur t es → t ≤ k := by
  induction es with
  | nil => intro t k e h; cases h
  | cons x es ih =>
    intro t k e h
    rcases List.mem_cons.mp h with h | h
    · cases h
      exact Nat.le_refl t
    · exact Nat.le_trans (Nat.le_add_right t (dur x)) (ih h)

/-- Every event of positive length starts before the trace ends. -/
theorem lt_of_mem_timed (hpos : ∀ e, 0 < dur e) {es : List ε} :
    ∀ {t k : Nat} {e : ε}, (k, e) ∈ timed dur t es → k < t + duration dur es := by
  induction es with
  | nil => intro t k e h; cases h
  | cons x es ih =>
    intro t k e h
    have hx := hpos x
    rcases List.mem_cons.mp h with h | h
    · cases h
      rw [duration_cons]
      omega
    · have := ih h
      rw [duration_cons]
      omega

end Timed

/-! ## Spacing -/

section Spaced
variable {ε : Type*} (dur : ε → Nat) (P Q : ε → Prop) (R : Nat → Prop)

/-- From the start of every `P` event to the start of the next `Q` event the elapsed cycles satisfy `R`. -/
def Spaced (es : List ε) : Prop :=
  ∀ pre e mid e' post, es = pre ++ e :: (mid ++ e' :: post) → P e → Q e' → (∀ x ∈ mid, ¬ Q x) →
    R (duration dur (e :: mid))

/-- Adjacent events decide a spacing. -/
theorem Spaced.adjacent {pre post : List ε} {e e' : ε} (h : Spaced dur P Q R (pre ++ e :: e' :: post)) (hp : P e)
    (hq : Q e') : R (dur e) := by
  have := h pre e [] e' post rfl hp hq (by simp)
  simpa using this

variable [DecidablePred P] [DecidablePred Q]

/-- The cycles since the last open `P` event, one event later. -/
def sinceNext (since : Option Nat) (e : ε) : Option Nat :=
  if P e then some (dur e) else if Q e then none else since.map (· + dur e)

/-- The cycles since the last open `P` event at the end of a trace. -/
def sinceAfter (since : Option Nat) (es : List ε) : Option Nat := es.foldl (sinceNext dur P Q) since

@[simp] theorem sinceAfter_nil (since : Option Nat) : sinceAfter dur P Q since [] = since := rfl

@[simp] theorem sinceAfter_cons (since : Option Nat) (e : ε) (es : List ε) :
    sinceAfter dur P Q since (e :: es) = sinceAfter dur P Q (sinceNext dur P Q since e) es := rfl

theorem sinceAfter_append (since : Option Nat) (xs ys : List ε) :
    sinceAfter dur P Q since (xs ++ ys) = sinceAfter dur P Q (sinceAfter dur P Q since xs) ys :=
  List.foldl_append

/-- Check the spacing from left to right. -/
def Watch : Option Nat → List ε → Prop
  | _, [] => True
  | since, e :: es => (Q e → ∀ n ∈ since, R n) ∧ Watch (sinceNext dur P Q since e) es

@[simp] theorem watch_nil (since : Option Nat) : Watch dur P Q R since [] := trivial

@[simp] theorem watch_cons (since : Option Nat) (e : ε) (es : List ε) :
    Watch dur P Q R since (e :: es) ↔
      (Q e → ∀ n ∈ since, R n) ∧ Watch dur P Q R (sinceNext dur P Q since e) es := Iff.rfl

theorem watch_append (since : Option Nat) (xs ys : List ε) :
    Watch dur P Q R since (xs ++ ys) ↔
      Watch dur P Q R since xs ∧ Watch dur P Q R (sinceAfter dur P Q since xs) ys := by
  induction xs generalizing since with
  | nil => simp
  | cons x xs ih => simp [ih, and_assoc]

/-- Between the `P` event and the next `Q` event the watch has counted at most the elapsed cycles, and exactly those if
no further `P` event came in between. -/
theorem sinceAfter_open {mid : List ε} (hmid : ∀ x ∈ mid, ¬ Q x) : ∀ n : Nat,
    ∃ m, sinceAfter dur P Q (some n) mid = some m ∧ m ≤ n + duration dur mid ∧
      ((∀ x ∈ mid, ¬ P x) → m = n + duration dur mid) := by
  induction mid with
  | nil => intro n; exact ⟨n, rfl, by simp, by simp⟩
  | cons x mid ih =>
    intro n
    have hx := hmid x (List.mem_cons_self ..)
    have hrest := ih (fun y hy => hmid y (List.mem_cons_of_mem _ hy))
    by_cases hp : P x
    · obtain ⟨m, h1, h2, -⟩ := hrest (dur x)
      refine ⟨m, ?_, ?_, fun h => absurd hp (h x (List.mem_cons_self ..))⟩
      · rw [sinceAfter_cons, sinceNext, if_pos hp, h1]
      · rw [duration_cons]
        omega
    · obtain ⟨m, h1, h2, h3⟩ := hrest (n + dur x)
      refine ⟨m, ?_, ?_, fun h => ?_⟩
      · rw [sinceAfter_cons, sinceNext, if_neg hp, if_neg hx]
        exact h1
      · rw [duration_cons]
        omega
      · rw [duration_cons, h3 (fun y hy => h y (List.mem_cons_of_mem _ hy))]
        omega

theorem sinceNext_of_pos {e : ε} (h : P e) (since : Option Nat) : sinceNext dur P Q since e = some (dur e) := if_pos h

theorem sinceNext_of_neg {e : ε} (h : ¬ P e) (h' : ¬ Q e) (since : Option Nat) :
    sinceNext dur P Q since e = since.map (· + dur e) := by
  rw [sinceNext, if_neg h, if_neg h']

/-- What the watch has counted is the time since a `P` event that no `Q` event followed. -/
theorem sinceAfter_eq_some : ∀ {es : List ε} {n : Nat}, sinceAfter dur P Q none es = some n →
    ∃ pre e mid, es = pre ++ e :: mid ∧ P e ∧ (∀ x ∈ mid, ¬ Q x) ∧ n = duration dur (e :: mid) := by
  intro es
  induction es using List.reverseRecOn with
  | nil => intro n h; cases h
  | append_singleton es x ih =>
    intro n h
    rw [sinceAfter_append, sinceAfter_cons, sinceAfter_nil, sinceNext] at h
    split at h
    · next hp =>
      cases h
      exact ⟨es, x, [], by simp, hp, by simp, by simp⟩
    · split at h
      · cases h
      · next hq =>
        rw [Option.map_eq_some_iff] at h
        obtain ⟨m, hm, rfl⟩ := h
        obtain ⟨pre, e, mid, rfl, hp, hmid, rfl⟩ := ih hm
        refine ⟨pre, e, mid ++ [x], by simp, hp, ?_, ?_⟩
        · intro y hy
          rcases List.mem_append.mp hy with hy | hy
          · exact hmid y hy
          · rw [List.mem_singleton.mp hy]
            exact hq
        · simp
          omega

theorem watch_iff : ∀ {es : List ε} {since : Option Nat}, Watch dur P Q R since es ↔
    ∀ pre e' post, es = pre ++ e' :: post → Q e' → ∀ n ∈ sinceAfter dur P Q since pre, R n := by
  intro es
  induction es with
  | nil => intro since; simp
  | cons x es ih =>
    intro since
    rw [watch_cons, ih]
    constructor
    · rintro ⟨hx, hrest⟩ pre e' post heq hq
      cases pre with
      | nil =>
        cases heq
        exact hx hq
      | cons y pre =>
        cases heq
        exact hrest pre e' post rfl hq
    · intro h
      exact ⟨fun hq => h [] x es rfl hq, fun pre e' post heq => h (x :: pre) e' post (by rw [heq]; rfl)⟩

/-- The watch decides the spacing, for a lower bound and for bounds between `P` events that close each other. -/
theorem spaced_iff_watch (hR : (∀ a b, a ≤ b → R a → R b) ∨ ∀ e, P e → Q e) {es : List ε} :
    Spaced dur P Q R es ↔ Watch dur P Q R none es := by
  rw [watch_iff]
  constructor
  · rintro h pre e' post rfl hq n hn
    obtain ⟨pre, e, mid, rfl, hp, hmid, rfl⟩ := sinceAfter_eq_some dur P Q hn
    exact h pre e mid e' post (by simp) hp hq hmid
  · rintro h pre e mid e' post rfl hp hq hmid
    obtain ⟨m, hm, hle, heq⟩ := sinceAfter_open dur P Q hmid (dur e)
    have hsince : sinceAfter dur P Q none (pre ++ e :: mid) = some m := by
      rw [sinceAfter_append, sinceAfter_cons, sinceNext, if_pos hp, hm]
    have hRm : R m := h (pre ++ e :: mid) e' post (by simp) hq m hsince
    rw [duration_cons]
    rcases hR with hmono | hpq
    · exact hmono m _ hle hRm
    · rw [← heq (fun x hx hpx => hmid x hx (hpq x hpx))]
      exact hRm

theorem watch_map {α : Type*} (f : α → ε) : ∀ {es : List α} {since : Option Nat},
    Watch dur P Q R since (es.map f) ↔
      Watch (fun x => dur (f x)) (fun x => P (f x)) (fun x => Q (f x)) R since es := by
  intro es
  induction es with
  | nil => intro since; simp
  | cons x es ih =>
    intro since
    rw [List.map_cons, watch_cons, watch_cons, ih]
    rfl

/-- Events that are long enough by themselves keep a lower bound. -/
theorem watch_of_forall (hmono : ∀ a b, a ≤ b → R a → R b) : ∀ {es : List ε} {since : Option Nat},
    (∀ e ∈ es, P e → R (dur e)) → (∀ n ∈ since, R n) →
    Watch dur P Q R since es ∧ ∀ n ∈ sinceAfter dur P Q since es, R n := by
  intro es
  induction es with
  | nil => intro since _ hs; exact ⟨trivial, hs⟩
  | cons x es ih =>
    intro since hes hs
    have hnext : ∀ n ∈ sinceNext dur P Q since x, R n := by
      intro n hn
      unfold sinceNext at hn
      split at hn
      · next hp =>
        cases hn
        exact hes x (List.mem_cons_self ..) hp
      · split at hn
        · cases hn
        · obtain ⟨m, hm, rfl⟩ := Option.map_eq_some_iff.mp hn
          exact hmono m _ (Nat.le_add_right _ _) (hs m hm)
    obtain ⟨hw, ha⟩ := ih (fun e he => hes e (List.mem_cons_of_mem _ he)) hnext
    exact ⟨⟨fun _ => hs, hw⟩, ha⟩

/-- A trace of blocks, each of which is entered at `σ₁` by the next one: if the first block holds when `X` holds and
every later one when `L` and `X` hold, then `X` decides each block and `L` whether there may be a second one. -/
theorem watch_flatten {σ₁ : Option Nat} {X : List ε → Prop} {L : Prop} : ∀ {bs : List (List ε)} {σ₀ : Option Nat}
    {M : Prop}, (∀ b ∈ bs, Watch dur P Q R σ₀ b ↔ M ∧ X b) → (∀ b ∈ bs, Watch dur P Q R σ₁ b ↔ L ∧ X b) →
    (∀ b ∈ bs, sinceAfter dur P Q σ₀ b = σ₁) → (∀ b ∈ bs, sinceAfter dur P Q σ₁ b = σ₁) →
    (Watch dur P Q R σ₀ bs.flatten ↔ (1 ≤ bs.length → M) ∧ (∀ b ∈ bs, X b) ∧ (2 ≤ bs.length → L)) := by
  intro bs
  induction bs with
  | nil => intro σ₀ M _ _ _ _; simp
  | cons b bs ih =>
    intro σ₀ M h₀ h₁ hs₀ hs₁
    have hb := List.mem_cons_self (a := b) (l := bs)
    have htail := ih (fun b' h => h₁ b' (List.mem_cons_of_mem _ h)) (fun b' h => h₁ b' (List.mem_cons_of_mem _ h))
      (fun b' h => hs₁ b' (List.mem_cons_of_mem _ h)) (fun b' h => hs₁ b' (List.mem_cons_of_mem _ h))
    rw [List.flatten_cons, watch_append, hs₀ b hb, h₀ b hb, htail]
    simp only [List.length_cons, List.forall_mem_cons]
    constructor
    · rintro ⟨⟨hM, hX⟩, hL, hXs, -⟩
      exact ⟨fun _ => hM, ⟨hX, hXs⟩, fun h => hL (by omega)⟩
    · rintro ⟨hM, ⟨hX, hXs⟩, hL⟩
      exact ⟨⟨hM (by omega), hX⟩, fun h => hL (by omega), hXs, fun h => hL (by omega)⟩

/-- A trace of blocks that each start with a check and are left at `out b`, closed by a last check. -/
theorem watch_chain {out : List ε → Nat} {tail : List ε} (htail : ∀ σ, Watch dur P Q R σ tail ↔ ∀ n ∈ σ, R n) :
    ∀ {bs : List (List ε)} {σ : Option Nat}, (∀ b ∈ bs, ∀ σ, Watch dur P Q R σ b ↔ ∀ n ∈ σ, R n) →
    (∀ b ∈ bs, ∀ σ, sinceAfter dur P Q σ b = some (out b)) →
    (Watch dur P Q R σ (bs.flatten ++ tail) ↔ (∀ n ∈ σ, R n) ∧ ∀ b ∈ bs, R (out b)) := by
  intro bs
  induction bs with
  | nil => intro σ _ _; simpa using htail σ
  | cons b bs ih =>
    intro σ hw hs
    have hb := List.mem_cons_self (a := b) (l := bs)
    rw [List.flatten_cons, List.append_assoc, watch_append, hw b hb, hs b hb,
      ih (fun b' h => hw b' (List.mem_cons_of_mem _ h)) (fun b' h => hs b' (List.mem_cons_of_mem _ h)),
      List.forall_mem_cons]
    simp

end Spaced

/-! ## Direct successors -/

section Followed
variable {ε : Type*} {A : ε → Prop} {B : ε → ε → Prop}

/-- Every `A` event is directly followed by an event that `B` relates it to. -/
def Followed (A : ε → Prop) (B : ε → ε → Prop) (es : List ε) : Prop :=
  ∀ pre e post, es = pre ++ e :: post → A e → ∃ e' post', post = e' :: post' ∧ B e e'

theorem followed_nil : Followed A B [] := by
  rintro pre e post h -
  simp at h

theorem followed_of_not {e : ε} (h : ¬ A e) : Followed A B [e] := by
  intro pre x post heq hx
  rw [List.singleton_eq_append_iff] at heq
  rcases heq with ⟨-, heq⟩ | ⟨-, heq⟩
  · cases heq
    exact absurd hx h
  · cases heq

theorem followed_pair {e e' : ε} (h : B e e') (h' : ¬ A e') : Followed A B [e, e'] := by
  intro pre x post heq hx
  rcases pre with _ | ⟨y, pre⟩
  · cases heq
    exact ⟨e', [], rfl, h⟩
  · rw [List.cons_append, List.cons.injEq] at heq
    obtain ⟨-, heq⟩ := heq
    have hxe : x ∈ [e'] := heq ▸ List.mem_append_right pre (List.mem_cons_self ..)
    rw [List.mem_singleton.mp hxe] at hx
    exact absurd hx h'

theorem followed_append {xs ys : List ε} (hx : Followed A B xs) (hy : Followed A B ys) : Followed A B (xs ++ ys) := by
  intro pre e post heq he
  rcases List.append_eq_append_iff.mp heq with ⟨as, rfl, hys⟩ | ⟨bs, rfl, hpost⟩
  · exact hy as e post hys he
  · rcases bs with _ | ⟨b, bs⟩
    · exact hy [] e post (by simpa using hpost.symm) he
    · cases hpost
      obtain ⟨e', post', rfl, hB⟩ := hx pre e bs rfl he
      exact ⟨e', post' ++ ys, rfl, hB⟩

theorem followed_flatten {xss : List (List ε)} (h : ∀ xs ∈ xss, Followed A B xs) : Followed A B xss.flatten := by
  induction xss with
  | nil => exact followed_nil
  | cons xs xss ih =>
    rw [List.flatten_cons]
    exact followed_append (h xs (List.mem_cons_self ..)) (ih fun ys hy => h ys (List.mem_cons_of_mem _ hy))

end Followed

end RowhammerTester.Hdl
