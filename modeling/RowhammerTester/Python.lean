import Mathlib.Data.Int.GCD

/-!
# Python exceptions and numbers

The scripts and the encoder fail by raising; a modelled function that can raise returns `Except PyError`.

* `check c e` : raise unless `c` holds; `ofOption e` : raise when there is no value; `bind_eq_ok`, `check_eq_ok` : what
  a computation that did not raise has done; `foldlM_invariant`, `exists_foldlM`, `foldlM_eq_ok` :
  loops;
* `NoExit x` : `x` does not call `sys.exit`;
* `floordiv`, `mod`, `min`, `max` : the operators `//` and `%` and the functions `min` and `max` of integers;
* `maxBy key l` : `max(l, key=key)`, the first of the greatest (`maxBy_eq_some`, `find?_of_maxBy`);
* `slice` : `l[start:stop]`;
* `toDouble` : the integer nearest to `n` that a double holds (53 significant bits, ties to even).
-/

namespace RowhammerTester

/-- The exceptions raised by the modelled code. -/
inductive PyError where
  | keyError (key : String)
  | assertionError (message : String)
  | typeError
  | indexError
  | valueError (message : String)
  | zeroDivisionError
  | overflowError
  | attributeError (name : String)
  | unboundLocalError (name : String)
  | nameError (name : String)
  | notImplementedError (message : String)
  | systemExit (code : Nat)
deriving DecidableEq, Repr

/-- A computation that may raise. -/
abbrev Py := Except PyError

namespace Py
variable {α β : Type}

theorem bind_eq_ok {x : Py α} {f : α → Py β} {b : β} : (x >>= f) = .ok b ↔ ∃ a, x = .ok a ∧ f a = .ok b := by
  cases x with
  | error e => simp [bind, Except.bind]
  | ok a => simp [bind, Except.bind]

theorem pure_eq_ok {a b : α} : (pure a : Py α) = .ok b ↔ b = a :=
  ⟨fun h => (Except.ok.inj h).symm, fun h => congrArg Except.ok h.symm⟩

@[simp] theorem ok_bind (a : α) (f : α → Py β) : ((.ok a : Py α) >>= f) = f a := rfl

@[simp] theorem error_bind (e : PyError) (f : α → Py β) : ((.error e : Py α) >>= f) = .error e := rfl

theorem exists_bind {x : Py α} {f : α → Py β} {a : α} (hx : x = .ok a) (h : ∃ b, f a = .ok b) :
    ∃ b, (x >>= f) = .ok b := by
  obtain ⟨b, hb⟩ := h
  exact ⟨b, bind_eq_ok.mpr ⟨a, hx, hb⟩⟩

theorem exists_ok {x : Py α} (h : x.isOk = true) : ∃ a, x = .ok a := by
  cases x with
  | error e => cases h
  | ok a => exact ⟨a, rfl⟩

/-- Raise `e` unless `c` holds. -/
def check (c : Prop) [Decidable c] (e : PyError) : Py Unit := if c then .ok () else .error e

theorem check_eq_ok {c : Prop} [Decidable c] {e : PyError} {u : Unit} : check c e = .ok u ↔ c := by
  unfold check
  split <;> simp_all

theorem check_of_pos {c : Prop} [Decidable c] (h : c) (e : PyError) : check c e = .ok () := if_pos h

theorem check_of_neg {c : Prop} [Decidable c] (h : ¬ c) (e : PyError) : check c e = .error e := if_neg h

/-- The computation does not leave the program. -/
def NoExit (x : Py α) : Prop := ∀ code, x ≠ .error (.systemExit code)

theorem noExit_ok (a : α) : NoExit (.ok a : Py α) := by
  intro code h
  cases h

theorem noExit_error {e : PyError} (he : ∀ code, e ≠ .systemExit code) : NoExit (.error e : Py α) := by
  intro code h
  exact he code (Except.error.inj h)

theorem noExit_bind {x : Py α} {f : α → Py β} (hx : NoExit x) (hf : ∀ a, NoExit (f a)) : NoExit (x >>= f) := by
  cases x with
  | error e =>
    intro code h
    exact hx code (congrArg _ (Except.error.inj h))
  | ok a => exact hf a

theorem noExit_check {c : Prop} [Decidable c] {e : PyError} (he : ∀ code, e ≠ .systemExit code) :
    NoExit (check c e) := by
  unfold check
  split
  · exact noExit_ok ()
  · exact noExit_error he

theorem noExit_foldlM {f : β → α → Py β} (hf : ∀ b a, NoExit (f b a)) : ∀ (l : List α) (b : β),
    NoExit (l.foldlM f b) := by
  intro l
  induction l with
  | nil => exact fun b => noExit_ok b
  | cons a l ih =>
    intro b
    rw [List.foldlM_cons]
    exact noExit_bind (hf b a) ih

/-- What every round keeps holds behind the loop. -/
theorem foldlM_invariant {I : β → Prop} {f : β → α → Py β} {l : List α}
    (h : ∀ a ∈ l, ∀ b b', I b → f b a = .ok b' → I b') : ∀ {b b' : β}, I b → l.foldlM f b = .ok b' → I b' := by
  induction l with
  | nil =>
    intro b b' hb hok
    cases hok
    exact hb
  | cons a l ih =>
    intro b b' hb hok
    rw [List.foldlM_cons] at hok
    obtain ⟨b₁, hone, hok⟩ := bind_eq_ok.mp hok
    exact ih (fun x hx => h x (List.mem_cons_of_mem a hx)) (h a List.mem_cons_self b b₁ hb hone) hok

/-- A loop whose rounds do not raise. -/
theorem exists_foldlM {f : β → α → Py β} {l : List α} (h : ∀ a ∈ l, ∀ b, ∃ b', f b a = .ok b') :
    ∀ b, ∃ b', l.foldlM f b = .ok b' := by
  induction l with
  | nil => exact fun b => ⟨b, rfl⟩
  | cons a l ih =>
    intro b
    obtain ⟨b₁, hone⟩ := h a List.mem_cons_self b
    rw [List.foldlM_cons]
    exact exists_bind hone (ih (fun x hx => h x (List.mem_cons_of_mem a hx)) b₁)

/-- A loop whose rounds go on where `P` holds, and do not raise then, is a fold. -/
theorem foldlM_eq_ok {P : α → Prop} {g : β → α → β} {f : β → α → Py β} {l : List α}
    (h : ∀ a ∈ l, ∀ b b', f b a = .ok b' ↔ P a ∧ b' = g b a) :
    ∀ {b b' : β}, l.foldlM f b = .ok b' ↔ (∀ a ∈ l, P a) ∧ b' = l.foldl g b := by
  induction l with
  | nil =>
    intro b b'
    exact ⟨fun hok => ⟨fun a ha => absurd ha List.not_mem_nil, (Except.ok.inj hok).symm⟩, fun hb => by rw [hb.2]; rfl⟩
  | cons a l ih =>
    intro b b'
    rw [List.foldlM_cons, bind_eq_ok, List.forall_mem_cons, List.foldl_cons]
    simp only [h a List.mem_cons_self, ih fun x hx => h x (List.mem_cons_of_mem a hx)]
    constructor
    · rintro ⟨b₁, ⟨hP, rfl⟩, hl, hb⟩
      exact ⟨⟨hP, hl⟩, hb⟩
    · rintro ⟨⟨hP, hl⟩, hb⟩
      exact ⟨g b a, ⟨hP, rfl⟩, hl, hb⟩

/-- The value, or raise `e` when there is none. -/
def ofOption (e : PyError) : Option α → Py α
  | some a => .ok a
  | none => .error e

/-- `a // b`. -/
def floordiv (a b : Int) : Py Int := if b = 0 then .error .zeroDivisionError else .ok (a.fdiv b)

theorem floordiv_eq_ok {a b q : Int} : floordiv a b = .ok q ↔ b ≠ 0 ∧ q = a.fdiv b := by
  unfold floordiv
  split <;> simp_all [eq_comm]

/-- `a % b`. -/
def mod (a b : Int) : Py Int := if b = 0 then .error .zeroDivisionError else .ok (a.fmod b)

theorem mod_eq_ok {a b r : Int} : mod a b = .ok r ↔ b ≠ 0 ∧ r = a.fmod b := by
  unfold mod
  split <;> simp_all [eq_comm]

/-- `min(l)`. -/
def min (l : List Int) : Py Int :=
  match l.min? with
  | some m => .ok m
  | none => .error (.valueError "min() arg is an empty sequence")

/-- `max(l)`. -/
def max (l : List Int) : Py Int :=
  match l.max? with
  | some m => .ok m
  | none => .error (.valueError "max() arg is an empty sequence")

/-- `max(l, key=key)`: the first of the greatest; `none` stands for the `ValueError` of an empty list. -/
def maxBy (key : α → Int) : List α → Option α
  | [] => none
  | a :: l =>
    match maxBy key l with
    | none => some a
    | some b => if key a < key b then some b else some a

section MaxBy
variable {key : α → Int} {l : List α} {m : α}

theorem maxBy_eq_none : maxBy key l = none ↔ l = [] := by
  cases l with
  | nil => exact iff_of_true rfl rfl
  | cons a l =>
    refine iff_of_false ?_ (List.cons_ne_nil a l)
    rw [maxBy]
    cases maxBy key l with
    | none => exact Option.some_ne_none a
    | some b =>
      dsimp only
      split
      · exact Option.some_ne_none b
      · exact Option.some_ne_none a

/-- The first of the greatest: those before it are less, those behind it not greater. -/
theorem maxBy_eq_some (h : maxBy key l = some m) : ∃ as bs, l = as ++ m :: bs ∧ (∀ a ∈ as, key a < key m) ∧
    ∀ b ∈ bs, key b ≤ key m := by
  induction l generalizing m with
  | nil => cases h
  | cons a l ih =>
    rw [maxBy] at h
    cases hl : maxBy key l with
    | none =>
      rw [hl] at h
      cases h
      rw [maxBy_eq_none.mp hl]
      exact ⟨[], [], rfl, fun _ h => absurd h List.not_mem_nil, fun _ h => absurd h List.not_mem_nil⟩
    | some b =>
      obtain ⟨as, bs, rfl, hbefore, hbehind⟩ := ih hl
      rw [hl] at h
      dsimp only at h
      split at h
      · next hlt =>
        cases h
        refine ⟨a :: as, bs, rfl, ?_, hbehind⟩
        intro x hx
        rcases List.mem_cons.mp hx with rfl | hx
        · exact hlt
        · exact hbefore x hx
      · next hle =>
        cases h
        refine ⟨[], _, rfl, fun _ h => absurd h List.not_mem_nil, ?_⟩
        intro x hx
        rcases List.mem_append.mp hx with hx | hx
        · have := hbefore x hx
          omega
        · rcases List.mem_cons.mp hx with rfl | hx
          · omega
          · have := hbehind x hx
            omega

theorem maxBy_mem (h : maxBy key l = some m) : m ∈ l := by
  obtain ⟨as, bs, rfl, -, -⟩ := maxBy_eq_some h
  exact List.mem_append_right as List.mem_cons_self

theorem le_of_maxBy (h : maxBy key l = some m) {a : α} (ha : a ∈ l) : key a ≤ key m := by
  obtain ⟨as, bs, rfl, hbefore, hbehind⟩ := maxBy_eq_some h
  rcases List.mem_append.mp ha with ha | ha
  · exact Int.le_of_lt (hbefore a ha)
  · rcases List.mem_cons.mp ha with rfl | ha
    · exact Int.le_refl _
    · exact hbehind a ha

/-- It is the first that is as great. -/
theorem find?_of_maxBy (h : maxBy key l = some m) {p : α → Prop} [DecidablePred p]
    (hp : ∀ a ∈ l, p a ↔ key a = key m) : (l.find? fun a => p a) = some m := by
  have hm := (hp m (maxBy_mem h)).mpr rfl
  obtain ⟨as, bs, rfl, hbefore, -⟩ := maxBy_eq_some h
  rw [List.find?_eq_some_iff_append]
  refine ⟨decide_eq_true hm, as, bs, rfl, ?_⟩
  intro a ha
  have hne : ¬ p a := fun hpa => Int.ne_of_lt (hbefore a ha) ((hp a (List.mem_append_left _ ha)).mp hpa)
  simp [hne]

end MaxBy

/-- `l[start:stop]`; a negative `start` counts from the end. -/
def slice (l : List α) (start : Int) (stop : Nat) : List α :=
  (l.take stop).drop (if start < 0 then start + l.length else start).toNat

theorem slice_sub_append {l₁ l₂ : List α} {n : Nat} (h : n ≤ l₁.length) :
    slice (l₁ ++ l₂) ((l₁.length : Int) - n) l₁.length = l₁.drop (l₁.length - n) := by
  have hpos : ¬ (l₁.length : Int) - n < 0 := by omega
  have hnat : ((l₁.length : Int) - n).toNat = l₁.length - n := by omega
  rw [slice, if_neg hpos, hnat, List.take_left]

theorem mapM_eq_ok {f : α → Py β} {g : α → β} {l : List α} (h : ∀ a ∈ l, f a = .ok (g a)) :
    l.mapM f = .ok (l.map g) := by
  induction l with
  | nil => rfl
  | cons a l ih =>
    rw [List.mapM_cons, h a List.mem_cons_self, ih fun b hb => h b (List.mem_cons_of_mem a hb)]
    rfl

theorem exists_of_mapM {f : α → Py β} {l : List α} {l' : List β} (h : l.mapM f = .ok l') {a : α} (ha : a ∈ l) :
    ∃ b, f a = .ok b := by
  induction l generalizing l' with
  | nil => cases ha
  | cons x l ih =>
    rw [List.mapM_cons] at h
    obtain ⟨b, hb, h⟩ := bind_eq_ok.mp h
    obtain ⟨bs, hbs, -⟩ := bind_eq_ok.mp h
    rcases List.mem_cons.mp ha with rfl | hmem
    · exact ⟨b, hb⟩
    · exact ih hbs hmem

end Py

/-! ## Doubles -/

/-- The double nearest to the integer `n`. -/
def toDouble (n : Nat) : Nat :=
  if n < 2 ^ 53 then n
  else
    let ulp := 2 ^ (n.log2 - 52)
    let q := n / ulp
    if 2 * (n % ulp) < ulp ∨ (2 * (n % ulp) = ulp ∧ q % 2 = 0) then q * ulp else (q + 1) * ulp

theorem toDouble_of_lt {n : Nat} (h : n < 2 ^ 53) : toDouble n = n := if_pos h

/-- Rounding loses less than half of a number. -/
theorem le_two_mul_toDouble (n : Nat) : n ≤ 2 * toDouble n := by
  unfold toDouble
  split
  · omega
  · next hn =>
    have hlog : 53 ≤ n.log2 := (Nat.le_log2 (by omega)).mpr (by omega)
    have hulp : 2 * 2 ^ (n.log2 - 52) ≤ n := by
      calc 2 * 2 ^ (n.log2 - 52) = 2 ^ (n.log2 - 52 + 1) := by rw [pow_succ, Nat.mul_comm]
        _ ≤ 2 ^ n.log2 := Nat.pow_le_pow_right (by decide) (by omega)
        _ ≤ n := Nat.log2_self_le (by omega)
    have hdiv := Nat.div_add_mod n (2 ^ (n.log2 - 52))
    have hmod := Nat.mod_lt n (Nat.two_pow_pos (n.log2 - 52))
    rw [Nat.mul_comm] at hdiv
    dsimp only
    split
    · omega
    · rw [Nat.add_mul (n / 2 ^ (n.log2 - 52)) 1]
      omega

end RowhammerTester
