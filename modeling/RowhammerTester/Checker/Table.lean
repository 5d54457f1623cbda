import RowhammerTester.Checker.VerifyPayload
import Mathlib.Data.ENat.Lattice

/-!
# Next-tick tables

Ranks and banks keep, for every op code, the first tick at which it is allowed; `math.inf` is `⊤`.

* `bump`, `update` : the update loop over the parameters of an executed op code; `bump_self` : its effect on one entry;
* `Apart`, `Active` : what the entries stand for, as conditions on the history of executed commands;
* `lastFour`, `push` : the deque of the last four activations.
-/

namespace RowhammerTester.Checker

/-- `next_tick`: op codes that are not in the dictionary have the entry 0. -/
abbrev NextTick := Opcode → ℕ∞

/-- `parameters`: for every executed op code, the op codes it delays. -/
abbrev Parameters := Opcode → List (Opcode × ℕ∞)

/-- One iteration of the update loop. -/
def bump (tick : Nat) (next : NextTick) (entry : Opcode × ℕ∞) : NextTick :=
  if next entry.1 = ⊤ then Function.update next entry.1 (tick + entry.2)
  else if next entry.1 < tick + entry.2 then Function.update next entry.1 (tick + entry.2)
  else next

/-- The update loop after an op code was executed. -/
def update (parameters : Parameters) (tick : Nat) (opcode : Opcode) (next : NextTick) : NextTick :=
  (parameters opcode).foldl (bump tick) next

/-- What an iteration makes of an entry: an infinite one is overwritten, a finite one raised. -/
def raise (old new : ℕ∞) : ℕ∞ := if old = ⊤ then new else if old < new then new else old

theorem bump_self (tick : Nat) (next : NextTick) (op : Opcode) (d : ℕ∞) :
    bump tick next (op, d) op = raise (next op) (tick + d) := by
  unfold bump raise
  by_cases htop : next op = ⊤
  · rw [if_pos htop, if_pos htop, Function.update_self]
  · rw [if_neg htop, if_neg htop]
    by_cases hlt : next op < tick + d
    · rw [if_pos hlt, if_pos hlt, Function.update_self]
    · rw [if_neg hlt, if_neg hlt]

theorem bump_of_ne (tick : Nat) (next : NextTick) {op op' : Opcode} (hop : op' ≠ op) (d : ℕ∞) :
    bump tick next (op, d) op' = next op' := by
  unfold bump
  split_ifs
  · exact Function.update_of_ne hop _ _
  · exact Function.update_of_ne hop _ _
  · rfl

/-! ## Banks -/

/-- `Bank.parameters`, which the two libraries have in common. -/
def bankParameters (rcd ras rtp rp : Nat) : Parameters
  | .RD => [(.PRE, rtp)]
  | .ACT => [(.RD, rcd), (.ACT, ⊤), (.PRE, ras)]
  | .PRE => [(.RD, ⊤), (.ACT, rp)]
  | _ => []

/-- The bank's table before the first command. -/
def bankStart : NextTick := fun op => if op = .RD then ⊤ else 0

/-- `Bank.Execute`: `none` for a violation. -/
def executeTable (parameters : Parameters) (next : NextTick) (tick : Nat) (opcode : Opcode) : Option NextTick :=
  if (tick : ℕ∞) < next opcode then none else some (update parameters tick opcode next)

/-! ## Histories -/

section History
variable {M : Type}

/-- Every `P` command of the history came at least `d` ticks before `T`. -/
def Apart (P : M → Prop) (d : Nat) (h : List (Nat × M)) (T : Nat) : Prop := ∀ x ∈ h, P x.2 → x.1 + d ≤ T

/-- The history has a command that opens, and none after it that closes. -/
def Active (opens closes : M → Prop) (h : List (Nat × M)) : Prop :=
  ∃ pre x post, h = pre ++ x :: post ∧ opens x.2 ∧ ∀ y ∈ post, ¬ closes y.2

variable {P opens closes : M → Prop} {d : Nat} {h : List (Nat × M)}

theorem apart_nil (P : M → Prop) (d T : Nat) : Apart P d [] T := fun x hx => absurd hx (by simp)

theorem apart_concat {x : Nat × M} {T : Nat} : Apart P d (h ++ [x]) T ↔ Apart P d h T ∧ (P x.2 → x.1 + d ≤ T) := by
  unfold Apart
  simp only [List.mem_append, List.mem_singleton, or_imp, forall_and, forall_eq]

theorem apart_concat_of_not {x : Nat × M} (hx : ¬ P x.2) {T : Nat} : Apart P d (h ++ [x]) T ↔ Apart P d h T := by
  rw [apart_concat, and_iff_left fun hp => absurd hp hx]

theorem apart_concat_of {x : Nat × M} (hx : P x.2) {T : Nat} :
    Apart P d (h ++ [x]) T ↔ Apart P d h T ∧ x.1 + d ≤ T := by
  rw [apart_concat, forall_prop_of_true hx]

/-- A command that is far enough from the last one is far enough from all. -/
theorem Apart.of_last {t T : Nat} (hle : ∀ x ∈ h, x.1 ≤ t) (ht : t + d ≤ T) : Apart P d h T := by
  intro x hx _
  have := hle x hx
  omega

theorem not_active_nil : ¬ Active opens closes [] := by
  rintro ⟨pre, x, post, heq, -⟩
  exact absurd heq.symm (by simp)

theorem active_concat {x : Nat × M} :
    Active opens closes (h ++ [x]) ↔ opens x.2 ∨ (¬ closes x.2 ∧ Active opens closes h) := by
  constructor
  · rintro ⟨pre, y, post, heq, hy, hpost⟩
    rcases List.eq_nil_or_concat post with rfl | ⟨post', z, rfl⟩
    · obtain ⟨rfl, hxy⟩ := List.append_inj' heq rfl
      cases hxy
      exact Or.inl hy
    · rw [List.concat_eq_append, ← List.cons_append, ← List.append_assoc] at heq
      obtain ⟨rfl, hxz⟩ := List.append_inj' heq rfl
      cases hxz
      rw [List.concat_eq_append] at hpost
      exact Or.inr ⟨hpost x (by simp), pre, y, post', rfl, hy, fun w hw => hpost w (by simp [hw])⟩
  · rintro (hx | ⟨hx, pre, y, post, rfl, hy, hpost⟩)
    · exact ⟨h, x, [], rfl, hx, by simp⟩
    · refine ⟨pre, y, post ++ [x], by simp, hy, fun w hw => ?_⟩
      rcases List.mem_append.mp hw with hw | hw
      · exact hpost w hw
      · rw [List.mem_singleton.mp hw]
        exact hx

/-- Commands that neither open nor close leave everything as it is. -/
theorem active_concat_of_not {x : Nat × M} (ho : ¬ opens x.2) (hc : ¬ closes x.2) :
    Active opens closes (h ++ [x]) ↔ Active opens closes h := by
  rw [active_concat, or_iff_right ho, and_iff_right hc]

end History

/-! ## Entries as conditions -/

/-- The entry `e` forbids its op code unless `allowed`, and then allows it at the ticks that satisfy `C`. -/
def Tracks (e : ℕ∞) (allowed : Prop) (C : Nat → Prop) : Prop :=
  (e = ⊤ ↔ ¬ allowed) ∧ ∀ T : Nat, e ≤ T ↔ allowed ∧ C T

section Tracks
variable {e : ℕ∞} {allowed allowed' : Prop} {C C' : Nat → Prop}

theorem Tracks.congr (h : Tracks e allowed C) (ha : allowed ↔ allowed') (hC : allowed → ∀ T, C T ↔ C' T) :
    Tracks e allowed' C' :=
  ⟨by rw [h.1, ha], fun T => by
    rw [h.2 T, ha]
    exact and_congr_right fun hal => hC (ha.mpr hal) T⟩

/-- An allowed op code is allowed at some tick. -/
theorem Tracks.exists_tick (h : Tracks e allowed C) : (∃ T : Nat, e ≤ T) ↔ allowed := by
  refine ⟨fun ⟨T, hT⟩ => ((h.2 T).mp hT).1, fun hal => ?_⟩
  have hne : e ≠ ⊤ := fun heq => h.1.mp heq hal
  obtain ⟨T, hT⟩ := ENat.ne_top_iff_exists.mp hne
  exact ⟨T, hT.symm.le⟩

theorem tracks_zero (hC : ∀ T, C T) : Tracks 0 True C :=
  ⟨iff_of_false ENat.zero_ne_top (by simp), fun T => iff_of_true zero_le ⟨trivial, hC T⟩⟩

theorem tracks_top : Tracks ⊤ False C :=
  ⟨iff_of_true rfl id, fun T => iff_of_false (fun h => ENat.natCast_ne_top T (top_le_iff.mp h)) fun h => h.1⟩

theorem coe_add_le {tick d T : Nat} : (tick : ℕ∞) + (d : Nat) ≤ T ↔ tick + d ≤ T := by
  exact_mod_cast Iff.rfl

/-- A finite entry is raised. -/
theorem Tracks.raise (h : Tracks e True C) (tick d : Nat) :
    Tracks (Checker.raise e (tick + (d : Nat))) True fun T => C T ∧ tick + d ≤ T := by
  have hne : e ≠ ⊤ := fun heq => absurd (h.1.mp heq) (by simp)
  rw [Checker.raise, if_neg hne, ← max_def_lt]
  refine ⟨iff_of_false ?_ (by simp), fun T => ?_⟩
  · rw [← Nat.cast_add]
    exact (max_lt (lt_top_iff_ne_top.mpr hne) (ENat.natCast_lt_top _)).ne
  · rw [max_le_iff, h.2 T, coe_add_le, and_assoc]

/-- An infinite entry is overwritten. -/
theorem tracks_overwrite (h : e = ⊤) (tick d : Nat) :
    Tracks (raise e (tick + (d : Nat))) True fun T => tick + d ≤ T := by
  rw [raise, if_pos h]
  refine ⟨iff_of_false ?_ (by simp), fun T => ?_⟩
  · rw [← Nat.cast_add]
    exact ENat.natCast_ne_top _
  · rw [coe_add_le, and_iff_right trivial]

/-- An infinite delay forbids the op code. -/
theorem tracks_forbid (tick : Nat) : Tracks (raise e (tick + ⊤)) False C := by
  have htop : raise e ((tick : ℕ∞) + ⊤) = ⊤ := by
    unfold raise
    rw [← max_def_lt, add_top, max_top_right, ite_self]
  rw [htop]
  exact tracks_top

end Tracks

/-! ## The last four activations -/

/-- The last four elements. -/
def lastFour (acts : List Nat) : List Nat := acts.drop (acts.length - 4)

/-- `append` on a deque of at most four elements. -/
def push (deque : List Nat) (x : Nat) : List Nat := (deque ++ [x]).drop (deque.length + 1 - 4)

theorem lastFour_concat (acts : List Nat) (x : Nat) : lastFour (acts ++ [x]) = push (lastFour acts) x := by
  unfold lastFour push
  rw [List.length_append, List.length_singleton, List.length_drop]
  by_cases h : acts.length ≤ 4
  · rw [show acts.length - 4 = 0 by omega, List.drop_zero, Nat.sub_zero]
  · rw [← List.drop_append_of_le_length (show acts.length - 4 ≤ acts.length by omega), List.drop_drop]
    congr 1
    omega

/-- Four activations are kept exactly when there is one with three after it. -/
theorem lastFour_eq_cons {acts : List Nat} (h : (lastFour acts).length = 4) :
    ∃ pre a mid, acts = pre ++ a :: mid ∧ mid.length = 3 ∧ lastFour acts = a :: mid := by
  cases hl : lastFour acts with
  | nil =>
    rw [hl] at h
    cases h
  | cons a mid =>
    refine ⟨acts.take (acts.length - 4), a, mid, ?_, ?_, rfl⟩
    · rw [← hl, lastFour, List.take_append_drop]
    · rw [hl, List.length_cons] at h
      omega

theorem lastFour_append {pre mid : List Nat} {a : Nat} (h : mid.length = 3) :
    lastFour (pre ++ a :: mid) = a :: mid := by
  unfold lastFour
  rw [List.length_append, List.length_cons, h, Nat.add_sub_cancel, List.drop_left]

/-- The tFAW test: a fifth activation less than `faw` ticks after the first of the last four. -/
def WindowViolation (faw : Nat) (prevActs : List Nat) (tick : Nat) : Prop :=
  prevActs.length = 4 ∧ tick - prevActs.headD 0 < faw

instance (faw : Nat) (prevActs : List Nat) (tick : Nat) : Decidable (WindowViolation faw prevActs tick) :=
  inferInstanceAs (Decidable (_ ∧ _))

/-- The deque and the window of five activations. -/
theorem not_windowViolation_iff {faw tick : Nat} {acts : List Nat} (hle : ∀ a ∈ acts, a ≤ tick) :
    ¬ WindowViolation faw (lastFour acts) tick ↔
      ∀ pre a mid, acts = pre ++ a :: mid → mid.length = 3 → a + faw ≤ tick := by
  constructor
  · intro hno pre a mid heq hlen
    by_contra hlt
    refine hno ?_
    have hact := hle a (heq ▸ List.mem_append_right pre List.mem_cons_self)
    rw [heq, lastFour_append hlen]
    refine ⟨by simp [hlen], ?_⟩
    rw [List.headD_cons]
    omega
  · rintro hall ⟨hlen, hlt⟩
    obtain ⟨pre, a, mid, heq, hmid, hlast⟩ := lastFour_eq_cons hlen
    have h1 := hall pre a mid heq hmid
    rw [hlast, List.headD_cons] at hlt
    omega

end RowhammerTester.Checker
