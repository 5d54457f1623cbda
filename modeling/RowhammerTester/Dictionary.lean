import Mathlib.Data.List.Dedup
import Mathlib.Data.List.Induction
import Mathlib.Data.List.Nodup
import Mathlib.Logic.Function.Basic
import Mathlib.Algebra.GroupWithZero.Nat

/-!
# Dictionaries filled in the order of requests

* `fill table k v` : a table that keeps the first value of a key; `filled l` : the table after the requests `l`
  (`fill_filled`, `filled_append`);
* `append d k v` : `d[k].append(v)` for a dictionary of lists; `collect l` : the dictionary of all entries of `l`, which
  is the same at every stage exactly for the same entries (`forall_collect_eq_iff`);
* `set d k v` : `d[k] = v`; `assign l` : the dictionary after the assignments `l`, which has the last value of every key
  (`lookup_assign`) and the weight of all assignments exactly if no key is assigned twice (`weight_assign_eq_iff`);
* `kept l` : the assignments that are not replaced by later ones; `perm_kept_iff` : which of them are lost.
-/

namespace RowhammerTester.Dictionary
variable {κ β : Type*} [DecidableEq κ]

/-! ## Tables -/

/-- Enter a value unless the key has one. -/
def fill (table : κ → Option β) (k : κ) (v : β) : κ → Option β :=
  match table k with
  | some _ => table
  | none => Function.update table k (some v)

/-- The table of the first values. -/
def filled (l : List (κ × β)) (k : κ) : Option β := (l.find? fun p => p.1 = k).map Prod.snd

theorem filled_append (l l' : List (κ × β)) (k : κ) : filled (l ++ l') k = (filled l k).or (filled l' k) := by
  unfold filled
  rw [List.find?_append, Option.map_or]

theorem filled_singleton (p : κ × β) (k : κ) : filled [p] k = if p.1 = k then some p.2 else none := by
  unfold filled
  rw [List.find?_singleton]
  split <;> simp_all

theorem fill_of_some {table : κ → Option β} {k : κ} {w : β} (h : table k = some w) (v : β) :
    fill table k v = table := by
  unfold fill
  rw [h]

theorem fill_of_none {table : κ → Option β} {k : κ} (h : table k = none) (v : β) :
    fill table k v = Function.update table k (some v) := by
  unfold fill
  rw [h]

theorem fill_filled (l : List (κ × β)) (k : κ) (v : β) : fill (filled l) k v = filled (l ++ [(k, v)]) := by
  funext k'
  rw [filled_append, filled_singleton]
  dsimp only
  cases hk : filled l k with
  | some w =>
    rw [fill_of_some hk]
    by_cases heq : k = k'
    · rw [← heq, hk, Option.some_or]
    · rw [if_neg heq, Option.or_none]
  | none =>
    rw [fill_of_none hk]
    by_cases heq : k = k'
    · rw [← heq, hk, Function.update_self, if_pos rfl, Option.none_or]
    · rw [Function.update_of_ne (Ne.symm heq), if_neg heq, Option.or_none]

/-! ## Dictionaries of lists -/

/-- `d[k].append(v)`, where `d` is a `defaultdict(list)`. -/
def append : List (κ × List β) → κ → β → List (κ × List β)
  | [], k, v => [(k, [v])]
  | (k', vs) :: d, k, v => if k' = k then (k', vs ++ [v]) :: d else (k', vs) :: append d k v

/-- `d[k]`. -/
def get (d : List (κ × List β)) (k : κ) : List β := (d.lookup k).getD []

theorem get_of_not_mem {d : List (κ × List β)} {k : κ} (h : k ∉ d.map Prod.fst) : get d k = [] := by
  unfold get
  rw [List.lookup_eq_none_iff.mpr]
  · rfl
  · intro p hp
    rw [bne_iff_ne]
    rintro rfl
    exact h (List.mem_map_of_mem hp)

theorem get_concat {d : List (κ × List β)} {k : κ} (h : k ∉ d.map Prod.fst) (l : List β) :
    get (d ++ [(k, l)]) k = l := by
  unfold get
  induction d with
  | nil => simp
  | cons p d ih =>
    rw [List.map_cons, List.mem_cons, not_or] at h
    rw [List.cons_append, List.lookup_cons, beq_eq_false_iff_ne.mpr h.1]
    exact ih h.2

/-- The values by their keys. -/
def collect (l : List (κ × β)) : List (κ × List β) := l.foldl (fun d p => append d p.1 p.2) []

theorem get_append (d : List (κ × List β)) (k k' : κ) (v : β) :
    get (append d k v) k' = if k' = k then get d k' ++ [v] else get d k' := by
  unfold get
  induction d with
  | nil =>
    rw [append, List.lookup_cons]
    by_cases h : k' = k
    · simp [h]
    · simp [h, beq_eq_false_iff_ne.mpr h]
  | cons p d ih =>
    obtain ⟨k₀, vs⟩ := p
    rw [append]
    by_cases h₀ : k₀ = k
    · rw [if_pos h₀, List.lookup_cons, List.lookup_cons]
      by_cases h : k' = k
      · simp [h, h₀]
      · have hne : k' ≠ k₀ := fun heq => h (heq.trans h₀)
        rw [if_neg h, beq_eq_false_iff_ne.mpr hne]
    · rw [if_neg h₀, List.lookup_cons, List.lookup_cons]
      by_cases h : k' = k₀
      · simp [h, h₀]
      · rw [beq_eq_false_iff_ne.mpr h]
        exact ih

theorem mem_keys_append {d : List (κ × List β)} {k k' : κ} {v : β} :
    k' ∈ (append d k v).map Prod.fst ↔ k' = k ∨ k' ∈ d.map Prod.fst := by
  induction d with
  | nil => simp [append]
  | cons p d ih =>
    rw [append]
    split
    · next h => simp [h]
    · rw [List.map_cons, List.mem_cons, ih, List.map_cons, List.mem_cons]
      tauto

theorem nodup_keys_append {d : List (κ × List β)} (h : (d.map Prod.fst).Nodup) (k : κ) (v : β) :
    ((append d k v).map Prod.fst).Nodup := by
  induction d with
  | nil => simp [append]
  | cons p d ih =>
    obtain ⟨hp, hd⟩ := List.nodup_cons.mp h
    rw [append]
    split
    · exact h
    · next hne =>
      rw [List.map_cons, List.nodup_cons, mem_keys_append]
      exact ⟨fun hor => hor.elim hne hp, ih hd⟩

theorem forall_mem_append {Q : β → Prop} {d : List (κ × List β)} (h : ∀ p ∈ d, ∀ x ∈ p.2, Q x) (k : κ) {v : β}
    (hv : Q v) : ∀ p ∈ append d k v, ∀ x ∈ p.2, Q x := by
  induction d with
  | nil => simpa [append] using hv
  | cons q d ih =>
    obtain ⟨hq, hd⟩ := List.forall_mem_cons.mp h
    rw [append]
    split
    · refine List.forall_mem_cons.mpr ⟨fun x hx => ?_, hd⟩
      rcases List.mem_append.mp hx with hx | hx
      · exact hq x hx
      · rw [List.mem_singleton.mp hx]
        exact hv
    · exact List.forall_mem_cons.mpr ⟨hq, ih hd⟩

theorem get_foldl_append (l : List (κ × β)) (d : List (κ × List β)) (k : κ) :
    get (l.foldl (fun d p => append d p.1 p.2) d) k = get d k ++ (l.filter fun p => p.1 = k).map Prod.snd := by
  induction l generalizing d with
  | nil => simp
  | cons p l ih =>
    rw [List.foldl_cons, ih, get_append]
    by_cases h : k = p.1
    · rw [if_pos h, List.filter_cons_of_pos (by simpa using h.symm), List.map_cons, List.append_assoc]
      rfl
    · rw [if_neg h, List.filter_cons_of_neg (by simpa using Ne.symm h)]

theorem get_collect (l : List (κ × β)) (k : κ) : get (collect l) k = (l.filter fun p => p.1 = k).map Prod.snd := by
  have h := get_foldl_append l [] k
  rwa [show get ([] : List (κ × List β)) k = [] from rfl, List.nil_append] at h

/-- What was appended last can be seen. -/
theorem append_inj {d : List (κ × List β)} {k k' : κ} {v v' : β} (h : append d k v = append d k' v') :
    k = k' ∧ v = v' := by
  have hget := congrArg (get · k) h
  simp only [get_append] at hget
  by_cases hk : k = k'
  · rw [if_pos hk, if_true, List.append_cancel_left_eq, List.singleton_inj] at hget
    exact ⟨hk, hget⟩
  · rw [if_neg hk, if_true] at hget
    have hlen := congrArg List.length hget
    rw [List.length_append, List.length_singleton] at hlen
    omega

theorem collect_concat (l : List (κ × β)) (p : κ × β) : collect (l ++ [p]) = append (collect l) p.1 p.2 := by
  unfold collect
  rw [List.foldl_append]
  rfl

/-- Two dictionaries are the same at every stage only if every entry is. -/
theorem forall_collect_eq_iff {α : Type*} (f g : α → κ × β) (l : List α) :
    (∀ done, done <+: l → collect (done.map f) = collect (done.map g)) ↔ ∀ a ∈ l, f a = g a := by
  constructor
  · induction l using List.reverseRecOn with
    | nil => simp
    | append_singleton l x ih =>
      intro h a ha
      have hinit := ih fun done hdone => h done (hdone.trans (List.prefix_append l [x]))
      rcases List.mem_append.mp ha with ha | ha
      · exact hinit a ha
      · rw [List.mem_singleton.mp ha]
        have hlast := h (l ++ [x]) (List.prefix_refl _)
        rw [List.map_append, List.map_append, List.map_singleton, List.map_singleton, collect_concat, collect_concat,
          List.map_congr_left hinit] at hlast
        obtain ⟨hkey, hvalue⟩ := append_inj hlast
        exact Prod.ext hkey hvalue
  · intro h done hdone
    rw [List.map_congr_left fun a ha => h a (hdone.subset ha)]

/-! ## Assignments -/

/-- `d[k] = v`. -/
def set : List (κ × β) → κ → β → List (κ × β)
  | [], k, v => [(k, v)]
  | (k', v') :: d, k, v => if k' = k then (k', v) :: d else (k', v') :: set d k v

/-- The dictionary after assignments. -/
def assign (l : List (κ × β)) : List (κ × β) := l.foldl (fun d p => set d p.1 p.2) []

/-- The sum of the weights of the values. -/
def weight {κ : Type*} (w : β → Nat) (d : List (κ × β)) : Nat := (d.map fun p => w p.2).sum

theorem assign_concat (l : List (κ × β)) (p : κ × β) : assign (l ++ [p]) = set (assign l) p.1 p.2 := by
  unfold assign
  rw [List.foldl_append]
  rfl

theorem set_of_not_mem {d : List (κ × β)} {k : κ} (h : k ∉ d.map Prod.fst) (v : β) : set d k v = d ++ [(k, v)] := by
  induction d with
  | nil => rfl
  | cons p d ih =>
    rw [List.map_cons, List.mem_cons, not_or] at h
    rw [set, if_neg (Ne.symm h.1), ih h.2]
    rfl

theorem set_concat {d : List (κ × β)} {k : κ} (h : k ∉ d.map Prod.fst) (v w : β) :
    set (d ++ [(k, v)]) k w = d ++ [(k, w)] := by
  induction d with
  | nil => simp [set]
  | cons p d ih =>
    rw [List.map_cons, List.mem_cons, not_or] at h
    rw [List.cons_append, set, if_neg (Ne.symm h.1), ih h.2, List.cons_append]

theorem mem_keys_set {d : List (κ × β)} {k k' : κ} {v : β} :
    k' ∈ (set d k v).map Prod.fst ↔ k' = k ∨ k' ∈ d.map Prod.fst := by
  induction d with
  | nil => simp [set]
  | cons p d ih =>
    rw [set]
    split
    · next h => simp [h]
    · rw [List.map_cons, List.mem_cons, ih, List.map_cons, List.mem_cons]
      tauto

theorem mem_values_set {d : List (κ × β)} {k : κ} {v x : β} (h : x ∈ (set d k v).map Prod.snd) :
    x = v ∨ x ∈ d.map Prod.snd := by
  induction d with
  | nil => simpa [set] using h
  | cons p d ih =>
    rw [set] at h
    split at h
    · rcases List.mem_cons.mp h with rfl | hd
      · exact Or.inl rfl
      · exact Or.inr (List.mem_cons_of_mem _ hd)
    · rcases List.mem_cons.mp h with rfl | hd
      · exact Or.inr List.mem_cons_self
      · rcases ih hd with hx | hx
        · exact Or.inl hx
        · exact Or.inr (List.mem_cons_of_mem _ hx)

theorem lookup_set (d : List (κ × β)) (k k' : κ) (v : β) :
    (set d k v).lookup k' = if k' = k then some v else d.lookup k' := by
  induction d with
  | nil =>
    rw [set, List.lookup_cons]
    by_cases h : k' = k
    · simp [h]
    · simp [h, beq_eq_false_iff_ne.mpr h]
  | cons p d ih =>
    rw [set]
    by_cases h₀ : p.1 = k
    · rw [if_pos h₀, List.lookup_cons, List.lookup_cons, h₀]
      by_cases h : k' = k
      · simp [h]
      · rw [if_neg h, beq_eq_false_iff_ne.mpr h]
    · rw [if_neg h₀, List.lookup_cons, List.lookup_cons]
      by_cases h : k' = p.1
      · simp [h, h₀]
      · rw [beq_eq_false_iff_ne.mpr h]
        exact ih

theorem mem_keys_assign {l : List (κ × β)} {k : κ} : k ∈ (assign l).map Prod.fst ↔ k ∈ l.map Prod.fst := by
  induction l using List.reverseRecOn with
  | nil => rfl
  | append_singleton l p ih =>
    rw [assign_concat, mem_keys_set, ih, List.map_append, List.mem_append, List.map_singleton, List.mem_singleton]
    exact or_comm

theorem mem_values_assign {l : List (κ × β)} {x : β} (h : x ∈ (assign l).map Prod.snd) : x ∈ l.map Prod.snd := by
  induction l using List.reverseRecOn with
  | nil => exact h
  | append_singleton l p ih =>
    rw [assign_concat] at h
    rw [List.map_append, List.mem_append, List.map_singleton, List.mem_singleton]
    exact (mem_values_set h).symm.imp_left ih

theorem assign_of_nodup {l : List (κ × β)} (h : (l.map Prod.fst).Nodup) : assign l = l := by
  induction l using List.reverseRecOn with
  | nil => rfl
  | append_singleton l p ih =>
    rw [List.map_append, List.map_singleton, ← List.concat_eq_append, List.nodup_concat] at h
    rw [assign_concat, ih h.2, set_of_not_mem h.1]

/-- The last value of every key stays. -/
theorem lookup_assign (l : List (κ × β)) (k : κ) :
    (assign l).lookup k = ((l.filter fun p => p.1 = k).map Prod.snd).getLast? := by
  induction l using List.reverseRecOn with
  | nil => rfl
  | append_singleton l p ih =>
    rw [assign_concat, lookup_set, ih, List.filter_append]
    by_cases h : k = p.1
    · rw [if_pos h, List.filter_cons_of_pos (by simpa using h.symm)]
      simp
    · rw [if_neg h, List.filter_cons_of_neg (by simpa using Ne.symm h)]
      simp

omit [DecidableEq κ] in
/-- The last of some lists is all of them only if there is one. -/
theorem getLast_eq_flatten_iff {γ : Type*} {l : List (List γ)} (h : ∀ x ∈ l, x ≠ []) :
    l.getLast?.getD [] = l.flatten ↔ l.length ≤ 1 := by
  induction l using List.reverseRecOn with
  | nil => simp
  | append_singleton l x ih =>
    rw [List.getLast?_concat, Option.getD_some, List.flatten_append, List.flatten_singleton, List.length_append,
      List.length_singleton]
    constructor
    · intro heq
      have hnil : l.flatten = [] := by
        have hlen := congrArg List.length heq
        rw [List.length_append] at hlen
        exact List.length_eq_zero_iff.mp (by omega)
      rw [List.flatten_eq_nil_iff] at hnil
      have hempty : l = [] := List.eq_nil_iff_forall_not_mem.mpr fun y hy =>
        h y (List.mem_append_left _ hy) (hnil y hy)
      rw [hempty]
      exact Nat.le_refl 1
    · intro hlen
      rw [List.length_eq_zero_iff.mp (show l.length = 0 by omega)]
      rfl

/-- Every key has all its lists exactly if no key is assigned twice. -/
theorem lookup_assign_eq_flatten_iff {γ : Type*} {l : List (κ × List γ)} (h : ∀ x ∈ l.map Prod.snd, x ≠ []) :
    (∀ k, ((assign l).lookup k).getD [] = ((l.filter fun p => p.1 = k).map Prod.snd).flatten) ↔
      (l.map Prod.fst).Nodup := by
  have hkey : ∀ k, ((l.filter fun p => p.1 = k).map Prod.snd).length = (l.map Prod.fst).count k := by
    intro k
    rw [List.length_map, List.count_eq_countP, List.countP_map, List.countP_eq_length_filter]
    congr 2
  rw [List.nodup_iff_count_le_one]
  apply forall_congr'
  intro k
  rw [lookup_assign, getLast_eq_flatten_iff, hkey]
  intro x hx
  obtain ⟨p, hp, rfl⟩ := List.mem_map.mp hx
  exact h p.2 (List.mem_map_of_mem (List.mem_of_mem_filter hp))

section Weight
variable (w : β → Nat)

omit [DecidableEq κ] in
theorem weight_concat (d : List (κ × β)) (p : κ × β) : weight w (d ++ [p]) = weight w d + w p.2 := by
  unfold weight
  rw [List.map_append, List.sum_append, List.map_singleton, List.sum_singleton]

/-- A value that is replaced is lost. -/
theorem weight_set_of_mem {d : List (κ × β)} {k : κ} (h : k ∈ d.map Prod.fst) (hw : ∀ x ∈ d.map Prod.snd, 0 < w x)
    (v : β) : weight w (set d k v) < weight w d + w v := by
  induction d with
  | nil => cases h
  | cons p d ih =>
    have hp : 0 < w p.2 := hw p.2 List.mem_cons_self
    rw [set]
    split
    · simp only [weight, List.map_cons, List.sum_cons]
      omega
    · next hne =>
      have hk : k ∈ d.map Prod.fst := (List.mem_cons.mp h).resolve_left (Ne.symm hne)
      have hlt := ih hk fun x hx => hw x (List.mem_cons_of_mem _ hx)
      simp only [weight, List.map_cons, List.sum_cons] at hlt ⊢
      omega

theorem weight_assign {l : List (κ × β)} (hw : ∀ x ∈ l.map Prod.snd, 0 < w x) :
    weight w (assign l) ≤ weight w l ∧ (weight w (assign l) = weight w l ↔ (l.map Prod.fst).Nodup) := by
  induction l using List.reverseRecOn with
  | nil => exact ⟨Nat.le_refl _, by simp [assign]⟩
  | append_singleton l p ih =>
    obtain ⟨hle, hiff⟩ := ih fun x hx => hw x (by rw [List.map_append]; exact List.mem_append_left _ hx)
    have hpos : ∀ x ∈ (assign l).map Prod.snd, 0 < w x := by
      intro x hx
      apply hw
      rw [List.map_append]
      exact List.mem_append_left _ (mem_values_assign hx)
    have hnodup : ((l ++ [p]).map Prod.fst).Nodup ↔ (l.map Prod.fst).Nodup ∧ p.1 ∉ l.map Prod.fst := by
      rw [List.map_append, List.map_singleton, ← List.concat_eq_append, List.nodup_concat, and_comm]
    rw [assign_concat, weight_concat, hnodup]
    by_cases h : p.1 ∈ l.map Prod.fst
    · have hlt := weight_set_of_mem w (mem_keys_assign.mpr h) hpos p.2
      exact ⟨by omega, by omega, fun hn => absurd h hn.2⟩
    · rw [set_of_not_mem (fun hk => h (mem_keys_assign.mp hk)), weight_concat]
      dsimp only
      refine ⟨by omega, fun heq => ⟨hiff.mp (by omega), h⟩, fun hn => ?_⟩
      have heq := hiff.mpr hn.1
      omega

end Weight

/-! ## Assignments that stay -/

/-- The assignments that no later one replaces. -/
def kept : List (κ × β) → List (κ × β)
  | [] => []
  | p :: l => if p.1 ∈ l.map Prod.fst then kept l else p :: kept l

theorem kept_sublist (l : List (κ × β)) : (kept l).Sublist l := by
  induction l with
  | nil => exact List.Sublist.refl _
  | cons p l ih =>
    rw [kept]
    split
    · exact ih.cons p
    · exact ih.cons_cons p

/-- The keys that are left, each with its last value. -/
theorem map_dedup_eq_kept (l : List (κ × β)) (default : β) :
    (l.map Prod.fst).dedup.map (fun k => (k, (l.reverse.lookup k).getD default)) = kept l := by
  induction l with
  | nil => rfl
  | cons p l ih =>
    -- a key of the other assignments has its value from them
    have htail : (l.map Prod.fst).dedup.map (fun k => (k, ((p :: l).reverse.lookup k).getD default)) = kept l := by
      rw [← ih]
      apply List.map_congr_left
      intro k hk
      obtain ⟨v, hv⟩ : ∃ v, l.reverse.lookup k = some v := by
        rw [← Option.isSome_iff_exists, List.lookup_isSome_iff]
        obtain ⟨p', hp', rfl⟩ := List.mem_map.mp (List.mem_dedup.mp hk)
        exact ⟨p', List.mem_reverse.mpr hp', beq_self_eq_true _⟩
      rw [List.reverse_cons, List.lookup_append, hv, Option.some_or]
    rw [kept, List.map_cons]
    split
    · next hmem => rw [List.dedup_cons_of_mem hmem, htail]
    · next hmem =>
      have hnone : l.reverse.lookup p.1 = none := by
        rw [List.lookup_eq_none_iff]
        intro p' hp'
        rw [bne_iff_ne]
        intro heq
        exact hmem (List.mem_map.mpr ⟨p', List.mem_reverse.mp hp', heq.symm⟩)
      rw [List.dedup_cons_of_notMem hmem, List.map_cons, htail, List.reverse_cons, List.lookup_append, hnone,
        Option.none_or, List.lookup_cons, beq_self_eq_true]
      rfl

/-- Among the assignments with a property, the ones that stay are all of them exactly if none is followed by another one
of its key. -/
theorem filter_kept_eq_iff (q : β → Bool) (l : List (κ × β)) :
    (kept l).filter (fun p => q p.2) = l.filter (fun p => q p.2) ↔
      l.Pairwise fun p p' => q p.2 = true → p.1 ≠ p'.1 := by
  induction l with
  | nil => simp [kept]
  | cons p l ih =>
    have hhead : (∀ p' ∈ l, q p.2 = true → p.1 ≠ p'.1) ↔ (q p.2 = true → p.1 ∉ l.map Prod.fst) := by
      simp only [List.mem_map, not_exists, not_and]
      exact ⟨fun h hq p' hp' heq => h p' hp' hq heq.symm, fun h p' hp' hq heq => h hq p' hp' heq.symm⟩
    rw [List.pairwise_cons, hhead, ← ih, kept]
    cases hq : q p.2 with
    | false =>
      split
      · rw [List.filter_cons_of_neg (by simp [hq])]
        simp
      · rw [List.filter_cons_of_neg (by simp [hq]), List.filter_cons_of_neg (by simp [hq])]
        simp
    | true =>
      split
      · next hmem =>
        have hlen : ((kept l).filter fun p => q p.2).length ≤ (l.filter fun p => q p.2).length :=
          ((kept_sublist l).filter _).length_le
        rw [List.filter_cons_of_pos (by simp [hq])]
        refine ⟨fun h => ?_, fun h => absurd hmem (h.1 rfl)⟩
        rw [h, List.length_cons] at hlen
        omega
      · next hmem =>
        rw [List.filter_cons_of_pos (by simp [hq]), List.filter_cons_of_pos (by simp [hq])]
        simp [hmem]

/-- It is the same whether they are compared in order or not, or by what is made of them. -/
theorem perm_kept_iff {γ : Type*} (f : κ × β → γ) (q : β → Bool) (l : List (κ × β)) :
    (((kept l).filter fun p => q p.2).map f).Perm ((l.filter fun p => q p.2).map f) ↔
      l.Pairwise fun p p' => q p.2 = true → p.1 ≠ p'.1 := by
  rw [← filter_kept_eq_iff]
  constructor
  · intro h
    have hlen := h.length_eq
    rw [List.length_map, List.length_map] at hlen
    exact ((kept_sublist l).filter _).eq_of_length hlen
  · intro h
    rw [h]

end RowhammerTester.Dictionary
