import RowhammerTester.Checker.Ddr3
import RowhammerTester.Checker.Ddr4

/-!
# Refreshing open banks

Both libraries keep a single next tick for REF: an ACT makes it infinite, and the next PRE, of whatever bank, finite
again.

* `RefreshSafe` : at every REF all banks are precharged; `RefreshSafeAnywhere` : at every REF that the rank would take;
* `ClosesAll` : no PRE finds another bank active; `closesAll_iff` : the rank forgets an open bank only at such a PRE;
* `refresh_precharged_iff` : the refreshes of an accepted payload.
-/

namespace RowhammerTester.Checker

section Trace
variable {M B : Type} [Command M B] {tr h : List (Nat × M)}

/-- At every REF every bank is precharged. -/
def RefreshSafe (tr : List (Nat × M)) : Prop :=
  ∀ h c post, tr = h ++ c :: post → Is .REF c.2 → ∀ bank, ¬ BankActive bank h

/-- Wherever the rank would take a REF in the trace, every bank is precharged. -/
def RefreshSafeAnywhere {T R : Type} (lib : DramLib T M R) (timing : T) (tr : List (Nat × M)) : Prop :=
  ∀ h post ref, tr = h ++ post → Is .REF ref.2 →
    (executeAll lib (lib.rank timing) (h ++ [ref])).isSome = true → ∀ bank, ¬ BankActive bank h

/-- No PRE finds another bank active. -/
def ClosesAll (tr : List (Nat × M)) : Prop :=
  ∀ h p post, tr = h ++ p :: post → Is .PRE p.2 → ∀ bank, bank ≠ Command.bank p.2 → ¬ BankActive bank h

/-- Commands that neither open nor close leave everything as it is. -/
theorem active_append_of_not {opens closes : M → Prop} {mid : List (Nat × M)}
    (hmid : ∀ x ∈ mid, ¬ opens x.2 ∧ ¬ closes x.2) : Active opens closes (h ++ mid) ↔ Active opens closes h := by
  induction mid using List.reverseRecOn with
  | nil => rw [List.append_nil]
  | append_singleton mid x ih =>
    have hx := hmid x (by simp)
    rw [← List.append_assoc, active_concat_of_not hx.1 hx.2]
    exact ih fun y hy => hmid y (by simp [hy])

/-- After a PRE and commands other than ACT and PRE. -/
theorem bankActive_after_pre {p : Nat × M} {mid : List (Nat × M)} (hp : Is .PRE p.2)
    (hmid : ∀ x ∈ mid, ¬ Is .ACT x.2 ∧ ¬ Is .PRE x.2) (bank : B) :
    BankActive bank (h ++ p :: mid) ↔ bank ≠ Command.bank p.2 ∧ BankActive bank h := by
  have hmid' : ∀ x ∈ mid, ¬ IsAt .ACT bank x.2 ∧ ¬ IsAt .PRE bank x.2 := fun x hx =>
    ⟨fun hc => (hmid x hx).1 hc.1, fun hc => (hmid x hx).2 hc.1⟩
  have hact : ¬ IsAt .ACT bank p.2 := not_isAt hp (by decide)
  unfold BankActive
  rw [show h ++ p :: mid = (h ++ [p]) ++ mid by simp, active_append_of_not hmid', active_concat, or_iff_right hact]
  refine and_congr_left fun _ => not_congr ⟨fun hc => hc.2.symm, fun hc => ⟨hp, hc.symm⟩⟩

/-- The last ACT or PRE of a history. -/
theorem exists_last_row (h : List (Nat × M)) : (∀ x ∈ h, ¬ Is .ACT x.2 ∧ ¬ Is .PRE x.2) ∨
    ∃ pre p mid, h = pre ++ p :: mid ∧ (Is .ACT p.2 ∨ Is .PRE p.2) ∧ ∀ x ∈ mid, ¬ Is .ACT x.2 ∧ ¬ Is .PRE x.2 := by
  induction h using List.reverseRecOn with
  | nil => exact Or.inl fun x hx => absurd hx (by simp)
  | append_singleton h c ih =>
    by_cases hc : Is .ACT c.2 ∨ Is .PRE c.2
    · exact Or.inr ⟨h, c, [], rfl, hc, by simp⟩
    · rw [not_or] at hc
      rcases ih with hnone | ⟨pre, p, mid, rfl, hp, hmid⟩
      · refine Or.inl fun x hx => ?_
        rcases List.mem_append.mp hx with hx | hx
        · exact hnone x hx
        · rw [List.mem_singleton.mp hx]
          exact hc
      · refine Or.inr ⟨pre, p, mid ++ [c], by simp, hp, fun x hx => ?_⟩
        rcases List.mem_append.mp hx with hx | hx
        · exact hmid x hx
        · rw [List.mem_singleton.mp hx]
          exact hc

/-- The last ACT or PRE of a trace is a PRE only when all banks are precharged, exactly when every PRE closes the last
open bank. -/
theorem closesAll_iff_rows : ClosesAll tr ↔
    ∀ h post, tr = h ++ post → ¬ RowOpen h → ∀ bank, ¬ BankActive bank h := by
  constructor
  · intro hcloses h post heq hrow bank hactive
    rcases exists_last_row h with hnone | ⟨pre, p, mid, rfl, hp | hp, hmid⟩
    · -- nothing was ever activated
      obtain ⟨pre, x, rest, rfl, hx, -⟩ := hactive
      exact (hnone x (by simp)).1 hx.1
    · exact hrow ⟨pre, p, mid, rfl, hp, fun y hy => (hmid y hy).2⟩
    · obtain ⟨hne, hactive⟩ := (bankActive_after_pre hp hmid bank).mp hactive
      exact hcloses pre p (mid ++ post) (by rw [heq]; simp) hp bank hne hactive
  · intro hrows h p post heq hp bank hne hactive
    refine hrows (h ++ [p]) post (by rw [heq]; simp) (not_rowOpen_concat_of_pre hp) bank ?_
    exact (bankActive_after_pre hp (List.forall_mem_nil _) bank).mpr ⟨hne, hactive⟩

section Rank
variable {T R : Type} {lib : DramLib T M R} {timing : T}

/-- A rank that takes a REF whenever the last ACT or PRE was a PRE forgets an open bank only at a PRE of another one. -/
theorem closesAll_iff (href : ∀ {h post : List (Nat × M)}, tr = h ++ post →
    ((∃ ref : Nat × M, Is .REF ref.2 ∧ (executeAll lib (lib.rank timing) (h ++ [ref])).isSome = true) ↔ ¬ RowOpen h)) :
    ClosesAll tr ↔ RefreshSafeAnywhere lib timing tr := by
  rw [closesAll_iff_rows]
  constructor
  · intro hrows h post ref heq hop hsome
    exact hrows h post heq ((href heq).mp ⟨ref, hop, hsome⟩)
  · intro hsafe h post heq hrow
    obtain ⟨ref, hop, hsome⟩ := (href heq).mpr hrow
    exact hsafe h post ref heq hop hsome

/-- The REFs of an executed trace are among those that the rank takes. -/
theorem RefreshSafeAnywhere.refreshSafe (h : RefreshSafeAnywhere lib timing tr)
    (hall : (executeAll lib (lib.rank timing) tr).isSome = true) : RefreshSafe tr := by
  intro pre c post heq hc
  refine h pre (c :: post) c heq hc ?_
  rw [heq, List.append_cons, executeAll_append] at hall
  exact Option.isSome_of_isSome_bind hall

end Rank

end Trace

/-- **Refreshes.** An accepted DDR3 or DDR4 payload was visited from its start to its end. If no PRE of it finds another
bank active, all banks are precharged at every REF; and exactly then no REF, wherever the rank would take one, finds an
open bank. -/
theorem refresh_precharged_iff (ddr3 : Payload Ddr3.Timing Ddr3.MemInstr) (ddr4 : Payload Ddr4.Timing Ddr4.MemInstr) :
    (∀ (tr : List (Nat × Ddr3.MemInstr)) (s : State), Accepts Ddr3.lib ddr3 tr s → Unrolls Ddr3.lib ddr3 tr s ∧
      (ClosesAll tr → RefreshSafe tr) ∧ (ClosesAll tr ↔ RefreshSafeAnywhere Ddr3.lib ddr3.timing tr)) ∧
    ∀ (tr : List (Nat × Ddr4.MemInstr)) (s : State), Accepts Ddr4.lib ddr4 tr s → Unrolls Ddr4.lib ddr4 tr s ∧
      (ClosesAll tr → RefreshSafe tr) ∧ (ClosesAll tr ↔ RefreshSafeAnywhere Ddr4.lib ddr4.timing tr) := by
  refine ⟨fun tr s hacc => ?_, fun tr s hacc => ?_⟩
  · obtain ⟨-, -, rank, hall⟩ := Ddr3.accepts_executed hacc
    have hiff := closesAll_iff (Ddr3.exists_ref_iff hacc)
    exact ⟨hacc.unrolls, fun h => (hiff.mp h).refreshSafe (Option.isSome_of_mem hall), hiff⟩
  · obtain ⟨-, -, rank, hall⟩ := Ddr4.accepts_executed hacc
    have hiff := closesAll_iff (Ddr4.exists_ref_iff hacc)
    exact ⟨hacc.unrolls, fun h => (hiff.mp h).refreshSafe (Option.isSome_of_mem hall), hiff⟩

/-- A row is opened and closed, and the rank is refreshed. -/
def refreshClosed : Payload Ddr3.Timing Ddr3.MemInstr :=
  { timing := Ddr3.sampleTiming
    instr := [.mem ⟨.ACT, 32, 0, 0, 0⟩, .mem ⟨.PRE, 10, 0, 0, 0⟩, .mem ⟨.REF, 103, 0, 0, 0⟩] }

theorem refresh_precharged_iff_closed : ∃ tr s, Accepts Ddr3.lib refreshClosed tr s ∧ RefreshSafe tr := by
  have hacc : Accepts Ddr3.lib refreshClosed
    [(0, ⟨.ACT, 32, 0, 0, 0⟩), (32, ⟨.PRE, 10, 0, 0, 0⟩), (42, ⟨.REF, 103, 0, 0, 0⟩)]
      ⟨3, 145, 0⟩ := ⟨4, by decide +kernel⟩
  refine ⟨_, _, hacc, ((refresh_precharged_iff refreshClosed ⟨Ddr4.sampleTiming, []⟩).1 _ _ hacc).2.1 ?_⟩
  intro h p post heq hp bank hne hactive
  -- the only bank that is ever activated is the PRE's own
  obtain ⟨pre, x, rest, rfl, hx, -⟩ := hactive
  have hmem : ∀ y ∈ [(0, (⟨.ACT, 32, 0, 0, 0⟩ : Ddr3.MemInstr)), (32, ⟨.PRE, 10, 0, 0, 0⟩), (42, ⟨.REF, 103, 0, 0, 0⟩)],
      y.2.bank = 0 := by decide
  rw [heq] at hmem
  have hxbank : x.2.bank = 0 := hmem x (by simp)
  have hpbank : p.2.bank = 0 := hmem p (by simp)
  exact hne ((hx.2.symm.trans hxbank).trans hpbank.symm)

/-- Two banks are opened, one is closed, and the rank is refreshed. -/
def refreshOpen : Payload Ddr3.Timing Ddr3.MemInstr :=
  { timing := Ddr3.sampleTiming
    instr := [.mem ⟨.ACT, 5, 0, 0, 0⟩, .mem ⟨.ACT, 32, 0, 1, 0⟩, .mem ⟨.PRE, 10, 0, 1, 0⟩, .mem ⟨.REF, 103, 0, 0, 0⟩] }

/-- The checker accepts it, although bank 0 is open. -/
theorem refresh_open_accepted : ∃ tr s, Accepts Ddr3.lib refreshOpen tr s ∧ ¬ RefreshSafe tr := by
  refine ⟨[(0, ⟨.ACT, 5, 0, 0, 0⟩), (5, ⟨.ACT, 32, 0, 1, 0⟩), (37, ⟨.PRE, 10, 0, 1, 0⟩), (47, ⟨.REF, 103, 0, 0, 0⟩)],
    ⟨4, 150, 0⟩, ⟨5, by decide +kernel⟩, fun hsafe => ?_⟩
  refine hsafe [(0, ⟨.ACT, 5, 0, 0, 0⟩), (5, ⟨.ACT, 32, 0, 1, 0⟩), (37, ⟨.PRE, 10, 0, 1, 0⟩)]
    (47, ⟨.REF, 103, 0, 0, 0⟩) []
    rfl rfl 0 ⟨[], (0, ⟨.ACT, 5, 0, 0, 0⟩), [(5, ⟨.ACT, 32, 0, 1, 0⟩), (37, ⟨.PRE, 10, 0, 1, 0⟩)], rfl, ⟨rfl, rfl⟩, ?_⟩
  intro y hy hc
  rcases List.mem_cons.mp hy with rfl | hy
  · exact absurd hc.1 (by decide)
  · rw [List.mem_singleton.mp hy] at hc
    exact absurd hc.2 (by decide)

end RowhammerTester.Checker
