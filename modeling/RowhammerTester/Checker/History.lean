import RowhammerTester.Checker.Table
import Mathlib.Data.List.Induction

/-!
# Histories of commands

What the tables of banks and ranks remember, for the memory instructions of either library.

* `Command` : the op code and the bank of a memory instruction; `Is`, `IsAt`, `BankActive`, `RowOpen`, `acts` : what is
  said about a history of commands;
* `BankInv` : a bank's table as conditions on the history (`BankInv.concat_rd`, `.concat_act`, `.concat_pre`);
* `RefInv` : the entries of a rank that a REF sets. An ACT found every earlier REF finished, so that a PRE may overwrite
  the entry of REF.
-/

namespace RowhammerTester.Checker

/-- A memory instruction has an op code and names a bank. -/
class Command (M : Type) (B : outParam Type) where
  opcode : M → Opcode
  bank : M → B

section History
variable {M B : Type} [Command M B]

/-- The command has the op code `op`. -/
def Is (op : Opcode) (m : M) : Prop := Command.opcode m = op

/-- The command has the op code `op` and goes to `bank`. -/
def IsAt (op : Opcode) (bank : B) (m : M) : Prop := Command.opcode m = op ∧ Command.bank m = bank

/-- The bank was activated since its last PRE. -/
def BankActive (bank : B) (h : List (Nat × M)) : Prop := Active (IsAt .ACT bank) (IsAt .PRE bank) h

/-- The last ACT or PRE is an ACT. -/
def RowOpen (h : List (Nat × M)) : Prop := Active (Is .ACT) (Is .PRE) h

/-- The ticks of the activations. -/
def acts (h : List (Nat × M)) : List Nat := (h.filter fun x => Command.opcode x.2 = .ACT).map Prod.fst

theorem acts_concat (h : List (Nat × M)) (c : Nat × M) :
    acts (h ++ [c]) = if Command.opcode c.2 = .ACT then acts h ++ [c.1] else acts h := by
  unfold acts
  rw [List.filter_append, List.map_append]
  by_cases hop : Command.opcode c.2 = .ACT <;> simp [hop]

theorem acts_le {h : List (Nat × M)} {tick : Nat} (hticks : ∀ x ∈ h, x.1 ≤ tick) : ∀ a ∈ acts h, a ≤ tick := by
  intro a ha
  obtain ⟨x, hx, rfl⟩ := List.mem_map.mp ha
  exact hticks x (List.mem_filter.mp hx).1

/-- The deque of activations after a command. -/
theorem lastFour_acts_concat (h : List (Nat × M)) (c : Nat × M) : lastFour (acts (h ++ [c])) =
    if Command.opcode c.2 = .ACT then push (lastFour (acts h)) c.1 else lastFour (acts h) := by
  rw [acts_concat]
  by_cases hop : Command.opcode c.2 = .ACT
  · rw [if_pos hop, if_pos hop, lastFour_concat]
  · rw [if_neg hop, if_neg hop]

/-- Neither ACT nor PRE: the row state stays. -/
theorem rowOpen_concat_of_not {h : List (Nat × M)} {c : Nat × M} (hact : ¬ Is .ACT c.2) (hpre : ¬ Is .PRE c.2) :
    RowOpen (h ++ [c]) ↔ RowOpen h := active_concat_of_not hact hpre

theorem rowOpen_concat_of_act {h : List (Nat × M)} {c : Nat × M} (hact : Is .ACT c.2) : RowOpen (h ++ [c]) :=
  active_concat.mpr (Or.inl hact)

theorem not_rowOpen_concat_of_pre {h : List (Nat × M)} {c : Nat × M} (hpre : Is .PRE c.2) : ¬ RowOpen (h ++ [c]) := by
  unfold RowOpen
  rw [active_concat, not_or]
  refine ⟨fun hact => ?_, fun hc => hc.1 hpre⟩
  rw [Is, show Command.opcode c.2 = Opcode.PRE from hpre] at hact
  cases hact

/-- An open row is that of some bank. -/
theorem RowOpen.exists_bankActive {h : List (Nat × M)} (hrow : RowOpen h) : ∃ bank, BankActive bank h := by
  obtain ⟨pre, x, post, rfl, hx, hpost⟩ := hrow
  exact ⟨Command.bank x.2, pre, x, post, rfl, ⟨hx, rfl⟩, fun y hy hc => hpost y hy hc.1⟩

end History

/-! ## Banks -/

section Bank
variable {M B : Type} [Command M B] {rcd ras rtp rp : Nat} {bank : B} {h : List (Nat × M)} {c : Nat × M}
  {next : NextTick}

/-- A bank's table. -/
structure BankInv (rcd ras rtp rp : Nat) (bank : B) (h : List (Nat × M)) (next : NextTick) : Prop where
  rd : Tracks (next .RD) (BankActive bank h) (Apart (IsAt .ACT bank) rcd h)
  act : Tracks (next .ACT) (¬ BankActive bank h) (Apart (IsAt .PRE bank) rp h)
  pre : Tracks (next .PRE) True fun T => Apart (IsAt .ACT bank) ras h T ∧ Apart (IsAt .RD bank) rtp h T
  ref : next .REF = 0

theorem bankInv_start (rcd ras rtp rp : Nat) (bank : B) :
    BankInv rcd ras rtp rp bank ([] : List (Nat × M)) bankStart := by
  have hna : ¬ BankActive bank ([] : List (Nat × M)) := not_active_nil
  refine ⟨?_, ?_, tracks_zero fun _ => ⟨apart_nil _ _ _, apart_nil _ _ _⟩, rfl⟩
  · exact (tracks_top (C := fun _ => True)).congr (iff_of_false id hna) fun h => h.elim
  · exact (tracks_zero fun _ => apart_nil _ _ _).congr (iff_of_true trivial hna) fun _ _ => Iff.rfl

/-- A command that is not for the bank leaves its table in order. -/
theorem BankInv.concat_of_not (hb : BankInv rcd ras rtp rp bank h next) (hrd : ¬ IsAt .RD bank c.2)
    (hact : ¬ IsAt .ACT bank c.2) (hpre : ¬ IsAt .PRE bank c.2) : BankInv rcd ras rtp rp bank (h ++ [c]) next := by
  have hactive : BankActive bank h ↔ BankActive bank (h ++ [c]) := (active_concat_of_not hact hpre).symm
  refine ⟨hb.rd.congr hactive fun _ T => ?_, hb.act.congr (not_congr hactive) fun _ T => ?_,
    hb.pre.congr Iff.rfl fun _ T => ?_, hb.ref⟩
  · exact (apart_concat_of_not hact).symm
  · exact (apart_concat_of_not hpre).symm
  · exact and_congr (apart_concat_of_not hact).symm (apart_concat_of_not hrd).symm

theorem not_isAt {op op' : Opcode} (hop : Command.opcode c.2 = op) (hne : op ≠ op') : ¬ IsAt op' bank c.2 := by
  rintro ⟨h', -⟩
  exact hne (hop.symm.trans h')

theorem BankInv.concat_rd (hb : BankInv rcd ras rtp rp bank h next) (hrd : IsAt .RD bank c.2) :
    BankInv rcd ras rtp rp bank (h ++ [c]) (update (bankParameters rcd ras rtp rp) c.1 .RD next) := by
  have hact : ¬ IsAt .ACT bank c.2 := not_isAt hrd.1 (by decide)
  have hpre : ¬ IsAt .PRE bank c.2 := not_isAt hrd.1 (by decide)
  have hactive : BankActive bank h ↔ BankActive bank (h ++ [c]) := (active_concat_of_not hact hpre).symm
  simp only [update, bankParameters, List.foldl_cons, List.foldl_nil]
  refine ⟨?_, ?_, ?_, ?_⟩
  · rw [bump_of_ne _ _ (by decide)]
    exact hb.rd.congr hactive fun _ T => (apart_concat_of_not hact).symm
  · rw [bump_of_ne _ _ (by decide)]
    exact hb.act.congr (not_congr hactive) fun _ T => (apart_concat_of_not hpre).symm
  · rw [bump_self]
    refine (hb.pre.raise c.1 rtp).congr Iff.rfl fun _ T => ?_
    rw [apart_concat_of_not hact, apart_concat_of hrd, and_assoc]
  · rw [bump_of_ne _ _ (by decide)]
    exact hb.ref

theorem BankInv.concat_act (hb : BankInv rcd ras rtp rp bank h next) (hact : IsAt .ACT bank c.2)
    (hclosed : ¬ BankActive bank h) (hticks : ∀ x ∈ h, x.1 ≤ c.1) :
    BankInv rcd ras rtp rp bank (h ++ [c]) (update (bankParameters rcd ras rtp rp) c.1 .ACT next) := by
  have hrd : ¬ IsAt .RD bank c.2 := not_isAt hact.1 (by decide)
  have hactive : BankActive bank (h ++ [c]) := active_concat.mpr (Or.inl hact)
  simp only [update, bankParameters, List.foldl_cons, List.foldl_nil]
  refine ⟨?_, ?_, ?_, ?_⟩
  · rw [bump_of_ne _ _ (by decide), bump_of_ne _ _ (by decide), bump_self]
    refine (tracks_overwrite (hb.rd.1.mpr hclosed) c.1 rcd).congr (iff_of_true trivial hactive) fun _ T => ?_
    rw [apart_concat_of hact]
    exact ⟨fun hT => ⟨Apart.of_last hticks hT, hT⟩, fun hT => hT.2⟩
  · rw [bump_of_ne _ _ (by decide), bump_self]
    exact (tracks_forbid (C := fun _ => True) c.1).congr (iff_of_false id fun hc => hc hactive) fun hf => hf.elim
  · rw [bump_self, bump_of_ne _ _ (by decide), bump_of_ne _ _ (by decide)]
    refine (hb.pre.raise c.1 ras).congr Iff.rfl fun _ T => ?_
    rw [apart_concat_of hact, apart_concat_of_not hrd]
    exact and_right_comm
  · rw [bump_of_ne _ _ (by decide), bump_of_ne _ _ (by decide), bump_of_ne _ _ (by decide)]
    exact hb.ref

theorem BankInv.concat_pre (hb : BankInv rcd ras rtp rp bank h next) (hpre : IsAt .PRE bank c.2)
    (hticks : ∀ x ∈ h, x.1 ≤ c.1) :
    BankInv rcd ras rtp rp bank (h ++ [c]) (update (bankParameters rcd ras rtp rp) c.1 .PRE next) := by
  have hact : ¬ IsAt .ACT bank c.2 := not_isAt hpre.1 (by decide)
  have hrd : ¬ IsAt .RD bank c.2 := not_isAt hpre.1 (by decide)
  have hclosed : ¬ BankActive bank (h ++ [c]) := by
    unfold BankActive
    rw [active_concat, not_or]
    exact ⟨hact, fun hc => hc.1 hpre⟩
  simp only [update, bankParameters, List.foldl_cons, List.foldl_nil]
  refine ⟨?_, ?_, ?_, ?_⟩
  · rw [bump_of_ne _ _ (by decide), bump_self]
    exact (tracks_forbid (C := fun _ => True) c.1).congr (iff_of_false id hclosed) fun hf => hf.elim
  · rw [bump_self, bump_of_ne _ _ (by decide)]
    by_cases hopen : BankActive bank h
    · refine (tracks_overwrite (hb.act.1.mpr (not_not.mpr hopen)) c.1 rp).congr (iff_of_true trivial hclosed)
        fun _ T => ?_
      rw [apart_concat_of hpre]
      exact ⟨fun hT => ⟨Apart.of_last hticks hT, hT⟩, fun hT => hT.2⟩
    · have htrue := hb.act.congr (iff_of_true hopen trivial) fun _ _ => Iff.rfl
      refine (htrue.raise c.1 rp).congr (iff_of_true trivial hclosed) fun _ T => ?_
      rw [apart_concat_of hpre]
  · rw [bump_of_ne _ _ (by decide), bump_of_ne _ _ (by decide)]
    refine hb.pre.congr Iff.rfl fun _ T => ?_
    rw [apart_concat_of_not hact, apart_concat_of_not hrd]
  · rw [bump_of_ne _ _ (by decide), bump_of_ne _ _ (by decide)]
    exact hb.ref

/-- The op codes of memory instructions. -/
def MemOp (m : M) : Prop :=
  Command.opcode m = .RD ∨ Command.opcode m = .ACT ∨ Command.opcode m = .PRE ∨ Command.opcode m = .REF

/-- The bank of a command, after the table allowed it. -/
theorem BankInv.concat (hb : BankInv rcd ras rtp rp (Command.bank c.2) h next) (hop : MemOp c.2)
    (hticks : ∀ x ∈ h, x.1 ≤ c.1) (hallowed : next (Command.opcode c.2) ≤ c.1) :
    BankInv rcd ras rtp rp (Command.bank c.2) (h ++ [c])
      (update (bankParameters rcd ras rtp rp) c.1 (Command.opcode c.2) next) := by
  rcases hop with hop | hop | hop | hop
  · rw [hop]
    exact hb.concat_rd ⟨hop, rfl⟩
  · rw [hop] at hallowed ⊢
    exact hb.concat_act ⟨hop, rfl⟩ ((hb.act.2 c.1).mp hallowed).1 hticks
  · rw [hop]
    exact hb.concat_pre ⟨hop, rfl⟩ hticks
  · rw [hop]
    exact hb.concat_of_not (not_isAt hop (by decide)) (not_isAt hop (by decide)) (not_isAt hop (by decide))

/-- Any other bank. -/
theorem BankInv.concat_of_ne (hb : BankInv rcd ras rtp rp bank h next) (hne : Command.bank c.2 ≠ bank) :
    BankInv rcd ras rtp rp bank (h ++ [c]) next := by
  have hnot : ∀ op, ¬ IsAt op bank c.2 := fun op hc => hne hc.2
  exact hb.concat_of_not (hnot _) (hnot _) (hnot _)

end Bank

/-! ## Refreshes -/

section Ref
variable {M B : Type} [Command M B] {rp rfc : Nat} {h : List (Nat × M)} {c : Nat × M} {next next' : NextTick}

/-- The entries of PRE and REF in a rank's table. -/
structure RefInv (rp rfc : Nat) (h : List (Nat × M)) (next : NextTick) : Prop where
  pre : Tracks (next .PRE) True (Apart (Is .REF) rfc h)
  ref : Tracks (next .REF) (¬ RowOpen h) fun T => Apart (Is .PRE) rp h T ∧ Apart (Is .REF) rfc h T
  refDone : RowOpen h → ∀ T, (∀ x ∈ h, x.1 ≤ T) → Apart (Is .REF) rfc h T

theorem refInv_start (rp rfc : Nat) : RefInv rp rfc ([] : List (Nat × M)) fun _ => 0 := by
  refine ⟨tracks_zero fun _ => apart_nil _ _ _, ?_, fun h => absurd h not_active_nil⟩
  refine (tracks_zero fun T => ?_).congr (iff_of_true trivial not_active_nil) fun _ _ => Iff.rfl
  exact ⟨apart_nil _ _ _, apart_nil _ _ _⟩

theorem not_is {op op' : Opcode} (hop : Command.opcode c.2 = op) (hne : op ≠ op') : ¬ Is op' c.2 := fun h' =>
  hne (hop.symm.trans h')

theorem RefInv.concat_rd (hr : RefInv rp rfc h next) (hrd : Is .RD c.2) (hp : next' .PRE = next .PRE)
    (hf : next' .REF = next .REF) : RefInv rp rfc (h ++ [c]) next' := by
  have hact : ¬ Is .ACT c.2 := not_is hrd (by decide)
  have hpre : ¬ Is .PRE c.2 := not_is hrd (by decide)
  have href : ¬ Is .REF c.2 := not_is hrd (by decide)
  have hrow : RowOpen (h ++ [c]) ↔ RowOpen h := rowOpen_concat_of_not hact hpre
  refine ⟨?_, ?_, fun hopen T hT => ?_⟩
  · rw [hp]
    exact hr.pre.congr Iff.rfl fun _ T => (apart_concat_of_not href).symm
  · rw [hf]
    exact hr.ref.congr (not_congr hrow.symm) fun _ T =>
      and_congr (apart_concat_of_not hpre).symm (apart_concat_of_not href).symm
  · exact (apart_concat_of_not href).mpr (hr.refDone (hrow.mp hopen) T fun x hx => hT x (by simp [hx]))

/-- An ACT forbids REF; it came at least `rfc` after every REF. -/
theorem RefInv.concat_act (hr : RefInv rp rfc h next) (hact : Is .ACT c.2) (hdone : Apart (Is .REF) rfc h c.1)
    (hp : next' .PRE = next .PRE) (hf : next' .REF = raise (next .REF) (c.1 + ⊤)) : RefInv rp rfc (h ++ [c]) next' := by
  have href : ¬ Is .REF c.2 := not_is hact (by decide)
  have hrow : RowOpen (h ++ [c]) := rowOpen_concat_of_act hact
  refine ⟨?_, ?_, fun _ T hT => ?_⟩
  · rw [hp]
    exact hr.pre.congr Iff.rfl fun _ T => (apart_concat_of_not href).symm
  · rw [hf]
    exact (tracks_forbid (C := fun _ => True) c.1).congr (iff_of_false id fun hc => hc hrow) fun hf => hf.elim
  · have htick : c.1 ≤ T := hT c (by simp)
    exact (apart_concat_of_not href).mpr fun x hx hx' => (hdone x hx hx').trans htick

/-- A PRE allows REF again; an overwritten entry forgets the REFs, which are finished. -/
theorem RefInv.concat_pre (hr : RefInv rp rfc h next) (hpre : Is .PRE c.2) (hticks : ∀ x ∈ h, x.1 ≤ c.1)
    (hp : next' .PRE = next .PRE) (hf : next' .REF = raise (next .REF) (c.1 + (rp : Nat))) :
    RefInv rp rfc (h ++ [c]) next' := by
  have href : ¬ Is .REF c.2 := not_is hpre (by decide)
  have hrow : ¬ RowOpen (h ++ [c]) := not_rowOpen_concat_of_pre hpre
  refine ⟨?_, ?_, fun hopen => absurd hopen hrow⟩
  · rw [hp]
    exact hr.pre.congr Iff.rfl fun _ T => (apart_concat_of_not href).symm
  · rw [hf]
    by_cases hopen : RowOpen h
    · refine (tracks_overwrite (hr.ref.1.mpr (not_not.mpr hopen)) c.1 rp).congr (iff_of_true trivial hrow)
        fun _ T => ?_
      rw [apart_concat_of hpre, apart_concat_of_not href]
      refine ⟨fun hT => ⟨⟨Apart.of_last hticks hT, hT⟩, hr.refDone hopen T fun x hx => ?_⟩, fun hT => hT.1.2⟩
      have := hticks x hx
      omega
    · have htrue := hr.ref.congr (iff_of_true hopen trivial) fun _ _ => Iff.rfl
      refine (htrue.raise c.1 rp).congr (iff_of_true trivial hrow) fun _ T => ?_
      rw [apart_concat_of hpre, apart_concat_of_not href]
      exact and_right_comm

theorem RefInv.concat_ref (hr : RefInv rp rfc h next) (href : Is .REF c.2) (hallowed : next .REF ≤ c.1)
    (hp : next' .PRE = raise (next .PRE) (c.1 + (rfc : Nat)))
    (hf : next' .REF = raise (next .REF) (c.1 + (rfc : Nat))) :
    RefInv rp rfc (h ++ [c]) next' := by
  have hact : ¬ Is .ACT c.2 := not_is href (by decide)
  have hpre : ¬ Is .PRE c.2 := not_is href (by decide)
  have hclosed : ¬ RowOpen h := ((hr.ref.2 c.1).mp hallowed).1
  have hrow : ¬ RowOpen (h ++ [c]) := fun hc => hclosed ((rowOpen_concat_of_not hact hpre).mp hc)
  refine ⟨?_, ?_, fun hopen => absurd hopen hrow⟩
  · rw [hp]
    exact (hr.pre.raise c.1 rfc).congr Iff.rfl fun _ T => (apart_concat_of href).symm
  · rw [hf]
    have htrue := hr.ref.congr (iff_of_true hclosed trivial) fun _ _ => Iff.rfl
    refine (htrue.raise c.1 rfc).congr (iff_of_true trivial hrow) fun _ T => ?_
    rw [apart_concat_of_not hpre, apart_concat_of href, and_assoc]

end Ref

end RowhammerTester.Checker
