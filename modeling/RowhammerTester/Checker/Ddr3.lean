import RowhammerTester.Checker.History

/-!
# `ddr3lib`

* `MemInstr`, `Timing`, `verifyMem` : the DDR3 messages and their check; `Rank.execute` : one command, `lib` : the
  library;
* `Legal t h c` : the command `c` after the history `h` keeps the rules of DDR3;
* `Inv` : the rank's tables as conditions on the history; `execute_isSome_iff` : a command is executed exactly when it
  is legal and, if it is a REF, the last ACT or PRE was a PRE; `inv_execute` : the invariant goes on.
-/

namespace RowhammerTester.Checker.Ddr3

structure Timing where
  tickPs : Nat
  ras : Nat
  rp : Nat
  rfc : Nat
  rcd : Nat
  ccd : Nat
  rtp : Nat
  rrd : Nat
  faw : Nat
deriving DecidableEq, Repr

def Timing.fields (t : Timing) : List (String × Nat) :=
  [("tick_ps", t.tickPs), ("ras", t.ras), ("rp", t.rp), ("rfc", t.rfc), ("rcd", t.rcd), ("ccd", t.ccd), ("rtp", t.rtp),
    ("rrd", t.rrd), ("faw", t.faw)]

structure MemInstr where
  opcode : Opcode
  timeslice : Nat
  rank : Nat
  bank : Nat
  addr : Nat
deriving DecidableEq, Repr

/-- `VerifyInstr` on memory instructions: `TIMESLICE` is 8 bits, `BANK` 3 and `ADDR` 16. -/
def verifyMem (mem : MemInstr) : Bool :=
  (mem.opcode = .RD ∨ mem.opcode = .ACT ∨ mem.opcode = .PRE ∨ mem.opcode = .REF) ∧
    (0 < mem.timeslice ∧ mem.timeslice < 1 <<< 8) ∧ mem.rank = 0 ∧ mem.bank < 1 <<< 3 ∧ mem.addr < 1 <<< 16 ∧
    -- only sequential bursts
    ¬ (mem.opcode = .RD ∧ mem.addr % 8 ≠ 0)

/-- `Bank.parameters`. -/
def Bank.parameters (t : Timing) : Parameters := bankParameters t.rcd t.ras t.rtp t.rp

/-- `Bank.Execute`. -/
def Bank.execute (t : Timing) (next : NextTick) (tick : Nat) (instr : MemInstr) : Option NextTick :=
  executeTable (Bank.parameters t) next tick instr.opcode

/-- A rank; its banks are their next-tick tables. -/
structure Rank where
  timing : Timing
  nextTick : NextTick
  prevActs : List Nat
  banks : Nat → NextTick

def Rank.parameters (t : Timing) : Parameters
  | .RD => [(.RD, t.ccd)]
  | .ACT => [(.ACT, t.rrd), (.REF, ⊤)]
  | .PRE => [(.REF, t.rp)]
  | .REF => [(.ACT, t.rfc), (.PRE, t.rfc), (.REF, t.rfc)]
  | _ => []

/-- `Rank(timing)`. -/
def Rank.init (t : Timing) : Rank :=
  { timing := t, nextTick := fun _ => 0, prevActs := [], banks := fun _ => bankStart }

/-- The tFAW test of an ACT. -/
def Rank.fawViolation (rank : Rank) (tick : Nat) : Prop := WindowViolation rank.timing.faw rank.prevActs tick

instance (rank : Rank) (tick : Nat) : Decidable (rank.fawViolation tick) :=
  inferInstanceAs (Decidable (WindowViolation _ _ _))

/-- `Rank.Execute`. -/
def Rank.execute (rank : Rank) (tick : Nat) (instr : MemInstr) : Option Rank :=
  if (tick : ℕ∞) < rank.nextTick instr.opcode then none
  else if instr.opcode = .ACT ∧ rank.fawViolation tick then none
  else
    match Bank.execute rank.timing (rank.banks instr.bank) tick instr with
    | none => none
    | some bank => some
      { rank with
        prevActs := if instr.opcode = .ACT then push rank.prevActs tick else rank.prevActs
        banks := Function.update rank.banks instr.bank bank
        nextTick := update (Rank.parameters rank.timing) tick instr.opcode rank.nextTick }

/-- The library. -/
def lib : DramLib Timing MemInstr Rank :=
  { fields := Timing.fields, verifyMem := verifyMem, timeslice := MemInstr.timeslice, rank := Rank.init,
    execute := Rank.execute }

instance : Command MemInstr Nat := ⟨MemInstr.opcode, MemInstr.bank⟩

/-! ## The rules of DDR3 -/

/-- The command `c` after the history `h`: its delays to all earlier commands, the five-activation window, and the state
of its bank. -/
structure Legal (t : Timing) (h : List (Nat × MemInstr)) (c : Nat × MemInstr) : Prop where
  actRd : c.2.opcode = .RD → Apart (IsAt .ACT c.2.bank) t.rcd h c.1
  actPre : c.2.opcode = .PRE → Apart (IsAt .ACT c.2.bank) t.ras h c.1
  rdPre : c.2.opcode = .PRE → Apart (IsAt .RD c.2.bank) t.rtp h c.1
  preAct : c.2.opcode = .ACT → Apart (IsAt .PRE c.2.bank) t.rp h c.1
  rdRd : c.2.opcode = .RD → Apart (Is .RD) t.ccd h c.1
  actAct : c.2.opcode = .ACT → Apart (Is .ACT) t.rrd h c.1
  preRef : c.2.opcode = .REF → Apart (Is .PRE) t.rp h c.1
  refAny : c.2.opcode = .ACT ∨ c.2.opcode = .PRE ∨ c.2.opcode = .REF → Apart (Is .REF) t.rfc h c.1
  faw : c.2.opcode = .ACT → ∀ pre a mid, acts h = pre ++ a :: mid → mid.length = 3 → a + t.faw ≤ c.1
  rdActive : c.2.opcode = .RD → BankActive c.2.bank h
  actPrecharged : c.2.opcode = .ACT → ¬ BankActive c.2.bank h

/-! ## The tables as conditions -/

/-- The rank's own table. -/
structure RankInv (t : Timing) (h : List (Nat × MemInstr)) (next : NextTick) : Prop where
  rd : Tracks (next .RD) True (Apart (Is .RD) t.ccd h)
  act : Tracks (next .ACT) True fun T => Apart (Is .ACT) t.rrd h T ∧ Apart (Is .REF) t.rfc h T
  ref : RefInv t.rp t.rfc h next

/-- The rank after the history `h`. -/
structure Inv (t : Timing) (h : List (Nat × MemInstr)) (rank : Rank) : Prop where
  timing : rank.timing = t
  nextTick : RankInv t h rank.nextTick
  prevActs : rank.prevActs = lastFour (acts h)
  banks : ∀ bank, BankInv t.rcd t.ras t.rtp t.rp bank h (rank.banks bank)

theorem inv_init (t : Timing) : Inv t [] (Rank.init t) :=
  ⟨rfl, ⟨tracks_zero fun _ => apart_nil _ _ _, tracks_zero fun _ => ⟨apart_nil _ _ _, apart_nil _ _ _⟩,
    refInv_start t.rp t.rfc⟩, rfl, fun bank => bankInv_start _ _ _ _ bank⟩

/-! ## One command -/

section Execute
variable {t : Timing} {h : List (Nat × MemInstr)} {rank rank' : Rank} {tick : Nat} {instr : MemInstr}

/-- The three tests of `Rank.Execute`, and the rank it leaves. -/
theorem execute_eq_some : rank.execute tick instr = some rank' ↔
    (rank.nextTick instr.opcode ≤ tick ∧ ¬ (instr.opcode = .ACT ∧ rank.fawViolation tick) ∧
      rank.banks instr.bank instr.opcode ≤ tick) ∧
    rank' = { rank with
      prevActs := if instr.opcode = .ACT then push rank.prevActs tick else rank.prevActs
      banks := Function.update rank.banks instr.bank
        (update (Bank.parameters rank.timing) tick instr.opcode (rank.banks instr.bank))
      nextTick := update (Rank.parameters rank.timing) tick instr.opcode rank.nextTick } := by
  unfold Rank.execute Bank.execute executeTable
  by_cases h1 : (tick : ℕ∞) < rank.nextTick instr.opcode
  · rw [if_pos h1]
    exact iff_of_false (by simp) fun hc => absurd hc.1.1 (not_le.mpr h1)
  · rw [if_neg h1]
    by_cases h2 : instr.opcode = .ACT ∧ rank.fawViolation tick
    · rw [if_pos h2]
      exact iff_of_false (by simp) fun hc => hc.1.2.1 h2
    · rw [if_neg h2]
      by_cases h3 : (tick : ℕ∞) < rank.banks instr.bank instr.opcode
      · rw [if_pos h3]
        exact iff_of_false (by simp) fun hc => absurd hc.1.2.2 (not_le.mpr h3)
      · rw [if_neg h3, and_iff_right ⟨not_lt.mp h1, h2, not_lt.mp h3⟩, Option.some_inj]
        exact eq_comm

theorem execute_isSome : (rank.execute tick instr).isSome = true ↔
    rank.nextTick instr.opcode ≤ tick ∧ ¬ (instr.opcode = .ACT ∧ rank.fawViolation tick) ∧
      rank.banks instr.bank instr.opcode ≤ tick := by
  rw [Option.isSome_iff_exists]
  constructor
  · rintro ⟨rank', h⟩
    exact (execute_eq_some.mp h).1
  · intro h
    exact ⟨_, execute_eq_some.mpr ⟨h, rfl⟩⟩

/-- The deque and the window of five activations. -/
theorem fawViolation_iff (hinv : Inv t h rank) (hticks : ∀ x ∈ h, x.1 ≤ tick) :
    ¬ rank.fawViolation tick ↔ ∀ pre a mid, acts h = pre ++ a :: mid → mid.length = 3 → a + t.faw ≤ tick := by
  rw [Rank.fawViolation, hinv.prevActs, hinv.timing, not_windowViolation_iff (acts_le hticks)]

/-- **One command.** It is executed exactly when it is legal and, if it is a REF, the last ACT or PRE is a PRE. -/
theorem execute_isSome_iff (hinv : Inv t h rank) (hticks : ∀ x ∈ h, x.1 ≤ tick) (hop : MemOp instr) :
    (rank.execute tick instr).isSome = true ↔ Legal t h (tick, instr) ∧ (instr.opcode = .REF → ¬ RowOpen h) := by
  have hbank := hinv.banks instr.bank
  have hop' : instr.opcode = .RD ∨ instr.opcode = .ACT ∨ instr.opcode = .PRE ∨ instr.opcode = .REF := hop
  rw [execute_isSome]
  rcases hop' with hop | hop | hop | hop
  · rw [hop, hinv.nextTick.rd.2, hbank.rd.2]
    constructor
    · rintro ⟨⟨-, hrd⟩, -, hact, hrcd⟩
      exact ⟨⟨fun _ => hrcd, by simp [hop], by simp [hop], by simp [hop], fun _ => hrd, by simp [hop], by simp [hop],
        by simp [hop], by simp [hop], fun _ => hact, by simp [hop]⟩, by simp⟩
    · rintro ⟨hl, -⟩
      exact ⟨⟨trivial, hl.rdRd hop⟩, by simp, hl.rdActive hop, hl.actRd hop⟩
  · rw [hop, hinv.nextTick.act.2, hbank.act.2, and_iff_right rfl, fawViolation_iff hinv hticks]
    constructor
    · rintro ⟨⟨-, hrrd, hrfc⟩, hwin, hpre, hrp⟩
      exact ⟨⟨by simp [hop], by simp [hop], by simp [hop], fun _ => hrp, by simp [hop], fun _ => hrrd, by simp [hop],
        fun _ => hrfc, fun _ => hwin, by simp [hop], fun _ => hpre⟩, by simp⟩
    · rintro ⟨hl, -⟩
      exact ⟨⟨trivial, hl.actAct hop, hl.refAny (Or.inl hop)⟩, hl.faw hop, hl.actPrecharged hop, hl.preAct hop⟩
  · rw [hop, hinv.nextTick.ref.pre.2, hbank.pre.2]
    constructor
    · rintro ⟨⟨-, hrfc⟩, -, -, hras, hrtp⟩
      exact ⟨⟨by simp [hop], fun _ => hras, fun _ => hrtp, by simp [hop], by simp [hop], by simp [hop], by simp [hop],
        fun _ => hrfc, by simp [hop], by simp [hop], by simp [hop]⟩, by simp⟩
    · rintro ⟨hl, -⟩
      exact ⟨⟨trivial, hl.refAny (Or.inr (Or.inl hop))⟩, by simp, trivial, hl.actPre hop, hl.rdPre hop⟩
  · rw [hop, hinv.nextTick.ref.ref.2, hbank.ref]
    constructor
    · rintro ⟨⟨hrow, hrp, hrfc⟩, -, -⟩
      exact ⟨⟨by simp [hop], by simp [hop], by simp [hop], by simp [hop], by simp [hop], by simp [hop], fun _ => hrp,
        fun _ => hrfc, by simp [hop], by simp [hop], by simp [hop]⟩, fun _ => hrow⟩
    · rintro ⟨hl, hrow⟩
      exact ⟨⟨hrow rfl, hl.preRef hop, hl.refAny (Or.inr (Or.inr hop))⟩, by simp, zero_le⟩

/-! ## The invariant along a run -/

/-- The banks after a command that they allowed. -/
theorem banks_concat (hinv : Inv t h rank) (hticks : ∀ x ∈ h, x.1 ≤ tick) (hop : MemOp instr)
    (hallowed : rank.banks instr.bank instr.opcode ≤ tick) (bank : Nat) :
    BankInv t.rcd t.ras t.rtp t.rp bank (h ++ [(tick, instr)]) (Function.update rank.banks instr.bank
      (update (Bank.parameters t) tick instr.opcode (rank.banks instr.bank)) bank) := by
  by_cases hb : bank = instr.bank
  · rw [hb, Function.update_self]
    exact (hinv.banks instr.bank).concat (c := (tick, instr)) hop hticks hallowed
  · rw [Function.update_of_ne hb]
    exact (hinv.banks bank).concat_of_ne (Ne.symm hb)

theorem RankInv.concat_rd {next : NextTick} {c : Nat × MemInstr} (hr : RankInv t h next) (hrd : Is .RD c.2) :
    RankInv t (h ++ [c]) (update (Rank.parameters t) c.1 .RD next) := by
  have hact : ¬ Is .ACT c.2 := not_is hrd (by decide)
  have href : ¬ Is .REF c.2 := not_is hrd (by decide)
  simp only [update, Rank.parameters, List.foldl_cons, List.foldl_nil]
  refine ⟨?_, ?_, hr.ref.concat_rd hrd (bump_of_ne _ _ (by decide) _) (bump_of_ne _ _ (by decide) _)⟩
  · rw [bump_self]
    exact (hr.rd.raise c.1 t.ccd).congr Iff.rfl fun _ T => (apart_concat_of hrd).symm
  · rw [bump_of_ne _ _ (by decide)]
    exact hr.act.congr Iff.rfl fun _ T => and_congr (apart_concat_of_not hact).symm (apart_concat_of_not href).symm

theorem RankInv.concat_act {next : NextTick} {c : Nat × MemInstr} (hr : RankInv t h next) (hact : Is .ACT c.2)
    (hallowed : next .ACT ≤ c.1) : RankInv t (h ++ [c]) (update (Rank.parameters t) c.1 .ACT next) := by
  have hrd : ¬ Is .RD c.2 := not_is hact (by decide)
  have href : ¬ Is .REF c.2 := not_is hact (by decide)
  have hdone : Apart (Is .REF) t.rfc h c.1 := ((hr.act.2 c.1).mp hallowed).2.2
  simp only [update, Rank.parameters, List.foldl_cons, List.foldl_nil]
  refine ⟨?_, ?_, hr.ref.concat_act hact hdone ?_ ?_⟩
  · rw [bump_of_ne _ _ (by decide), bump_of_ne _ _ (by decide)]
    exact hr.rd.congr Iff.rfl fun _ T => (apart_concat_of_not hrd).symm
  · rw [bump_of_ne _ _ (by decide), bump_self]
    refine (hr.act.raise c.1 t.rrd).congr Iff.rfl fun _ T => ?_
    rw [apart_concat_of hact, apart_concat_of_not href]
    exact and_right_comm
  · rw [bump_of_ne _ _ (by decide), bump_of_ne _ _ (by decide)]
  · rw [bump_self, bump_of_ne _ _ (by decide)]

theorem RankInv.concat_pre {next : NextTick} {c : Nat × MemInstr} (hr : RankInv t h next) (hpre : Is .PRE c.2)
    (hticks : ∀ x ∈ h, x.1 ≤ c.1) : RankInv t (h ++ [c]) (update (Rank.parameters t) c.1 .PRE next) := by
  have hrd : ¬ Is .RD c.2 := not_is hpre (by decide)
  have hact : ¬ Is .ACT c.2 := not_is hpre (by decide)
  have href : ¬ Is .REF c.2 := not_is hpre (by decide)
  simp only [update, Rank.parameters, List.foldl_cons, List.foldl_nil]
  refine ⟨?_, ?_, hr.ref.concat_pre hpre hticks (bump_of_ne _ _ (by decide) _) (bump_self _ _ _ _)⟩
  · rw [bump_of_ne _ _ (by decide)]
    exact hr.rd.congr Iff.rfl fun _ T => (apart_concat_of_not hrd).symm
  · rw [bump_of_ne _ _ (by decide)]
    exact hr.act.congr Iff.rfl fun _ T => and_congr (apart_concat_of_not hact).symm (apart_concat_of_not href).symm

theorem RankInv.concat_ref {next : NextTick} {c : Nat × MemInstr} (hr : RankInv t h next) (href : Is .REF c.2)
    (hallowed : next .REF ≤ c.1) : RankInv t (h ++ [c]) (update (Rank.parameters t) c.1 .REF next) := by
  have hrd : ¬ Is .RD c.2 := not_is href (by decide)
  have hact : ¬ Is .ACT c.2 := not_is href (by decide)
  simp only [update, Rank.parameters, List.foldl_cons, List.foldl_nil]
  refine ⟨?_, ?_, hr.ref.concat_ref href hallowed ?_ ?_⟩
  · rw [bump_of_ne _ _ (by decide), bump_of_ne _ _ (by decide), bump_of_ne _ _ (by decide)]
    exact hr.rd.congr Iff.rfl fun _ T => (apart_concat_of_not hrd).symm
  · rw [bump_of_ne _ _ (by decide), bump_of_ne _ _ (by decide), bump_self]
    refine (hr.act.raise c.1 t.rfc).congr Iff.rfl fun _ T => ?_
    rw [apart_concat_of_not hact, apart_concat_of href, and_assoc]
  · rw [bump_of_ne _ _ (by decide), bump_self, bump_of_ne _ _ (by decide)]
  · rw [bump_self, bump_of_ne _ _ (by decide), bump_of_ne _ _ (by decide)]

/-- The invariant after an executed command. -/
theorem inv_execute (hinv : Inv t h rank) (hticks : ∀ x ∈ h, x.1 ≤ tick) (hop : MemOp instr)
    (hexec : rank.execute tick instr = some rank') : Inv t (h ++ [(tick, instr)]) rank' := by
  obtain ⟨⟨hrank, -, hbank⟩, rfl⟩ := execute_eq_some.mp hexec
  have hbanks := banks_concat hinv hticks hop hbank
  have hop' : instr.opcode = .RD ∨ instr.opcode = .ACT ∨ instr.opcode = .PRE ∨ instr.opcode = .REF := hop
  refine ⟨hinv.timing, ?_, by rw [hinv.prevActs]; exact (lastFour_acts_concat h (tick, instr)).symm,
    by simp only [hinv.timing]; exact hbanks⟩
  simp only [hinv.timing]
  rcases hop' with hop | hop | hop | hop
  · rw [hop]
    exact hinv.nextTick.concat_rd (c := (tick, instr)) hop
  · rw [hop] at hrank ⊢
    exact hinv.nextTick.concat_act (c := (tick, instr)) hop hrank
  · rw [hop]
    exact hinv.nextTick.concat_pre (c := (tick, instr)) hop hticks
  · rw [hop] at hrank ⊢
    exact hinv.nextTick.concat_ref (c := (tick, instr)) hop hrank

end Execute

/-! ## Traces -/

theorem memOp_of_verifyMem {m : MemInstr} (h : verifyMem m = true) : MemOp m := by
  simp only [verifyMem, decide_eq_true_eq] at h
  exact h.1

theorem timeslice_pos_of_verifyMem {m : MemInstr} (h : verifyMem m = true) : 0 < m.timeslice := by
  simp only [verifyMem, decide_eq_true_eq] at h
  exact h.2.1.1

theorem timed_of_verified {payload : Payload Timing MemInstr} (hver : Verified lib payload) : Timed lib payload.instr :=
  hver.timed fun _ hm => timeslice_pos_of_verifyMem hm

/-- Every command of an executed trace was legal when it was issued. -/
theorem executeAll_legal {t : Timing} (tr : List (Nat × MemInstr)) (hinc : Increasing 0 tr)
    (hmem : ∀ x ∈ tr, MemOp x.2) (rank : Rank) (hall : executeAll lib (Rank.init t) tr = some rank) :
    Inv t tr rank ∧ ∀ h c post, tr = h ++ c :: post → Legal t h c ∧ (c.2.opcode = .REF → ¬ RowOpen h) := by
  refine executeAll_induction MemOp (inv_init t) (fun h c rank rank' hinv hticks hop hexec => ?_) tr hinc hmem rank hall
  refine ⟨inv_execute hinv hticks hop hexec, (execute_isSome_iff hinv hticks hop).mp ?_⟩
  rw [show rank.execute c.1 c.2 = some rank' from hexec]
  rfl

/-- The rank at the end of the trace of an accepted payload. -/
theorem accepts_executed {payload : Payload Timing MemInstr} {tr : List (Nat × MemInstr)} {s : State}
    (hacc : Accepts lib payload tr s) : Increasing 0 tr ∧ (∀ x ∈ tr, MemOp x.2) ∧
      ∃ rank, executeAll lib (lib.rank payload.timing) tr = some rank := by
  obtain ⟨-, hver, fuel, rank, hloop⟩ := accepts_iff.mp hacc
  have htimed : Timed lib payload.instr := timed_of_verified hver
  have hmem : ∀ x ∈ tr, MemOp x.2 := fun x hx => memOp_of_verifyMem (hver.visited hloop x hx)
  exact ⟨mainLoop_increasing htimed hloop, hmem, rank, mainLoop_ok hloop⟩

/-- Every command of an accepted payload was legal, and every REF found the last row command to be a PRE. -/
theorem accepts_legal {payload : Payload Timing MemInstr} {tr : List (Nat × MemInstr)} {s : State}
    (hacc : Accepts lib payload tr s) :
    ∀ h c post, tr = h ++ c :: post → Legal payload.timing h c ∧ (c.2.opcode = .REF → ¬ RowOpen h) := by
  obtain ⟨hinc, hmem, rank, hall⟩ := accepts_executed hacc
  exact (executeAll_legal tr hinc hmem rank hall).2

/-- After a beginning of an accepted trace the rank takes a REF, at some tick, exactly when the last ACT or PRE was a
PRE. -/
theorem exists_ref_iff {payload : Payload Timing MemInstr} {tr h post : List (Nat × MemInstr)} {s : State}
    (hacc : Accepts lib payload tr s) (heq : tr = h ++ post) :
    (∃ ref : Nat × MemInstr, Is .REF ref.2 ∧
      (executeAll lib (lib.rank payload.timing) (h ++ [ref])).isSome = true) ↔ ¬ RowOpen h := by
  obtain ⟨hinc, hmem, rank, hall⟩ := accepts_executed hacc
  subst heq
  rw [executeAll_append, Option.bind_eq_some_iff] at hall
  obtain ⟨rank₁, hall₁, -⟩ := hall
  have hinv := (executeAll_legal h hinc.left (fun x hx => hmem x (by simp [hx])) rank₁ hall₁).1
  rw [← hinv.nextTick.ref.ref.exists_tick]
  constructor
  · rintro ⟨⟨T, ref⟩, href, hsome⟩
    rw [isSome_executeAll_concat hall₁] at hsome
    have hop : ref.opcode = .REF := href
    have htick := (execute_isSome.mp hsome).1
    rw [hop] at htick
    exact ⟨T, htick⟩
  · rintro ⟨T, hT⟩
    refine ⟨(T, ⟨.REF, 1, 0, 0, 0⟩), rfl, ?_⟩
    rw [isSome_executeAll_concat hall₁]
    refine execute_isSome.mpr ⟨hT, by simp, ?_⟩
    rw [(hinv.banks 0).ref]
    exact zero_le

/-- **The DDR3 checker.** A payload with positive timings and legal instructions, without nested JMPs, unrolls into a
trace `u`, and the main loop ends. When it accepts, it has visited all of `u`, and every command is legal after those
before it. When it rejects, it has visited a beginning of `u`, whose last command is not legal, or is a REF and some
bank is active. -/
theorem checker_sound_complete (payload : Payload Timing MemInstr) (hpos : PositiveTiming lib payload)
    (hver : Verified lib payload) (hnest : NoNestedJmp payload.instr) :
    ∃ u s₀, Unrolls lib payload u s₀ ∧
      (∃ tr s, Accepts lib payload tr s ∨ Rejects lib payload tr s) ∧
      (∀ tr s, Accepts lib payload tr s → tr = u ∧ s = s₀ ∧
        ∀ h c post, u = h ++ c :: post → Legal payload.timing h c) ∧
      ∀ tr s, Rejects lib payload tr s → tr <+: u ∧ ∃ h c, tr = h ++ [c] ∧
        (¬ Legal payload.timing h c ∨ c.2.opcode = .REF ∧ ∃ bank, BankActive bank h) := by
  obtain ⟨u, s₀, hu⟩ := hver.exists_unrolls hnest
  have htimed : Timed lib payload.instr := timed_of_verified hver
  refine ⟨u, s₀, hu, ?_, fun tr s hacc => ?_, fun tr s hrej => ⟨hrej.isPrefix hu, ?_⟩⟩
  · obtain ⟨fuel, tr, res, hloop⟩ := exists_mainLoop lib hnest hver.backward State.start (lib.rank payload.timing)
    cases res with
    | ok s rank => exact ⟨tr, s, Or.inl (accepts_iff.mpr ⟨hpos, hver, fuel, rank, hloop⟩)⟩
    | failed s => exact ⟨tr, s, Or.inr (rejects_iff.mpr ⟨hpos, hver, fuel, hloop⟩)⟩
    | illegal s => exact absurd hloop (hver.not_illegal _ _ _ _ _)
  · obtain ⟨rfl, rfl⟩ := hacc.unrolls.unique hu
    exact ⟨rfl, rfl, fun h c post heq => (accepts_legal hacc h c post heq).1⟩
  · obtain ⟨-, -, fuel, hloop⟩ := rejects_iff.mp hrej
    obtain ⟨h, m, rank, rfl, hall, hfail⟩ := mainLoop_failed hloop
    have hmem : ∀ x ∈ h ++ [(s.tick, m)], MemOp x.2 := fun x hx => memOp_of_verifyMem (hver.visited hloop x hx)
    have hinc := mainLoop_increasing htimed hloop
    obtain ⟨hinv, -⟩ := executeAll_legal h hinc.left (fun x hx => hmem x (by simp [hx])) rank hall
    have hticks : ∀ x ∈ h, x.1 ≤ s.tick := fun x hx => Nat.le_of_lt (hinc.lt_of_append x hx (s.tick, m) (by simp))
    refine ⟨h, (s.tick, m), rfl, ?_⟩
    by_contra hnot
    rw [not_or, not_not] at hnot
    have hsome : (rank.execute s.tick m).isSome = true :=
      (execute_isSome_iff hinv hticks (hmem (s.tick, m) (by simp))).mpr
        ⟨hnot.1, fun href hrow => hnot.2 ⟨href, hrow.exists_bankActive⟩⟩
    rw [show rank.execute s.tick m = none from hfail] at hsome
    cases hsome

/-- The timings of the sample payloads. -/
def sampleTiming : Timing :=
  { tickPs := 1000, ras := 32, rp := 10, rfc := 103, rcd := 10, ccd := 4, rtp := 8, rrd := 5, faw := 26 }

/-- The sample payload that hammers a row, with one jump. -/
def hammer : Payload Timing MemInstr :=
  { timing := sampleTiming
    instr := [.mem ⟨.ACT, 32, 0, 0, 0⟩, .mem ⟨.PRE, 9, 0, 0, 0⟩, .jmp ⟨.JMP, 2, 1⟩] }

theorem noNestedJmp_hammer : NoNestedJmp hammer.instr := by
  have h : ∀ i ∈ ([.mem ⟨.ACT, 32, 0, 0, 0⟩, .mem ⟨.PRE, 9, 0, 0, 0⟩] : List (Instr MemInstr)), ∀ jmp,
    i ≠ .jmp jmp := by simp
  exact noNestedJmp_concat h ⟨.JMP, 2, 1⟩

/-- What `hammer` unrolls into. -/
def hammerTrace : List (Nat × MemInstr) :=
  [(0, ⟨.ACT, 32, 0, 0, 0⟩), (32, ⟨.PRE, 9, 0, 0, 0⟩), (42, ⟨.ACT, 32, 0, 0, 0⟩), (74, ⟨.PRE, 9, 0, 0, 0⟩)]

theorem checker_sound_complete_hammer : Accepts lib hammer hammerTrace ⟨3, 84, 0⟩ ∧
    Unrolls lib hammer hammerTrace ⟨3, 84, 0⟩ ∧
    ∀ h c post, hammerTrace = h ++ c :: post → Legal sampleTiming h c := by
  have hpos : PositiveTiming lib hammer := find_zero_eq_none.mp (by decide)
  have hver : Verified lib hammer := firstIllegal_eq_none.mp (by decide)
  have hacc : Accepts lib hammer hammerTrace ⟨3, 84, 0⟩ := ⟨7, by decide +kernel⟩
  obtain ⟨u, s, hu, -, hsound, -⟩ := checker_sound_complete hammer hpos hver noNestedJmp_hammer
  obtain ⟨rfl, rfl, hlegal⟩ := hsound _ _ hacc
  exact ⟨hacc, hu, hlegal⟩

end RowhammerTester.Checker.Ddr3
