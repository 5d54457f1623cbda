import RowhammerTester.Checker.History

/-!
# `ddr4lib`

* `MemInstr`, `Timing`, `verifyMem`, `BankGroup`, `Rank.execute`, `lib` : the library. A bank group overwrites its next
  tick at every command, its own or another group's;
* `lastOf`, `entry` : the group's tick comes from the last command of its kind only;
* `Allowed t h c` : when the command `c` is executed after the history `h` (`execute_isSome_iff`);
* `Inv`, `inv_execute`, `executeAll_allowed` : the rank along a run.
-/

namespace RowhammerTester.Checker.Ddr4

structure Timing where
  tickPs : Nat
  ras : Nat
  rp : Nat
  rfc : Nat
  rcd : Nat
  ccdL : Nat
  ccdS : Nat
  rtp : Nat
  rrdL : Nat
  rrdS : Nat
  faw : Nat
deriving DecidableEq, Repr

def Timing.fields (t : Timing) : List (String × Nat) :=
  [("tick_ps", t.tickPs), ("ras", t.ras), ("rp", t.rp), ("rfc", t.rfc), ("rcd", t.rcd), ("ccd_l", t.ccdL),
    ("ccd_s", t.ccdS), ("rtp", t.rtp), ("rrd_l", t.rrdL), ("rrd_s", t.rrdS), ("faw", t.faw)]

/-- The timings of the sample payloads. -/
def sampleTiming : Timing :=
  { tickPs := 1000, ras := 32, rp := 12, rfc := 243, rcd := 12, ccdL := 5, ccdS := 4, rtp := 8, rrdL := 6, rrdS := 5,
    faw := 28 }

structure MemInstr where
  opcode : Opcode
  timeslice : Nat
  rank : Nat
  stack : Nat
  bankGroup : Nat
  bank : Nat
  addr : Nat
deriving DecidableEq, Repr

/-- `VerifyInstr` on memory instructions: `TIMESLICE` is 9 bits, `BANK_GROUP` and `BANK` 2 and `ADDR` 18. -/
def verifyMem (mem : MemInstr) : Bool :=
  (mem.opcode = .RD ∨ mem.opcode = .ACT ∨ mem.opcode = .PRE ∨ mem.opcode = .REF) ∧
    (0 < mem.timeslice ∧ mem.timeslice < 1 <<< 9) ∧ mem.rank = 0 ∧ mem.stack = 0 ∧ mem.bankGroup < 1 <<< 2 ∧
    mem.bank < 1 <<< 2 ∧ mem.addr < 1 <<< 18 ∧
    -- only sequential bursts
    ¬ (mem.opcode = .RD ∧ mem.addr % 8 ≠ 0)

/-! ## Ranks, bank groups and banks -/

/-- `Bank.parameters`. -/
def Bank.parameters (t : Timing) : Parameters := bankParameters t.rcd t.ras t.rtp t.rp

/-- `Bank.Execute`. -/
def Bank.execute (t : Timing) (next : NextTick) (tick : Nat) (instr : MemInstr) : Option NextTick :=
  executeTable (Bank.parameters t) next tick instr.opcode

/-- A bank group; its banks are their next-tick tables. -/
structure BankGroup where
  nextTick : Opcode → Nat
  banks : Nat → NextTick

/-- `BankGroup.parameters`: the delay in the group and the delay to the other groups. -/
def BankGroup.parameters (t : Timing) : Opcode → List (Opcode × Nat × Nat)
  | .RD => [(.RD, t.ccdL, t.ccdS)]
  | .ACT => [(.ACT, t.rrdL, t.rrdS)]
  | _ => []

def BankGroup.init : BankGroup := { nextTick := fun _ => 0, banks := fun _ => bankStart }

/-- `BankGroup.Execute`. -/
def BankGroup.execute (t : Timing) (group : BankGroup) (tick : Nat) (instr : MemInstr) : Option BankGroup :=
  if tick < group.nextTick instr.opcode then none
  else
    match Bank.execute t (group.banks instr.bank) tick instr with
    | none => none
    | some bank => some
      { nextTick := (BankGroup.parameters t instr.opcode).foldl
          (fun next p => Function.update next p.1 (tick + p.2.1)) group.nextTick
        banks := Function.update group.banks instr.bank bank }

/-- `BankGroup.Update`. -/
def BankGroup.update (t : Timing) (group : BankGroup) (tick : Nat) (instr : MemInstr) : BankGroup :=
  { group with
    nextTick := (BankGroup.parameters t instr.opcode).foldl
      (fun next p => Function.update next p.1 (tick + p.2.2)) group.nextTick }

structure Rank where
  timing : Timing
  nextTick : NextTick
  prevActs : List Nat
  bankGroups : Nat → BankGroup

def Rank.parameters (t : Timing) : Parameters
  | .ACT => [(.REF, ⊤)]
  | .PRE => [(.REF, t.rp)]
  | .REF => [(.ACT, t.rfc), (.PRE, t.rfc), (.REF, t.rfc)]
  | _ => []

/-- `Rank(timing)`. -/
def Rank.init (t : Timing) : Rank :=
  { timing := t, nextTick := fun _ => 0, prevActs := [], bankGroups := fun _ => BankGroup.init }

/-- The tFAW test of an ACT. -/
def Rank.fawViolation (rank : Rank) (tick : Nat) : Prop := WindowViolation rank.timing.faw rank.prevActs tick

instance (rank : Rank) (tick : Nat) : Decidable (rank.fawViolation tick) :=
  inferInstanceAs (Decidable (WindowViolation _ _ _))

/-- `Rank.Execute`. -/
def Rank.execute (rank : Rank) (tick : Nat) (instr : MemInstr) : Option Rank :=
  if (tick : ℕ∞) < rank.nextTick instr.opcode then none
  else if instr.opcode = .ACT ∧ rank.fawViolation tick then none
  else
    match BankGroup.execute rank.timing (rank.bankGroups instr.bankGroup) tick instr with
    | none => none
    | some group => some
      { rank with
        prevActs := if instr.opcode = .ACT then push rank.prevActs tick else rank.prevActs
        -- update all other bank groups
        bankGroups := fun i => if i = instr.bankGroup then group else (rank.bankGroups i).update rank.timing tick instr
        nextTick := Checker.update (Rank.parameters rank.timing) tick instr.opcode rank.nextTick }

/-- The library. -/
def lib : DramLib Timing MemInstr Rank :=
  { fields := Timing.fields, verifyMem := verifyMem, timeslice := MemInstr.timeslice, rank := Rank.init,
    execute := Rank.execute }

instance : Command MemInstr (Nat × Nat) := ⟨MemInstr.opcode, fun m => (m.bankGroup, m.bank)⟩

/-! ## The bank groups' ticks -/

/-- The last command with the op code `op`. -/
def lastOf (op : Opcode) (h : List (Nat × MemInstr)) : Option (Nat × MemInstr) :=
  (h.filter fun x => x.2.opcode = op).getLast?

/-- The tick that the last command `x` leaves in `group`: `l` later in its own group, `s` later in the others. -/
def entry (l s group : Nat) : Option (Nat × MemInstr) → Nat
  | none => 0
  | some x => x.1 + if x.2.bankGroup = group then l else s

theorem lastOf_concat (op : Opcode) (h : List (Nat × MemInstr)) (c : Nat × MemInstr) :
    lastOf op (h ++ [c]) = if c.2.opcode = op then some c else lastOf op h := by
  unfold lastOf
  rw [List.filter_append]
  by_cases hop : c.2.opcode = op
  · rw [if_pos hop, List.filter_cons_of_pos (by simpa using hop), List.filter_nil, List.getLast?_concat]
  · rw [if_neg hop, List.filter_cons_of_neg (by simpa using hop), List.filter_nil, List.append_nil]

/-- When a command is executed after a history. -/
structure Allowed (t : Timing) (h : List (Nat × MemInstr)) (c : Nat × MemInstr) : Prop where
  rdGroup : c.2.opcode = .RD → entry t.ccdL t.ccdS c.2.bankGroup (lastOf .RD h) ≤ c.1
  actGroup : c.2.opcode = .ACT → entry t.rrdL t.rrdS c.2.bankGroup (lastOf .ACT h) ≤ c.1
  actRd : c.2.opcode = .RD → BankActive (Command.bank c.2) h ∧ Apart (IsAt .ACT (Command.bank c.2)) t.rcd h c.1
  preAct : c.2.opcode = .ACT → ¬ BankActive (Command.bank c.2) h ∧ Apart (IsAt .PRE (Command.bank c.2)) t.rp h c.1
  preBank : c.2.opcode = .PRE → Apart (IsAt .ACT (Command.bank c.2)) t.ras h c.1 ∧
    Apart (IsAt .RD (Command.bank c.2)) t.rtp h c.1
  refAny : c.2.opcode = .ACT ∨ c.2.opcode = .PRE → Apart (Is .REF) t.rfc h c.1
  ref : c.2.opcode = .REF → ¬ RowOpen h ∧ Apart (Is .PRE) t.rp h c.1 ∧ Apart (Is .REF) t.rfc h c.1
  faw : c.2.opcode = .ACT → ∀ pre a mid, acts h = pre ++ a :: mid → mid.length = 3 → a + t.faw ≤ c.1

/-! ## The tables as conditions -/

/-- The rank after the history `h`. -/
structure Inv (t : Timing) (h : List (Nat × MemInstr)) (rank : Rank) : Prop where
  timing : rank.timing = t
  rd : rank.nextTick .RD = 0
  act : Tracks (rank.nextTick .ACT) True (Apart (Is .REF) t.rfc h)
  ref : RefInv t.rp t.rfc h rank.nextTick
  prevActs : rank.prevActs = lastFour (acts h)
  rdGroup : ∀ g, (rank.bankGroups g).nextTick .RD = entry t.ccdL t.ccdS g (lastOf .RD h)
  actGroup : ∀ g, (rank.bankGroups g).nextTick .ACT = entry t.rrdL t.rrdS g (lastOf .ACT h)
  noGroup : ∀ g, (rank.bankGroups g).nextTick .PRE = 0 ∧ (rank.bankGroups g).nextTick .REF = 0
  banks : ∀ g b, BankInv t.rcd t.ras t.rtp t.rp (g, b) h ((rank.bankGroups g).banks b)

theorem inv_init (t : Timing) : Inv t [] (Rank.init t) :=
  ⟨rfl, rfl, tracks_zero fun _ => apart_nil _ _ _, refInv_start t.rp t.rfc, rfl, fun _ => rfl, fun _ => rfl,
    fun _ => ⟨rfl, rfl⟩, fun g b => bankInv_start _ _ _ _ (g, b)⟩

/-! ## One command -/

section Execute
variable {t : Timing} {h : List (Nat × MemInstr)} {rank rank' : Rank} {tick : Nat} {instr : MemInstr}

/-- The overwritten tick of a group. -/
def overwrite (t : Timing) (tick : Nat) (op : Opcode) (delay : Nat × Nat → Nat) (next : Opcode → Nat) : Opcode → Nat :=
  (BankGroup.parameters t op).foldl (fun next p => Function.update next p.1 (tick + delay p.2)) next

/-- The groups after a command. -/
def groupsAfter (t : Timing) (groups : Nat → BankGroup) (tick : Nat) (instr : MemInstr) (i : Nat) : BankGroup :=
  if i = instr.bankGroup then
    { nextTick := overwrite t tick instr.opcode Prod.fst (groups i).nextTick
      banks := Function.update (groups i).banks instr.bank
        (Checker.update (Bank.parameters t) tick instr.opcode ((groups i).banks instr.bank)) }
  else { groups i with nextTick := overwrite t tick instr.opcode Prod.snd (groups i).nextTick }

/-- The four tests of `Rank.Execute`, and the rank it leaves. -/
theorem execute_eq_some : rank.execute tick instr = some rank' ↔
    (rank.nextTick instr.opcode ≤ tick ∧ ¬ (instr.opcode = .ACT ∧ rank.fawViolation tick) ∧
      (rank.bankGroups instr.bankGroup).nextTick instr.opcode ≤ tick ∧
      (rank.bankGroups instr.bankGroup).banks instr.bank instr.opcode ≤ tick) ∧
    rank' = { rank with
      prevActs := if instr.opcode = .ACT then push rank.prevActs tick else rank.prevActs
      bankGroups := groupsAfter rank.timing rank.bankGroups tick instr
      nextTick := Checker.update (Rank.parameters rank.timing) tick instr.opcode rank.nextTick } := by
  unfold Rank.execute BankGroup.execute Bank.execute executeTable
  by_cases h1 : (tick : ℕ∞) < rank.nextTick instr.opcode
  · rw [if_pos h1]
    exact iff_of_false (by simp) fun hc => absurd hc.1.1 (not_le.mpr h1)
  · rw [if_neg h1]
    by_cases h2 : instr.opcode = .ACT ∧ rank.fawViolation tick
    · rw [if_pos h2]
      exact iff_of_false (by simp) fun hc => hc.1.2.1 h2
    · rw [if_neg h2]
      by_cases h3 : tick < (rank.bankGroups instr.bankGroup).nextTick instr.opcode
      · rw [if_pos h3]
        exact iff_of_false (by simp) fun hc => absurd hc.1.2.2.1 (not_le.mpr h3)
      · rw [if_neg h3]
        by_cases h4 : (tick : ℕ∞) < (rank.bankGroups instr.bankGroup).banks instr.bank instr.opcode
        · rw [if_pos h4]
          exact iff_of_false (by simp) fun hc => absurd hc.1.2.2.2 (not_le.mpr h4)
        · rw [if_neg h4, and_iff_right ⟨not_lt.mp h1, h2, not_lt.mp h3, not_lt.mp h4⟩, Option.some_inj, eq_comm]
          have hgroups : (fun i => if i = instr.bankGroup then
              { nextTick := (BankGroup.parameters rank.timing instr.opcode).foldl
                  (fun next p => Function.update next p.1 (tick + p.2.1)) (rank.bankGroups instr.bankGroup).nextTick
                banks := Function.update (rank.bankGroups instr.bankGroup).banks instr.bank
                  (Checker.update (Bank.parameters rank.timing) tick instr.opcode
                    ((rank.bankGroups instr.bankGroup).banks instr.bank)) : BankGroup }
              else (rank.bankGroups i).update rank.timing tick instr) =
              groupsAfter rank.timing rank.bankGroups tick instr := by
            funext i
            unfold groupsAfter
            split
            · next hi =>
              rw [hi]
              rfl
            · rfl
          rw [← hgroups]

theorem execute_isSome : (rank.execute tick instr).isSome = true ↔
    rank.nextTick instr.opcode ≤ tick ∧ ¬ (instr.opcode = .ACT ∧ rank.fawViolation tick) ∧
      (rank.bankGroups instr.bankGroup).nextTick instr.opcode ≤ tick ∧
      (rank.bankGroups instr.bankGroup).banks instr.bank instr.opcode ≤ tick := by
  rw [Option.isSome_iff_exists]
  constructor
  · rintro ⟨rank', h⟩
    exact (execute_eq_some.mp h).1
  · intro h
    exact ⟨_, execute_eq_some.mpr ⟨h, rfl⟩⟩

theorem fawViolation_iff (hinv : Inv t h rank) (hticks : ∀ x ∈ h, x.1 ≤ tick) :
    ¬ rank.fawViolation tick ↔ ∀ pre a mid, acts h = pre ++ a :: mid → mid.length = 3 → a + t.faw ≤ tick := by
  rw [Rank.fawViolation, hinv.prevActs, hinv.timing, not_windowViolation_iff (acts_le hticks)]

/-- **One command.** A command is executed exactly when it is allowed after the history. -/
theorem execute_isSome_iff (hinv : Inv t h rank) (hticks : ∀ x ∈ h, x.1 ≤ tick) (hop : MemOp instr) :
    (rank.execute tick instr).isSome = true ↔ Allowed t h (tick, instr) := by
  have hbank := hinv.banks instr.bankGroup instr.bank
  have hop' : instr.opcode = .RD ∨ instr.opcode = .ACT ∨ instr.opcode = .PRE ∨ instr.opcode = .REF := hop
  rw [execute_isSome]
  rcases hop' with hop | hop | hop | hop
  · rw [hop, hinv.rd, hinv.rdGroup, hbank.rd.2]
    constructor
    · rintro ⟨-, -, hgroup, hact, hrcd⟩
      exact ⟨fun _ => hgroup, by simp [hop], fun _ => ⟨hact, hrcd⟩, by simp [hop], by simp [hop], by simp [hop],
        by simp [hop], by simp [hop]⟩
    · intro ha
      exact ⟨zero_le, by simp, ha.rdGroup hop, ha.actRd hop⟩
  · rw [hop, hinv.act.2, hinv.actGroup, hbank.act.2, and_iff_right rfl, fawViolation_iff hinv hticks]
    constructor
    · rintro ⟨⟨-, hrfc⟩, hwin, hgroup, hpre, hrp⟩
      exact ⟨by simp [hop], fun _ => hgroup, by simp [hop], fun _ => ⟨hpre, hrp⟩, by simp [hop], fun _ => hrfc,
        by simp [hop], fun _ => hwin⟩
    · intro ha
      exact ⟨⟨trivial, ha.refAny (Or.inl hop)⟩, ha.faw hop, ha.actGroup hop, ha.preAct hop⟩
  · rw [hop, hinv.ref.pre.2, (hinv.noGroup _).1, hbank.pre.2]
    constructor
    · rintro ⟨⟨-, hrfc⟩, -, -, -, hpre⟩
      exact ⟨by simp [hop], by simp [hop], by simp [hop], by simp [hop], fun _ => hpre, fun _ => hrfc, by simp [hop],
        by simp [hop]⟩
    · intro ha
      exact ⟨⟨trivial, ha.refAny (Or.inr hop)⟩, by simp, Nat.zero_le _, trivial, ha.preBank hop⟩
  · rw [hop, hinv.ref.ref.2, (hinv.noGroup _).2, hbank.ref]
    constructor
    · rintro ⟨href, -, -, -⟩
      exact ⟨by simp [hop], by simp [hop], by simp [hop], by simp [hop], by simp [hop], by simp [hop], fun _ => href,
        by simp [hop]⟩
    · intro ha
      exact ⟨ha.ref hop, by simp, Nat.zero_le _, zero_le⟩

/-! ## The invariant along a run -/

/-- The group ticks after a command: overwritten for its own op code, kept for the others. -/
theorem groupsAfter_nextTick (t : Timing) (groups : Nat → BankGroup) (tick : Nat) (instr : MemInstr) (g : Nat)
    (op : Opcode) :
    (groupsAfter t groups tick instr g).nextTick op =
      if instr.opcode = .RD ∧ op = .RD then entry t.ccdL t.ccdS g (some (tick, instr))
      else if instr.opcode = .ACT ∧ op = .ACT then entry t.rrdL t.rrdS g (some (tick, instr))
      else (groups g).nextTick op := by
  unfold groupsAfter overwrite entry
  by_cases hg : g = instr.bankGroup
  · rw [if_pos hg]
    cases hop : instr.opcode <;> cases op <;> simp [BankGroup.parameters, Function.update, hg]
  · rw [if_neg hg]
    cases hop : instr.opcode <;> cases op <;> simp [BankGroup.parameters, Function.update, Ne.symm hg]

theorem groupsAfter_banks (t : Timing) (groups : Nat → BankGroup) (tick : Nat) (instr : MemInstr) (g b : Nat) :
    (groupsAfter t groups tick instr g).banks b =
      if g = instr.bankGroup ∧ b = instr.bank then
        Checker.update (Bank.parameters t) tick instr.opcode ((groups g).banks b)
      else (groups g).banks b := by
  unfold groupsAfter
  by_cases hg : g = instr.bankGroup
  · rw [if_pos hg]
    by_cases hb : b = instr.bank
    · rw [if_pos ⟨hg, hb⟩, hb]
      exact Function.update_self _ _ _
    · rw [if_neg fun hc => hb hc.2]
      exact Function.update_of_ne hb _ _
  · rw [if_neg hg, if_neg fun hc => hg hc.1]

/-- The entries that the rank itself keeps, after a command that they allowed. -/
theorem rank_concat (hinv : Inv t h rank) (hticks : ∀ x ∈ h, x.1 ≤ tick) (hop : MemOp instr)
    (hallowed : rank.nextTick instr.opcode ≤ tick) :
    Checker.update (Rank.parameters t) tick instr.opcode rank.nextTick .RD = 0 ∧
    Tracks (Checker.update (Rank.parameters t) tick instr.opcode rank.nextTick .ACT) True
      (Apart (Is .REF) t.rfc (h ++ [(tick, instr)])) ∧
    RefInv t.rp t.rfc (h ++ [(tick, instr)]) (Checker.update (Rank.parameters t) tick instr.opcode rank.nextTick) := by
  have hop' : instr.opcode = .RD ∨ instr.opcode = .ACT ∨ instr.opcode = .PRE ∨ instr.opcode = .REF := hop
  rcases hop' with hop | hop | hop | hop
  · have hrd : Is .RD instr := hop
    have href : ¬ Is .REF instr := not_is (c := (tick, instr)) hop (by decide)
    rw [hop]
    exact ⟨hinv.rd, hinv.act.congr Iff.rfl fun _ T => (apart_concat_of_not href).symm, hinv.ref.concat_rd hrd rfl rfl⟩
  · have hact : Is .ACT instr := hop
    have href : ¬ Is .REF instr := not_is (c := (tick, instr)) hop (by decide)
    rw [hop] at hallowed ⊢
    simp only [Checker.update, Rank.parameters, List.foldl_cons, List.foldl_nil]
    refine ⟨?_, ?_, hinv.ref.concat_act (c := (tick, instr)) hact ((hinv.act.2 tick).mp hallowed).2
      (bump_of_ne _ _ (by decide) _) (bump_self _ _ _ _)⟩
    · rw [bump_of_ne _ _ (by decide)]
      exact hinv.rd
    · rw [bump_of_ne _ _ (by decide)]
      exact hinv.act.congr Iff.rfl fun _ T => (apart_concat_of_not href).symm
  · have hpre : Is .PRE instr := hop
    have href : ¬ Is .REF instr := not_is (c := (tick, instr)) hop (by decide)
    rw [hop]
    simp only [Checker.update, Rank.parameters, List.foldl_cons, List.foldl_nil]
    refine ⟨?_, ?_, hinv.ref.concat_pre (c := (tick, instr)) hpre hticks (bump_of_ne _ _ (by decide) _)
      (bump_self _ _ _ _)⟩
    · rw [bump_of_ne _ _ (by decide)]
      exact hinv.rd
    · rw [bump_of_ne _ _ (by decide)]
      exact hinv.act.congr Iff.rfl fun _ T => (apart_concat_of_not href).symm
  · have href : Is .REF instr := hop
    rw [hop] at hallowed ⊢
    simp only [Checker.update, Rank.parameters, List.foldl_cons, List.foldl_nil]
    refine ⟨?_, ?_, hinv.ref.concat_ref (c := (tick, instr)) href hallowed ?_ ?_⟩
    · rw [bump_of_ne _ _ (by decide), bump_of_ne _ _ (by decide), bump_of_ne _ _ (by decide)]
      exact hinv.rd
    · rw [bump_of_ne _ _ (by decide), bump_of_ne _ _ (by decide), bump_self]
      exact (hinv.act.raise tick t.rfc).congr Iff.rfl fun _ T => (apart_concat_of (x := (tick, instr)) href).symm
    · rw [bump_of_ne _ _ (by decide), bump_self, bump_of_ne _ _ (by decide)]
    · rw [bump_self, bump_of_ne _ _ (by decide), bump_of_ne _ _ (by decide)]

/-- The invariant after an executed command. -/
theorem inv_execute (hinv : Inv t h rank) (hticks : ∀ x ∈ h, x.1 ≤ tick) (hop : MemOp instr)
    (hexec : rank.execute tick instr = some rank') : Inv t (h ++ [(tick, instr)]) rank' := by
  obtain ⟨⟨hrank, -, -, hbank⟩, rfl⟩ := execute_eq_some.mp hexec
  obtain ⟨hrd, hact, href⟩ := rank_concat hinv hticks hop hrank
  refine ⟨hinv.timing, by rw [hinv.timing]; exact hrd, by rw [hinv.timing]; exact hact, by rw [hinv.timing]; exact href,
    by rw [hinv.prevActs]; exact (lastFour_acts_concat h (tick, instr)).symm, fun g => ?_, fun g => ?_, fun g => ?_,
    fun g b => ?_⟩
  · rw [groupsAfter_nextTick, lastOf_concat, hinv.timing, hinv.rdGroup]
    by_cases hr : instr.opcode = .RD <;> simp [hr]
  · rw [groupsAfter_nextTick, lastOf_concat, hinv.timing, hinv.actGroup]
    by_cases ha : instr.opcode = .ACT <;> simp [ha]
  · rw [groupsAfter_nextTick, groupsAfter_nextTick]
    simpa using hinv.noGroup g
  · rw [groupsAfter_banks, hinv.timing]
    by_cases hgb : g = instr.bankGroup ∧ b = instr.bank
    · rw [if_pos hgb]
      obtain ⟨rfl, rfl⟩ := hgb
      exact (hinv.banks instr.bankGroup instr.bank).concat (c := (tick, instr)) hop hticks hbank
    · rw [if_neg hgb]
      refine (hinv.banks g b).concat_of_ne fun hc => hgb ?_
      have hc' : (instr.bankGroup, instr.bank) = (g, b) := hc
      cases hc'
      exact ⟨rfl, rfl⟩

end Execute

/-! ## Traces -/

theorem memOp_of_verifyMem {m : MemInstr} (h : verifyMem m = true) : MemOp m := by
  simp only [verifyMem, decide_eq_true_eq] at h
  exact h.1

theorem timeslice_pos_of_verifyMem {m : MemInstr} (h : verifyMem m = true) : 0 < m.timeslice := by
  simp only [verifyMem, decide_eq_true_eq] at h
  exact h.2.1.1

theorem timed_of_verified {payload : Payload Timing MemInstr} (hver : Verified lib payload) : Timed lib payload.instr :=
  hver.timed fun _ hm => timeslice_pos_of_verifyMem hm

/-- Every command of an executed trace was allowed when it was issued. -/
theorem executeAll_allowed {t : Timing} (tr : List (Nat × MemInstr)) (hinc : Increasing 0 tr)
    (hmem : ∀ x ∈ tr, MemOp x.2) (rank : Rank) (hall : executeAll lib (Rank.init t) tr = some rank) :
    Inv t tr rank ∧ ∀ h c post, tr = h ++ c :: post → Allowed t h c := by
  refine executeAll_induction MemOp (inv_init t) (fun h c rank rank' hinv hticks hop hexec => ?_) tr hinc hmem rank hall
  refine ⟨inv_execute hinv hticks hop hexec, (execute_isSome_iff hinv hticks hop).mp ?_⟩
  rw [show rank.execute c.1 c.2 = some rank' from hexec]
  rfl

/-- The rank at the end of the trace of an accepted payload. -/
theorem accepts_executed {payload : Payload Timing MemInstr} {tr : List (Nat × MemInstr)} {s : State}
    (hacc : Accepts lib payload tr s) : Increasing 0 tr ∧ (∀ x ∈ tr, MemOp x.2) ∧
      ∃ rank, executeAll lib (lib.rank payload.timing) tr = some rank := by
  obtain ⟨-, hver, fuel, rank, hloop⟩ := accepts_iff.mp hacc
  have htimed : Timed lib payload.instr := timed_of_verified hver
  have hmem : ∀ x ∈ tr, MemOp x.2 := fun x hx => memOp_of_verifyMem (hver.visited hloop x hx)
  exact ⟨mainLoop_increasing htimed hloop, hmem, rank, mainLoop_ok hloop⟩

/-- Every command of an accepted payload was allowed. -/
theorem accepts_allowed {payload : Payload Timing MemInstr} {tr : List (Nat × MemInstr)} {s : State}
    (hacc : Accepts lib payload tr s) : ∀ h c post, tr = h ++ c :: post → Allowed payload.timing h c := by
  obtain ⟨hinc, hmem, rank, hall⟩ := accepts_executed hacc
  exact (executeAll_allowed tr hinc hmem rank hall).2

/-- After a beginning of an accepted trace the rank takes a REF, at some tick, exactly when the last ACT or PRE was a
PRE. -/
theorem exists_ref_iff {payload : Payload Timing MemInstr} {tr h post : List (Nat × MemInstr)} {s : State}
    (hacc : Accepts lib payload tr s) (heq : tr = h ++ post) :
    (∃ ref : Nat × MemInstr, Is .REF ref.2 ∧
      (executeAll lib (lib.rank payload.timing) (h ++ [ref])).isSome = true) ↔ ¬ RowOpen h := by
  obtain ⟨hinc, hmem, rank, hall⟩ := accepts_executed hacc
  subst heq
  rw [executeAll_append, Option.bind_eq_some_iff] at hall
  obtain ⟨rank₁, hall₁, -⟩ := hall
  have hinv := (executeAll_allowed h hinc.left (fun x hx => hmem x (by simp [hx])) rank₁ hall₁).1
  rw [← hinv.ref.ref.exists_tick]
  constructor
  · rintro ⟨⟨T, ref⟩, href, hsome⟩
    rw [isSome_executeAll_concat hall₁] at hsome
    have hop : ref.opcode = .REF := href
    have htick := (execute_isSome.mp hsome).1
    rw [hop] at htick
    exact ⟨T, htick⟩
  · rintro ⟨T, hT⟩
    refine ⟨(T, ⟨.REF, 1, 0, 0, 0, 0, 0⟩), rfl, ?_⟩
    rw [isSome_executeAll_concat hall₁]
    refine execute_isSome.mpr ⟨hT, by simp, ?_, ?_⟩
    · rw [(hinv.noGroup 0).2]
      exact Nat.zero_le T
    · rw [(hinv.banks 0 0).ref]
      exact zero_le

end RowhammerTester.Checker.Ddr4
