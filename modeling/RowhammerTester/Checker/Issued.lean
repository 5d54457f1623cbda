import RowhammerTester.Checker.Execution

/-!
# Checked payloads on the DFI

What the checker has verified of a payload holds of the commands that the payload executor sends.

* `Rules` : the rules of DDR3 for commands of any kind; `Shown` : a command shown as another one of
  the same op code and bank, which the rules do not see (`Rules.shown`);
* `DfiCommand.opcode` : a command as its strobes say; `shown_command` : the DFI shows the instructions of a payload, if
  it has wires for the eight banks;
* `accepted_payload_obeys` : the executor, running an accepted payload, obeys the rules.
-/

namespace RowhammerTester.Checker
open RowhammerTester.Gateware RowhammerTester.Gateware.PayloadExecutor

/-! ## Histories shown differently -/

section Shown
variable {M M' : Type} {f : M → M'} {h : List (Nat × M)}

/-- The history as it is shown. -/
def shown (f : M → M') (h : List (Nat × M)) : List (Nat × M') := h.map fun x => (x.1, f x.2)

theorem apart_shown {P : M → Prop} {P' : M' → Prop} {d T : Nat} (hP : ∀ x ∈ h, P' (f x.2) ↔ P x.2) :
    Apart P' d (shown f h) T ↔ Apart P d h T := by
  unfold Apart shown
  rw [List.forall_mem_map]
  apply forall₂_congr
  intro x hx
  rw [hP x hx]

theorem active_shown {opens closes : M → Prop} {opens' closes' : M' → Prop} (ho : ∀ x ∈ h, opens' (f x.2) ↔ opens x.2)
    (hc : ∀ x ∈ h, closes' (f x.2) ↔ closes x.2) : Active opens' closes' (shown f h) ↔ Active opens closes h := by
  induction h using List.reverseRecOn with
  | nil => exact iff_of_false not_active_nil not_active_nil
  | append_singleton h x ih =>
    have hx : x ∈ h ++ [x] := List.mem_append_right h (List.mem_singleton_self x)
    have hconcat : shown f (h ++ [x]) = shown f h ++ [(x.1, f x.2)] := List.map_append
    rw [hconcat, active_concat, active_concat, ho x hx, hc x hx, ih]
    · exact fun y hy => ho y (List.mem_append_left _ hy)
    · exact fun y hy => hc y (List.mem_append_left _ hy)

variable [Command M Nat] [Command M' Nat]

/-- A command and what is shown of it have the same op code and bank. -/
structure Shown (f : M → M') (m : M) : Prop where
  opcode : Command.opcode (f m) = Command.opcode m
  bank : Command.bank (f m) = Command.bank m

theorem Shown.is_iff {m : M} (h : Shown f m) (op : Opcode) : Is op (f m) ↔ Is op m := by
  unfold Is
  rw [h.opcode]

theorem Shown.isAt_iff {m : M} (h : Shown f m) (op : Opcode) (bank : Nat) : IsAt op bank (f m) ↔ IsAt op bank m := by
  unfold IsAt
  rw [h.opcode, h.bank]

theorem acts_shown (hf : ∀ x ∈ h, Shown f x.2) : acts (shown f h) = acts h := by
  unfold acts shown
  rw [List.filter_map, List.map_map]
  apply congrArg (List.map Prod.fst)
  apply List.filter_congr
  intro x hx
  simp only [Function.comp_apply, (hf x hx).opcode]

end Shown

namespace Ddr3

/-! ## The rules for commands of any kind -/

/-- The command `c` after the history `h`, as in `Legal`; a REF also finds the last ACT or PRE to be a PRE. -/
structure Rules {M : Type} [Command M Nat] (t : Timing) (h : List (Nat × M)) (c : Nat × M) : Prop where
  actRd : Is .RD c.2 → Apart (IsAt .ACT (Command.bank c.2)) t.rcd h c.1
  actPre : Is .PRE c.2 → Apart (IsAt .ACT (Command.bank c.2)) t.ras h c.1
  rdPre : Is .PRE c.2 → Apart (IsAt .RD (Command.bank c.2)) t.rtp h c.1
  preAct : Is .ACT c.2 → Apart (IsAt .PRE (Command.bank c.2)) t.rp h c.1
  rdRd : Is .RD c.2 → Apart (Is .RD) t.ccd h c.1
  actAct : Is .ACT c.2 → Apart (Is .ACT) t.rrd h c.1
  preRef : Is .REF c.2 → Apart (Is .PRE) t.rp h c.1
  refAny : Is .ACT c.2 ∨ Is .PRE c.2 ∨ Is .REF c.2 → Apart (Is .REF) t.rfc h c.1
  faw : Is .ACT c.2 → ∀ pre a mid, acts h = pre ++ a :: mid → mid.length = 3 → a + t.faw ≤ c.1
  rdActive : Is .RD c.2 → BankActive (Command.bank c.2) h
  actPrecharged : Is .ACT c.2 → ¬ BankActive (Command.bank c.2) h
  refClosed : Is .REF c.2 → ¬ RowOpen h

theorem Legal.rules {t : Timing} {h : List (Nat × MemInstr)} {c : Nat × MemInstr} (hl : Legal t h c)
    (href : c.2.opcode = .REF → ¬ RowOpen h) : Rules t h c :=
  ⟨hl.actRd, hl.actPre, hl.rdPre, hl.preAct, hl.rdRd, hl.actAct, hl.preRef, hl.refAny, hl.faw, hl.rdActive,
    hl.actPrecharged, href⟩

/-- The rules look at op codes and banks only. -/
theorem Rules.shown {M M' : Type} [Command M Nat] [Command M' Nat] {f : M → M'} {t : Timing} {h : List (Nat × M)}
    {c : Nat × M} (hr : Rules t h c) (hf : ∀ x ∈ h, Shown f x.2) (hc : Shown f c.2) :
    Rules t (shown f h) (c.1, f c.2) := by
  have his : ∀ op, Is op (f c.2) ↔ Is op c.2 := hc.is_iff
  have hapart : ∀ op d, Apart (Is op) d (Checker.shown f h) c.1 ↔ Apart (Is op) d h c.1 := fun op d =>
    apart_shown fun x hx => (hf x hx).is_iff op
  have hapartAt : ∀ op d, Apart (IsAt op (Command.bank (f c.2))) d (Checker.shown f h) c.1 ↔
      Apart (IsAt op (Command.bank c.2)) d h c.1 := by
    intro op d
    rw [hc.bank]
    exact apart_shown fun x hx => (hf x hx).isAt_iff op _
  have hactive : BankActive (Command.bank (f c.2)) (Checker.shown f h) ↔ BankActive (Command.bank c.2) h := by
    rw [hc.bank]
    exact active_shown (fun x hx => (hf x hx).isAt_iff .ACT _) fun x hx => (hf x hx).isAt_iff .PRE _
  have hrow : RowOpen (Checker.shown f h) ↔ RowOpen h :=
    active_shown (fun x hx => (hf x hx).is_iff .ACT) fun x hx => (hf x hx).is_iff .PRE
  constructor
  · simpa only [his, hapartAt] using hr.actRd
  · simpa only [his, hapartAt] using hr.actPre
  · simpa only [his, hapartAt] using hr.rdPre
  · simpa only [his, hapartAt] using hr.preAct
  · simpa only [his, hapart] using hr.rdRd
  · simpa only [his, hapart] using hr.actAct
  · simpa only [his, hapart] using hr.preRef
  · simpa only [his, hapart] using hr.refAny
  · simpa only [his, acts_shown hf] using hr.faw
  · simpa only [his, hactive] using hr.rdActive
  · simpa only [his, hactive] using hr.actPrecharged
  · simpa only [his, hrow] using hr.refClosed

/-! ## The DFI -/

/-- The command that the strobes stand for. -/
def DfiCommand.opcode (c : DfiCommand) : Opcode :=
  match c.ras, c.cas, c.we with
  | false, true, false => .RD
  | true, false, false => .ACT
  | true, false, true => .PRE
  | true, true, false => .REF
  | _, _, _ => .NOP

instance : Command DfiCommand Nat := ⟨DfiCommand.opcode, DfiCommand.bank⟩

/-- The instructions of a payload are shown on the DFI. -/
theorem shown_command {g : Geometry} (hbanks : 3 ≤ g.bankbits) {m : MemInstr} (hv : verifyMem m = true) :
    Shown (MemInstr.command g) m where
  opcode := by
    have hop : m.opcode = .RD ∨ m.opcode = .ACT ∨ m.opcode = .PRE ∨ m.opcode = .REF := memOp_of_verifyMem hv
    change (m.command g).opcode = m.opcode
    unfold DfiCommand.opcode MemInstr.command
    rcases hop with h | h | h | h <;> rw [h] <;> rfl
  bank := by
    simp only [verifyMem, decide_eq_true_eq] at hv
    have hlt : m.bank < 2 ^ 3 := hv.2.2.2.1
    exact Nat.mod_eq_of_lt (lt_of_lt_of_le hlt (Nat.pow_le_pow_right (by decide) hbanks))

/-- The commands of an accepted payload obey the rules as they are shown. -/
theorem accepts_shown {g : Geometry} (hbanks : 3 ≤ g.bankbits) {payload : Payload Timing MemInstr}
    {tr : List (Nat × MemInstr)} {s : State} (hacc : Accepts lib payload tr s) {h post : List (Nat × DfiCommand)}
    {c : Nat × DfiCommand} (heq : shown (MemInstr.command g) tr = h ++ c :: post) : Rules payload.timing h c := by
  obtain ⟨-, hver, fuel, rank, hloop⟩ := accepts_iff.mp hacc
  have hshown : ∀ x ∈ tr, Shown (MemInstr.command g) x.2 := fun x hx =>
    shown_command hbanks (hver.visited hloop x hx)
  obtain ⟨h', rest, rfl, rfl, hrest⟩ := List.map_eq_append_iff.mp heq
  obtain ⟨c', post', rfl, rfl, rfl⟩ := List.map_eq_cons_iff.mp hrest
  obtain ⟨hlegal, href⟩ := accepts_legal hacc h' c' post' rfl
  apply (hlegal.rules href).shown
  · exact fun x hx => hshown x (List.mem_append_left _ hx)
  · exact hshown c' (List.mem_append_right _ List.mem_cons_self)

/-- **Checked payloads are safe.** A payload that the checker accepts, that fits the gateware's format and has no nested
JMPs, is encoded, and whenever and however long after its start the executor is granted the DFI, it sends commands that
obey the rules of the payload's timings one after the other, and stops. -/
theorem accepted_payload_obeys (p : Params) (hph : p.rdphase < p.nphases) (hbanks : 3 ≤ p.geometry.bankbits)
    (payload : Payload Timing MemInstr) (tr : List (Nat × MemInstr)) (s : State) (hacc : Accepts lib payload tr s)
    (hfit : FitsGateware payload.instr) (hnest : NoNestedJmp payload.instr)
    (hlen : payload.instr.length + 2 ≤ p.depth) :
    ∃ words cmds, payload.instr.mapM (encodeInstr ⟨p.geometry.bankbits, p.nranks⟩) = .ok words ∧
      (∀ (s₀ : PayloadExecutor.State) (inp : Nat → Input) (w : Nat), s₀.fsm = .READY → s₀.loopCounter = 0 →
        (inp 0).start = true → (∀ k < w, (inp (k + 1)).dfiReady = false) → (inp (w + 1)).dfiReady = true →
        Execution p (loadWords words) s.tick cmds s₀ inp (w + 2)) ∧
      ∀ h c post, cmds = h ++ c :: post → Rules payload.timing h c := by
  obtain ⟨hpos, hver, fuel, rank, hloop⟩ := accepts_iff.mp hacc
  obtain ⟨words, fuel', u, s', hwords, hunroll, hexec⟩ := exists_execution hph hver hfit hnest hlen
  obtain ⟨rfl, hs⟩ := (mainLoop_unroll hloop hunroll).2 s rank rfl
  cases hs
  exact ⟨words, _, hwords, hexec, fun h c post heq => accepts_shown hbanks hacc heq⟩

/-- The hammering of a row obeys the rules on the DFI. -/
theorem accepted_payload_obeys_hammer : ∃ words cmds,
    hammerShort.instr.mapM (encodeInstr ⟨3, 1⟩) = .ok words ∧
    Execution sampleParams (loadWords words) 84 cmds (reset sampleParams (loadWords words)) (fun _ => ⟨true, true⟩) 2 ∧
    ∀ h c post, cmds = h ++ c :: post → Rules sampleTiming h c := by
  have hacc : Accepts lib hammerShort [(0, ⟨.ACT, 31, 0, 0, 0⟩), (32, ⟨.PRE, 9, 0, 0, 0⟩), (42, ⟨.ACT, 31, 0, 0, 0⟩),
    (74, ⟨.PRE, 9, 0, 0, 0⟩)] ⟨4, 84, 0⟩ := ⟨9, by decide +kernel⟩
  have hfit : FitsGateware hammerShort.instr := by simp [FitsGateware, hammerShort]
  obtain ⟨words, cmds, hwords, hexec, hrules⟩ := accepted_payload_obeys sampleParams (by decide) (by decide) hammerShort
    _ _ hacc hfit (noNestedJmp_concat (by simp) _) (by decide)
  exact ⟨words, cmds, hwords, hexec _ _ 0 rfl rfl rfl (by simp) rfl, hrules⟩

end Ddr3

end RowhammerTester.Checker
