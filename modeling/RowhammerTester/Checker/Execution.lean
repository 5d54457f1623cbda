import RowhammerTester.Checker.Ddr3
import RowhammerTester.Gateware.Program
import RowhammerTester.Gateware.Refinement

/-!
# The checker and the payload executor

A DDR3 payload in the payload memory is executed as the checker's main loop reads it.

* `DfiCommand`, `dfiCommands` : what stands on the DFI after a clock edge; `issued` : the commands of a run with their
  cycles;
* `encodeInstr` : the word of an instruction; `Means`, `Loaded` : what the decoder makes of the words;
* `LoopInv` : the shared loop counter has not passed the count of the next JMP, so `<` and `≠` agree;
* `iteration` : an instruction of the executor, `mainLoop_sim` : the unrolled main loop and the executor in step.
-/

namespace RowhammerTester.Checker
open RowhammerTester.Hdl RowhammerTester.Gateware RowhammerTester.Gateware.PayloadExecutor

/-- The values of the op codes in the `.proto` file. -/
def Opcode.value : Opcode → Nat
  | .RD => 2
  | .ACT => 4
  | .PRE => 5
  | .REF => 6
  | .NOP => 0
  | .JMP => 7
  | .MAX => 8

namespace Ddr3

/-! ## Commands on the DFI -/

/-- A command as the DFI carries it, with active-high strobes. -/
structure DfiCommand where
  csN : Nat
  ras : Bool
  cas : Bool
  we : Bool
  bank : Nat
  address : Nat
deriving DecidableEq, Repr

/-- The command on a phase. -/
def phaseCommand (nranks : Nat) (phase : DfiPhase) : Option DfiCommand :=
  if phase.Deselected nranks then none
  else some ⟨phase.csN, !phase.rasN, !phase.casN, !phase.weN, phase.bank, phase.address⟩

/-- The commands on all phases. -/
def dfiCommands (p : Params) (s : PayloadExecutor.State) : List DfiCommand :=
  (List.range p.nphases).filterMap fun k => phaseCommand p.nranks (s.phases k)

/-- The commands sent in `n` cycles from `t` on, with their cycles: they stand on the DFI after the next clock edge. -/
def issued (p : Params) (states : Nat → PayloadExecutor.State) (t n : Nat) : List (Nat × DfiCommand) :=
  (List.range' t n).flatMap fun k => (dfiCommands p (states (k + 1))).map (Prod.mk k)

/-- The command of a decoded instruction. -/
def decoderCommand (nranks : Nat) (d : Decoder) : DfiCommand :=
  ⟨DfiExecutor.csN nranks d, d.ras, d.cas, d.we, d.dfiBank, d.dfiAddress⟩

/-- The command of a memory instruction; bank and address are cut to the widths of the geometry. -/
def MemInstr.command (g : Geometry) (m : MemInstr) : DfiCommand :=
  { csN := if m.opcode = .REF then 0 else replicateOne (2 ^ g.rankbits) ^^^ oneHot (2 ^ g.rankbits) m.rank
    ras := m.opcode.value.testBit 2
    cas := m.opcode.value.testBit 1
    we := m.opcode.value.testBit 0
    bank := m.bank % 2 ^ g.bankbits
    address := m.addr % 2 ^ g.addressbits }

theorem filterMap_range_single {α : Type} {f : Nat → Option α} {q n : Nat} {c : α} (hq : q < n) (hc : f q = some c)
    (hne : ∀ k, k ≠ q → f k = none) : (List.range n).filterMap f = [c] := by
  induction n with
  | zero => omega
  | succ n ih =>
    rw [List.range_succ, List.filterMap_append]
    by_cases hqn : q = n
    · subst hqn
      have hnone : (List.range q).filterMap f = [] := by
        rw [List.filterMap_eq_nil_iff]
        intro k hk
        exact hne k (Nat.ne_of_lt (List.mem_range.mp hk))
      rw [hnone, List.filterMap_cons_some hc]
      rfl
    · rw [ih (by omega), List.filterMap_cons_none (hne n (Ne.symm hqn))]
      rfl

section Dfi
variable {p : Params} {mem : Nat → BitVec 32} {s : PayloadExecutor.State} {i : Input}

theorem phaseCommand_shows {nranks : Nat} {phase : DfiPhase} {d : Decoder} (h : phase.Shows nranks d)
    (hd : (d.ras || d.cas || d.we) = true) : phaseCommand nranks phase = some (decoderCommand nranks d) := by
  obtain ⟨hcas, hras, hwe, hcs, hbank, haddr⟩ := h
  have hnot : ¬ phase.Deselected nranks := by
    rintro ⟨-, h1, h2, h3⟩
    rw [hcas] at h1
    rw [hras] at h2
    rw [hwe] at h3
    simp only [Bool.not_eq_true'] at h1 h2 h3
    rw [h1, h2, h3] at hd
    cases hd
  rw [phaseCommand, if_neg hnot, decoderCommand, hcas, hras, hwe, hcs, hbank, haddr]
  simp only [Bool.not_not]

/-- Some strobe of a DRAM command is active. -/
theorem strobe_of_isCommand (g : Geometry) (w : BitVec 32) (h : (Decoder.decode g w).IsCommand) :
    ((Decoder.decode g w).ras || (Decoder.decode g w).cas || (Decoder.decode g w).we) = true := by
  obtain ⟨h1, h2, h3⟩ := Decoder.strobes_decode g w
  have hlt := Decoder.opCode_decode_lt g w
  have hne := h.1
  rw [h1, h2, h3]
  generalize (Decoder.decode g w).opCode = op at hlt hne
  interval_cases op <;> first | exact absurd rfl hne | rfl

/-- What stands on the DFI after a clock edge: the command issued before it. -/
theorem dfiCommands_step (hph : p.rdphase < p.nphases) : dfiCommands p (step p mem s i) =
    match issue p s with
    | some d => if d.IsCommand then [decoderCommand p.nranks d] else []
    | none => [] := by
  unfold issue dfiCommands
  by_cases he : exec p s = true
  · rw [if_pos he]
    by_cases hop : (decoder p s).opCode = OpCode.NOOP.value
    · have hnot : ¬ (decoder p s).IsCommand := fun hc => hc.1 hop
      dsimp only
      rw [if_neg hnot, List.filterMap_eq_nil_iff]
      exact fun k _ => if_pos (step_noop he hop k)
    · have hcmd : (decoder p s).IsCommand := by
        refine ⟨hop, ?_⟩
        simp only [exec, Bool.and_eq_true, Bool.not_eq_true', decide_eq_false_iff_not] at he
        exact he.2
      have hq : commandPhase p (decoder p s) < p.nphases := by
        unfold commandPhase
        split
        · exact lt_of_le_of_lt (Nat.mod_le _ _) hph
        · omega
      dsimp only
      rw [if_pos hcmd]
      refine filterMap_range_single hq ?_ fun k hk => if_pos (step_deselected_other p mem i he hk)
      exact phaseCommand_shows (step_shows p mem i he) (strobe_of_isCommand _ _ hcmd)
  · rw [if_neg he]
    dsimp only
    rw [List.filterMap_eq_nil_iff]
    exact fun k _ => if_pos (step_deselected p mem i (by simpa using he) k)

end Dfi

/-! ## The words of a payload -/

/-- The encoder's op code for an op code of the checker. -/
def encoderOpCode : Opcode → OpCode
  | .RD => .READ
  | .ACT => .ACT
  | .PRE => .PRE
  | .REF => .REF
  | .JMP => .LOOP
  | _ => .NOOP

/-- The arguments of the address field: a column for RD, a row for the others. -/
def addressArgs (m : MemInstr) : Encoder.AddressArgs :=
  if m.opcode = .RD then { rank := some m.rank, bank := m.bank, col := some m.addr }
  else { rank := some m.rank, bank := m.bank, row := some m.addr }

/-- The word of an instruction. -/
def encodeInstr (e : Encoder) : Instr MemInstr → Py Nat
  | .mem m => do
    let address ← e.address (addressArgs m)
    Encoder.encode (encoderOpCode m.opcode) { timeslice := some m.timeslice, address := some address }
  | .nop nop => Encoder.encode .NOOP { timeslice := some nop.timeslice }
  | .jmp jmp => Encoder.encode .LOOP { count := some jmp.count, jump := some jmp.offset }
  | .unset => throw .typeError

/-- The fields fit the gateware's format. -/
def FitsGateware (instr : List (Instr MemInstr)) : Prop :=
  ∀ i ∈ instr, match i with
    | .mem m => m.timeslice ≤ 31
    | .jmp jmp => jmp.count < 2 ^ 12 ∧ jmp.offset < 2 ^ 17
    | _ => True

/-- The decoded word `d` does what the instruction says. -/
def Means (g : Geometry) (d : Decoder) : Instr MemInstr → Prop
  | .mem m => Interp.Plain d ∧ d.IsCommand ∧ d.cycles = m.timeslice ∧ decoderCommand (2 ^ g.rankbits) d = m.command g
  | .nop nop => Interp.Plain d ∧ ¬ d.IsCommand ∧ d.cycles = nop.timeslice
  | .jmp jmp => d.IsLoop ∧ d.stop = false ∧ d.loopCount = jmp.count ∧ d.loopJump = jmp.offset
  | .unset => False

section Encode
variable {g : Geometry}

theorem decoderCommand_eq {m : MemInstr} (hop : MemOp m) {w : BitVec 32}
    (hcode : (Decoder.decode g w).opCode = m.opcode.value)
    (hrank : (Decoder.decode g w).dfiRank = m.rank) (hbank : (Decoder.decode g w).dfiBank = m.bank % 2 ^ g.bankbits)
    (haddr : (Decoder.decode g w).dfiAddress = m.addr % 2 ^ g.addressbits) :
    decoderCommand (2 ^ g.rankbits) (Decoder.decode g w) = m.command g := by
  obtain ⟨hcas, hras, hwe⟩ := Decoder.strobes_decode g w
  have hop' : m.opcode = .RD ∨ m.opcode = .ACT ∨ m.opcode = .PRE ∨ m.opcode = .REF := hop
  have hcs : DfiExecutor.csN (2 ^ g.rankbits) (Decoder.decode g w) =
      if m.opcode = .REF then 0 else replicateOne (2 ^ g.rankbits) ^^^ oneHot (2 ^ g.rankbits) m.rank := by
    unfold DfiExecutor.csN
    rw [hrank, hcode]
    rcases hop' with h | h | h | h <;> rw [h] <;> rfl
  rw [decoderCommand, MemInstr.command, hcs, hcas, hras, hwe, hcode, hbank, haddr]

/-- A memory instruction is encoded and decoded to its command. -/
theorem means_mem {m : MemInstr} (hv : verifyMem m = true) (hts : m.timeslice ≤ 31) :
    ∃ v, encodeInstr ⟨g.bankbits, 2 ^ g.rankbits⟩ (.mem m) = .ok v ∧
      Means g (Decoder.decode g (BitVec.ofNat 32 v)) (.mem m) := by
  have hop : MemOp m := memOp_of_verifyMem hv
  have hts0 : 0 < m.timeslice := timeslice_pos_of_verifyMem hv
  simp only [verifyMem, decide_eq_true_eq] at hv
  obtain ⟨hop', -, hrank, -⟩ := hv
  have hdfi : Encoder.isDfi (encoderOpCode m.opcode) = true := by
    rcases hop' with h | h | h | h <;> rw [h] <;> rfl
  have hval : (encoderOpCode m.opcode).value = m.opcode.value := by
    rcases hop' with h | h | h | h <;> rw [h] <;> rfl
  have hargs : (addressArgs m).rank = some m.rank ∧ (addressArgs m).bank = m.bank ∧
      ¬ ((addressArgs m).row.isSome ∧ (addressArgs m).col.isSome) ∧
      ((addressArgs m).row.or (addressArgs m).col).getD 0 = m.addr := by
    unfold addressArgs
    split <;> simp
  obtain ⟨hr, hb, hrc, hrowcol⟩ := hargs
  have hrank0 : m.rank < 2 ^ g.rankbits := by
    rw [hrank]
    exact Nat.two_pow_pos _
  obtain ⟨a, ha, hR, hB, hA⟩ := Encoder.decode_dfi_address g hdfi m.timeslice hr hrank0 hrc
  rw [hb] at hB
  rw [hrowcol] at hA
  have hIs := is_dfi g hdfi m.timeslice (some a)
  refine ⟨Encoder.encodeSpec (Encoder.I.dfi (encoderOpCode m.opcode) m.timeslice (some a)), ?_, plain_dfi g hdfi _ _,
    command_of_is hdfi hIs, ?_, decoderCommand_eq hop (hIs.trans hval) hR hB hA⟩
  · have hinit : Encoder.I.init (encoderOpCode m.opcode) { timeslice := some m.timeslice, address := some a } =
        .ok (Encoder.I.dfi (encoderOpCode m.opcode) m.timeslice (some a)) :=
      Encoder.init_dfi hdfi (Nat.ne_of_gt hts0) fun h => by cases h
    rw [encodeInstr, ha]
    simp only [bind, Except.bind, Encoder.encode, hinit]
    rfl
  · refine (cycles_dfi g hdfi m.timeslice (some a)).trans ?_
    rw [Nat.mod_eq_of_lt (by omega)]
    omega

/-- Every instruction that passes `VerifyInstr` and fits is encoded and decoded to what it says. -/
theorem exists_encodeInstr {payload : Payload Timing MemInstr} (hver : Verified lib payload)
    (hfit : FitsGateware payload.instr) {i : Instr MemInstr} (hi : i ∈ payload.instr) :
    ∃ v, encodeInstr ⟨g.bankbits, 2 ^ g.rankbits⟩ i = .ok v ∧ Means g (Decoder.decode g (BitVec.ofNat 32 v)) i := by
  obtain ⟨ip, hip⟩ := hver.mem hi
  have hf := hfit i hi
  cases i with
  | mem m => exact means_mem hip hf
  | nop nop =>
    simp only [verifyInstr, decide_eq_true_eq] at hip
    obtain ⟨-, hpos, hlt⟩ := hip
    have hmod : nop.timeslice % 2 ^ 29 = nop.timeslice := Nat.mod_eq_of_lt (by simpa using hlt)
    refine ⟨Encoder.encodeSpec (Encoder.I.noop nop.timeslice), rfl, plain_noop g (by omega), ?_, ?_⟩
    · exact fun hc => hc.1 (is_noop g nop.timeslice)
    · refine (cycles_noop g nop.timeslice).trans ?_
      rw [hmod]
      omega
  | jmp jmp =>
    obtain ⟨hop, hcount, hjump, hstop⟩ := Encoder.decode_loop g jmp.count jmp.offset
    refine ⟨Encoder.encodeSpec (Encoder.I.loop jmp.count jmp.offset), rfl, hop, hstop, ?_, ?_⟩
    · exact hcount.trans (Nat.mod_eq_of_lt hf.1)
    · exact hjump.trans (Nat.mod_eq_of_lt hf.2)
  | unset => cases hip

/-- The words of a list of instructions. -/
theorem exists_words {instr : List (Instr MemInstr)} {e : Encoder} {P : Instr MemInstr → Nat → Prop}
    (h : ∀ i ∈ instr, ∃ v, encodeInstr e i = .ok v ∧ P i v) :
    ∃ words, instr.mapM (encodeInstr e) = .ok words ∧ List.Forall₂ P instr words := by
  induction instr with
  | nil => exact ⟨[], rfl, List.Forall₂.nil⟩
  | cons i instr ih =>
    obtain ⟨v, hv, hP⟩ := h i (List.mem_cons_self ..)
    obtain ⟨words, hwords, hall⟩ := ih fun j hj => h j (List.mem_cons_of_mem _ hj)
    refine ⟨v :: words, ?_, List.Forall₂.cons hP hall⟩
    rw [List.mapM_cons, hv, hwords]
    rfl

/-- The payload memory holds the instructions, and STOP behind them. -/
structure Loaded (p : Params) (mem : Nat → BitVec 32) (instr : List (Instr MemInstr)) : Prop where
  means : ∀ (a : Nat) (i : Instr MemInstr), instr[a]? = some i → Means p.geometry (fetch p mem a) i
  stop : ∀ a, instr[a]? = none → (fetch p mem a).stop = true

theorem loaded_loadWords {p : Params} {instr : List (Instr MemInstr)} {words : List Nat}
    (h : List.Forall₂ (fun i v => Means p.geometry (Decoder.decode p.geometry (BitVec.ofNat 32 v)) i) instr words) :
    Loaded p (loadWords words) instr := by
  refine ⟨fun a i hi => ?_, fun a hnone => ?_⟩
  · obtain ⟨ha, rfl⟩ := List.getElem?_eq_some_iff.mp hi
    have hw := h.get ha (h.length_eq ▸ ha)
    rw [List.get_eq_getElem, List.get_eq_getElem] at hw
    rw [PayloadExecutor.fetch, loadWords, List.getD_eq_getElem _ _ (h.length_eq ▸ ha)]
    exact hw
  · have hlen : words.length ≤ a := by
      rw [← h.length_eq]
      exact List.getElem?_eq_none_iff.mp hnone
    rw [PayloadExecutor.fetch, loadWords, List.getD_eq_default _ _ hlen]
    have hstop : (Decoder.ofSpec p.geometry (Encoder.I.noop 0)).stop = true := stop_noop p.geometry rfl
    exact hstop

end Encode

/-! ## In step -/

/-- The loop counter has not passed the count of the next JMP. -/
def LoopInv (instr : List (Instr MemInstr)) (ip loop : Nat) : Prop :=
  ∀ (k : Nat) (jmp : JmpInstr), ip ≤ k → instr[k]? = some (.jmp jmp) → (∀ i, ip ≤ i → i < k → ¬ IsJmp instr i) →
    loop ≤ jmp.count

section Sim
variable {p : Params} {mem : Nat → BitVec 32} {instr : List (Instr MemInstr)} {s₀ : PayloadExecutor.State}
  {inp : Nat → Input}

theorem not_isJmp_of_ne {ip : Nat} {i : Instr MemInstr} (hi : instr[ip]? = some i) (h : ∀ jmp, i ≠ .jmp jmp) :
    ¬ IsJmp instr ip := by
  rintro ⟨jmp, hj⟩
  rw [hi] at hj
  exact h jmp (Option.some.inj hj)

theorem LoopInv.step {ip loop : Nat} (h : LoopInv instr ip loop) (hj : ¬ IsJmp instr ip) :
    LoopInv instr (ip + 1) loop := by
  intro k jmp hk hjmp hnone
  refine h k jmp (by omega) hjmp fun i hi hik => ?_
  rcases Nat.eq_or_lt_of_le hi with rfl | hi
  · exact hj
  · exact hnone i hi hik

theorem LoopInv.jump (hnest : NoNestedJmp instr) {ip loop : Nat} {jmp : JmpInstr} (hi : instr[ip]? = some (.jmp jmp))
    (hloop : loop < jmp.count) : LoopInv instr (ip - jmp.offset) (loop + 1) := by
  intro k jmp' hk hjmp' hnone
  rcases Nat.lt_trichotomy k ip with hlt | rfl | hgt
  · exact absurd ⟨jmp', hjmp'⟩ (hnest ip jmp hi k hk hlt)
  · rw [hi] at hjmp'
    cases hjmp'
    exact hloop
  · exact absurd ⟨jmp, hi⟩ (hnone ip (Nat.sub_le _ _) hgt)

theorem issued_append (states : Nat → PayloadExecutor.State) (t a b : Nat) :
    issued p states t (a + b) = issued p states t a ++ issued p states (t + a) b := by
  unfold issued
  rw [← List.flatMap_append, List.range'_append_1]

/-- From cycle `t` to `t'` the executor executes, and sends `cmds`. -/
structure Runs (p : Params) (states : Nat → PayloadExecutor.State) (t t' : Nat) (cmds : List (Nat × DfiCommand)) :
    Prop where
  le : t ≤ t'
  executing : ∀ k, t ≤ k → k < t' → PayloadExecutor.executing (states k) = true
  issued : issued p states t (t' - t) = cmds

theorem Runs.refl (p : Params) (states : Nat → PayloadExecutor.State) (t : Nat) : Runs p states t t [] :=
  ⟨Nat.le_refl t, fun k hk hk' => absurd hk' (Nat.not_lt.mpr hk), by rw [Nat.sub_self]; rfl⟩

theorem Runs.trans {states : Nat → PayloadExecutor.State} {t t' t'' : Nat} {cmds cmds' : List (Nat × DfiCommand)}
    (h : Runs p states t t' cmds) (h' : Runs p states t' t'' cmds') : Runs p states t t'' (cmds ++ cmds') := by
  refine ⟨Nat.le_trans h.le h'.le, fun k hk hk' => ?_, ?_⟩
  · by_cases hmid : k < t'
    · exact h.executing k hk hmid
    · exact h'.executing k (Nat.le_of_not_lt hmid) hk'
  · have h1 := h.le
    have h2 := h'.le
    rw [show t'' - t = (t' - t) + (t'' - t') by omega, issued_append, h.issued, show t + (t' - t) = t' by omega,
      h'.issued]

/-- One instruction of the executor: its cycles, and the command it sends in the first of them. -/
theorem iteration (hph : p.rdphase < p.nphases) {st st' : Interp.State} {t : Nat}
    (hsim : Sim p mem st (run (step p mem) s₀ inp t)) (hs : (fetch p mem st.pc).stop = false)
    (hn : Interp.next (fetch p mem st.pc) st = some st') (hpc : st.pc < p.depth - 1) (hpc' : st'.pc < p.depth - 1)
    (hc : st'.loopCounter < 2 ^ 12) :
    Runs p (run (step p mem) s₀ inp) t (t + (fetch p mem st.pc).cycles)
      (if (fetch p mem st.pc).IsCommand then [(t, decoderCommand p.nranks (fetch p mem st.pc))] else []) ∧
    Sim p mem st' (run (step p mem) s₀ inp (t + (fetch p mem st.pc).cycles)) := by
  obtain ⟨hbusy, hsim'⟩ := sim_next (fun k => inp (t + k)) hsim hs hn hpc hpc' hc
  have hat : ∀ k, run (step p mem) (run (step p mem) s₀ inp t) (fun k => inp (t + k)) k =
    run (step p mem) s₀ inp (t + k) :=
    fun k => (run_add _ _ _ _ _).symm
  have hdfi : ∀ k < (fetch p mem st.pc).cycles, dfiCommands p (run (step p mem) s₀ inp (t + k + 1)) =
      if k = 0 ∧ (fetch p mem st.pc).IsCommand then [decoderCommand p.nranks (fetch p mem st.pc)] else [] := by
    intro k hk
    have hissue := (hbusy k hk).2
    rw [hat] at hissue
    rw [run_succ, dfiCommands_step hph, hissue]
    by_cases hk0 : k = 0
    · rw [if_pos hk0]
      by_cases hl : (fetch p mem st.pc).IsLoop
      · rw [if_pos hl, if_neg fun hcmd => hcmd.2.2 hl]
      · rw [if_neg hl]
        simp only [hk0, true_and]
    · rw [if_neg hk0, if_neg fun hcmd => hk0 hcmd.1]
  refine ⟨⟨Nat.le_add_right _ _, fun k hk hk' => ?_, ?_⟩, ?_⟩
  · obtain ⟨j, rfl⟩ := Nat.exists_eq_add_of_le hk
    rw [← hat]
    exact (hbusy j (by omega)).1
  · have hpos := (fetch p mem st.pc).cycles_pos
    have hrest : issued p (run (step p mem) s₀ inp) (t + 1) ((fetch p mem st.pc).cycles - 1) = [] := by
      rw [issued, List.flatMap_eq_nil_iff]
      intro k hk
      rw [List.mem_range'_1] at hk
      obtain ⟨j, rfl⟩ := Nat.exists_eq_add_of_le (show t ≤ k by omega)
      rw [hdfi j (by omega), if_neg (by omega)]
      rfl
    rw [Nat.add_sub_cancel_left, show (fetch p mem st.pc).cycles = 1 + ((fetch p mem st.pc).cycles - 1) by omega,
      issued_append, hrest, List.append_nil]
    have hfirst := hdfi 0 hpos
    rw [Nat.add_zero] at hfirst
    simp only [issued, List.range'_one, List.flatMap_singleton, hfirst, true_and]
    split <;> rfl
  · rw [← hat]
    exact hsim'

/-- An instruction that is no LOOP and no STOP. -/
theorem iteration_plain (hph : p.rdphase < p.nphases) {ip loop t : Nat}
    (hsim : Sim p mem ⟨ip, loop⟩ (run (step p mem) s₀ inp t)) (hplain : Interp.Plain (fetch p mem ip))
    (hip : ip + 1 < p.depth - 1) (hc : loop < 2 ^ 12) :
    Runs p (run (step p mem) s₀ inp) t (t + (fetch p mem ip).cycles)
      (if (fetch p mem ip).IsCommand then [(t, decoderCommand p.nranks (fetch p mem ip))] else []) ∧
    Sim p mem ⟨ip + 1, loop⟩ (run (step p mem) s₀ inp (t + (fetch p mem ip).cycles)) := by
  have hn : Interp.next (fetch p mem ip) ⟨ip, loop⟩ = some ⟨ip + 1, loop⟩ := if_neg hplain.1
  exact iteration hph hsim hplain.2 hn (Nat.lt_of_succ_lt hip) hip hc

/-- Below the count the counters of a JMP are different, and at the count equal. -/
theorem next_jump {s : State} {jmp : JmpInstr} (hl : (fetch p mem s.ip).IsLoop)
    (hcount : (fetch p mem s.ip).loopCount = jmp.count) (hjump : (fetch p mem s.ip).loopJump = jmp.offset)
    (hoff : jmp.offset ≤ s.ip) (hle : s.loop ≤ jmp.count) :
    Interp.next (fetch p mem s.ip) ⟨s.ip, s.loop⟩ = some ⟨(s.jump jmp).ip, (s.jump jmp).loop⟩ := by
  rw [Interp.next, if_pos hl, hcount, hjump]
  unfold State.jump
  by_cases hlt : s.loop < jmp.count
  · rw [if_pos (Nat.ne_of_lt hlt), if_pos hoff, if_pos hlt]
  · rw [if_neg (not_not.mpr (by simp only; omega)), if_neg hlt]

theorem jump_inv (hnest : NoNestedJmp instr) {s : State} {jmp : JmpInstr} (hi : instr[s.ip]? = some (.jmp jmp))
    (hcount : jmp.count < 2 ^ 12) (hlt : s.ip < instr.length) :
    (s.jump jmp).ip ≤ instr.length ∧ (s.jump jmp).loop < 2 ^ 12 ∧ (s.jump jmp).tick = s.tick + 1 ∧
      LoopInv instr (s.jump jmp).ip (s.jump jmp).loop := by
  unfold State.jump
  split
  · next hless => exact ⟨by simp only; omega, by simp only; omega, rfl, LoopInv.jump hnest hi hless⟩
  · exact ⟨hlt, Nat.two_pow_pos 12, rfl, fun _ _ _ _ _ => Nat.zero_le _⟩

/-- **In step.** The unrolled main loop and the executor visit the same commands at the same ticks, up to a STOP. -/
theorem mainLoop_sim (hph : p.rdphase < p.nphases) (hload : Loaded p mem instr) (hnest : NoNestedJmp instr)
    (hback : Backward instr) (hlen : instr.length + 2 ≤ p.depth) {fuel : Nat} {s s' : State} {u : List (Nat × MemInstr)}
    (h : mainLoop lib.unroll instr fuel s () = some (u, .ok s' ())) (hloop : LoopInv instr s.ip s.loop)
    (hip : s.ip ≤ instr.length) (hcount : s.loop < 2 ^ 12)
    (hsim : Sim p mem ⟨s.ip, s.loop⟩ (run (step p mem) s₀ inp s.tick)) :
    Runs p (run (step p mem) s₀ inp) s.tick s'.tick (u.map fun x => (x.1, x.2.command p.geometry)) ∧
    ∃ st, Sim p mem st (run (step p mem) s₀ inp s'.tick) ∧ (fetch p mem st.pc).stop = true := by
  induction fuel generalizing s u with
  | zero => cases h
  | succ fuel ih =>
    rcases mainLoop_cases h with ⟨hi, rfl, hr⟩ | ⟨_, -, he, -, -⟩ | ⟨m, _, u', hi, -, hrec, rfl⟩ | ⟨nop, hi, hrec⟩ |
      ⟨jmp, hi, hrec⟩ | ⟨-, -, hr⟩
    · cases hr
      exact ⟨Runs.refl _ _ _, _, hsim, hload.stop _ hi⟩
    · cases he
    · have hlt : s.ip < instr.length := (List.getElem?_eq_some_iff.mp hi).1
      obtain ⟨hplain, hcmd, hcycles, hcommand⟩ := hload.means s.ip _ hi
      obtain ⟨hruns, hsim'⟩ := iteration_plain hph hsim hplain (by omega) hcount
      rw [if_pos hcmd, hcycles, show p.nranks = 2 ^ p.geometry.rankbits from rfl, hcommand] at hruns
      rw [hcycles] at hsim'
      obtain ⟨hruns', hstop⟩ := ih hrec (hloop.step (not_isJmp_of_ne hi nofun)) hlt hcount hsim'
      exact ⟨hruns.trans hruns', hstop⟩
    · have hlt : s.ip < instr.length := (List.getElem?_eq_some_iff.mp hi).1
      obtain ⟨hplain, hcmd, hcycles⟩ := hload.means s.ip _ hi
      obtain ⟨hruns, hsim'⟩ := iteration_plain hph hsim hplain (by omega) hcount
      rw [if_neg hcmd, hcycles] at hruns
      rw [hcycles] at hsim'
      obtain ⟨hruns', hstop⟩ := ih hrec (hloop.step (not_isJmp_of_ne hi nofun)) hlt hcount hsim'
      exact ⟨hruns.trans hruns', hstop⟩
    · have hlt : s.ip < instr.length := (List.getElem?_eq_some_iff.mp hi).1
      obtain ⟨hl, hstop, hloopCount, hloopJump⟩ := hload.means s.ip _ hi
      have hle : s.loop ≤ jmp.count := hloop s.ip jmp (Nat.le_refl _) hi fun i hi' hi'' =>
        absurd hi'' (Nat.not_lt.mpr hi')
      have hoff := hback s.ip jmp hi
      have hcount' : jmp.count < 2 ^ 12 := hloopCount ▸ Decoder.loopCount_decode_lt _ _
      have hn := next_jump hl hloopCount hloopJump hoff hle
      obtain ⟨hip', hc', htick, hloop'⟩ := jump_inv hnest hi hcount' hlt
      obtain ⟨hruns, hsim'⟩ := iteration hph hsim hstop hn (by simp only; omega) (by simp only; omega) hc'
      have hcycles : (fetch p mem s.ip).cycles = 1 := if_pos hl
      rw [if_neg fun hc => hc.2 hl, hcycles, ← htick] at hruns
      rw [hcycles, ← htick] at hsim'
      obtain ⟨hruns', hend⟩ := ih hrec hloop' hip' hc' hsim'
      exact ⟨hruns.trans hruns', hend⟩
    · cases hr

end Sim

/-! ## Whole payloads -/

/-- From the start pulse to READY: the executor runs the payload memory for `cycles` cycles, sends `cmds` and stops. -/
structure Execution (p : Params) (mem : Nat → BitVec 32) (cycles : Nat) (cmds : List (Nat × DfiCommand))
    (s₀ : PayloadExecutor.State) (inp : Nat → Input) (first : Nat) : Prop where
  before : ∀ t < first, (run (step p mem) s₀ inp t).fsm ≠ .RUN
  start : (run (step p mem) s₀ inp first).fsm = .RUN
  runs : Runs p (fun k => run (step p mem) s₀ inp (first + k)) 0 cycles cmds
  stop : (run (step p mem) s₀ inp (first + cycles)).fsm = .RUN ∧
    (decoder p (run (step p mem) s₀ inp (first + cycles))).stop = true
  ready : (run (step p mem) s₀ inp (first + cycles + 1)).fsm = .READY

/-- The executor and the unrolled payload. -/
theorem exists_execution {p : Params} (hph : p.rdphase < p.nphases) {payload : Payload Timing MemInstr}
    (hver : Verified lib payload) (hfit : FitsGateware payload.instr) (hnest : NoNestedJmp payload.instr)
    (hlen : payload.instr.length + 2 ≤ p.depth) :
    ∃ words fuel u s, payload.instr.mapM (encodeInstr ⟨p.geometry.bankbits, p.nranks⟩) = .ok words ∧
      mainLoop lib.unroll payload.instr fuel State.start () = some (u, .ok s ()) ∧
      ∀ (s₀ : PayloadExecutor.State) (inp : Nat → Input) (w : Nat), s₀.fsm = .READY → s₀.loopCounter = 0 →
        (inp 0).start = true → (∀ k < w, (inp (k + 1)).dfiReady = false) → (inp (w + 1)).dfiReady = true →
        Execution p (loadWords words) s.tick (u.map fun x => (x.1, x.2.command p.geometry)) s₀ inp (w + 2) := by
  obtain ⟨words, hwords, hall⟩ := exists_words fun i hi => exists_encodeInstr hver hfit hi
  obtain ⟨u, s, fuel, hloop⟩ := hver.exists_unrolls hnest
  refine ⟨words, fuel, u, s, hwords, hloop, fun s₀ inp w hfsm hlc hstart hwait hready => ?_⟩
  obtain ⟨hw, hsim⟩ := run_wait p (loadWords words) hfsm hlc hstart hwait hready
  have hat : (fun k => run (step p (loadWords words)) s₀ inp (w + 2 + k)) =
      run (step p (loadWords words)) (run (step p (loadWords words)) s₀ inp (w + 2)) fun k => inp (w + 2 + k) := by
    funext k
    exact run_add _ _ _ _ _
  have hsim₀ : Sim p (loadWords words) ⟨State.start.ip, State.start.loop⟩
      (run (step p (loadWords words)) (run (step p (loadWords words)) s₀ inp (w + 2)) (fun k => inp (w + 2 + k))
        State.start.tick) := hsim
  obtain ⟨hruns, st, hend, hstop⟩ := mainLoop_sim hph (loaded_loadWords hall) hnest hver.backward hlen hloop
    (fun _ _ _ _ _ => Nat.zero_le _) (Nat.zero_le _) (Nat.two_pow_pos 12) hsim₀
  refine ⟨fun t ht => ?_, hsim.fsm, by rw [hat]; exact hruns, ?_, ?_⟩
  · rcases Nat.eq_zero_or_pos t with rfl | hpos
    · rw [run_zero, hfsm]
      decide
    · obtain ⟨k, rfl⟩ := Nat.exists_eq_add_of_le' hpos
      rw [hw k (by omega)]
      decide
  · rw [run_add, hend.decoder]
    exact ⟨hend.fsm, hstop⟩
  · rw [run_succ, run_add]
    exact (sim_stop _ hend hstop).1

/-- **The checker and the executor agree.** For every DDR3 payload whose instructions pass `VerifyInstr` and fit the
gateware's format, without nested JMPs and with room for two more words, the encoder produces its words, and the
executor sends the same commands `cmds` in the same `cycles` whenever it runs them. When the checker accepts, it has
visited exactly these commands at these ticks and its final tick is `cycles`; when it rejects, it has visited the first
ones. -/
theorem executor_matches_checker (p : Params) (hph : p.rdphase < p.nphases) (payload : Payload Timing MemInstr)
    (hver : Verified lib payload) (hfit : FitsGateware payload.instr) (hnest : NoNestedJmp payload.instr)
    (hlen : payload.instr.length + 2 ≤ p.depth) :
    ∃ words cmds cycles, payload.instr.mapM (encodeInstr ⟨p.geometry.bankbits, p.nranks⟩) = .ok words ∧
      (∀ (s₀ : PayloadExecutor.State) (inp : Nat → Input) (w : Nat), s₀.fsm = .READY → s₀.loopCounter = 0 →
        (inp 0).start = true → (∀ k < w, (inp (k + 1)).dfiReady = false) → (inp (w + 1)).dfiReady = true →
        Execution p (loadWords words) cycles cmds s₀ inp (w + 2)) ∧
      (∀ tr s, Accepts lib payload tr s → (tr.map fun x => (x.1, x.2.command p.geometry)) = cmds ∧ s.tick = cycles) ∧
      ∀ tr s, Rejects lib payload tr s → (tr.map fun x => (x.1, x.2.command p.geometry)) <+: cmds := by
  obtain ⟨words, fuel, u, s, hwords, hloop, hexec⟩ := exists_execution hph hver hfit hnest hlen
  refine ⟨words, _, _, hwords, hexec, fun tr s' hacc => ?_, fun tr s' hrej => ?_⟩
  · obtain ⟨-, -, fuel', rank, hloop'⟩ := accepts_iff.mp hacc
    obtain ⟨rfl, hs⟩ := (mainLoop_unroll hloop' hloop).2 s' rank rfl
    cases hs
    exact ⟨rfl, rfl⟩
  · obtain ⟨-, -, fuel', hloop'⟩ := rejects_iff.mp hrej
    exact (mainLoop_unroll hloop' hloop).1.map _

/-- An executor with four phases, one rank and a payload memory of eight words. -/
def sampleParams : Params :=
  { depth := 8, geometry := ⟨0, 3, 14, 10, Geometry.sample_fits⟩, nphases := 4, rdphase := 2 }

/-- The sample payload that hammers a row, with the activation in two instructions. -/
def hammerShort : Payload Timing MemInstr :=
  { timing := sampleTiming
    instr := [.mem ⟨.ACT, 31, 0, 0, 0⟩, .nop ⟨.NOP, 1⟩, .mem ⟨.PRE, 9, 0, 0, 0⟩] ++ [.jmp ⟨.JMP, 3, 1⟩] }

theorem executor_matches_checker_hammer : ∃ words tr s, Accepts lib hammerShort tr s ∧ s.tick = 84 ∧
    hammerShort.instr.mapM (encodeInstr ⟨3, 1⟩) = .ok words ∧
    Execution sampleParams (loadWords words) 84 (tr.map fun x => (x.1, x.2.command sampleParams.geometry))
      (reset sampleParams (loadWords words)) (fun _ => ⟨true, true⟩) 2 := by
  have hver : Verified lib hammerShort := firstIllegal_eq_none.mp (by decide)
  have hacc : Accepts lib hammerShort [(0, ⟨.ACT, 31, 0, 0, 0⟩), (32, ⟨.PRE, 9, 0, 0, 0⟩), (42, ⟨.ACT, 31, 0, 0, 0⟩),
    (74, ⟨.PRE, 9, 0, 0, 0⟩)] ⟨4, 84, 0⟩ := ⟨9, by decide +kernel⟩
  have hfit : FitsGateware hammerShort.instr := by simp [FitsGateware, hammerShort]
  obtain ⟨words, cmds, cycles, hwords, hexec, haccepted, -⟩ :=
    executor_matches_checker sampleParams (by decide) hammerShort
    hver hfit (noNestedJmp_concat (by simp) _) (by decide)
  obtain ⟨rfl, rfl⟩ := haccepted _ _ hacc
  exact ⟨words, _, _, hacc, rfl, hwords, hexec _ _ 0 rfl rfl rfl (by simp) rfl⟩

/-- A row is closed too early, and the rank refreshed. -/
def closedEarly : Payload Timing MemInstr :=
  { timing := sampleTiming
    instr := [.mem ⟨.ACT, 5, 0, 0, 0⟩, .mem ⟨.PRE, 5, 0, 0, 0⟩, .mem ⟨.REF, 5, 0, 0, 0⟩] }

/-- The checker stops at the PRE, the executor goes on to the REF. -/
theorem rejected_payload_goes_on : ∃ words tr s, Verified lib closedEarly ∧ FitsGateware closedEarly.instr ∧
    NoNestedJmp closedEarly.instr ∧ closedEarly.instr.length + 2 ≤ sampleParams.depth ∧
    Rejects lib closedEarly tr s ∧ closedEarly.instr.mapM (encodeInstr ⟨3, 1⟩) = .ok words ∧
    Execution sampleParams (loadWords words) 15
      ((tr.map fun x => (x.1, x.2.command sampleParams.geometry)) ++
        [(10, MemInstr.command sampleParams.geometry ⟨.REF, 5, 0, 0, 0⟩)])
      (reset sampleParams (loadWords words)) (fun _ => ⟨true, true⟩) 2 := by
  have hver : Verified lib closedEarly := firstIllegal_eq_none.mp (by decide)
  have hfit : FitsGateware closedEarly.instr := by simp [FitsGateware, closedEarly]
  have hnest : NoNestedJmp closedEarly.instr := by
    intro k jmp hk
    have := List.mem_of_getElem? hk
    simp [closedEarly] at this
  have hrej : Rejects lib closedEarly [(0, ⟨.ACT, 5, 0, 0, 0⟩), (5, ⟨.PRE, 5, 0, 0, 0⟩)] ⟨1, 5, 0⟩ :=
    ⟨9, by decide +kernel⟩
  obtain ⟨words, fuel, u, s, hwords, hloop, hexec⟩ :=
    @exists_execution sampleParams (by decide) closedEarly hver hfit hnest
    (by decide)
  have hunroll : mainLoop lib.unroll closedEarly.instr 4 State.start () =
      some ([(0, ⟨.ACT, 5, 0, 0, 0⟩), (5, ⟨.PRE, 5, 0, 0, 0⟩), (10, ⟨.REF, 5, 0, 0, 0⟩)], .ok ⟨3, 15, 0⟩ ()) := rfl
  obtain ⟨rfl, hs⟩ := (mainLoop_unroll hunroll hloop).2 _ _ rfl
  cases hs
  exact ⟨words, _, _, hver, hfit, hnest, by decide, hrej, hwords, hexec _ _ 0 rfl rfl rfl (by simp) rfl⟩

end Ddr3

end RowhammerTester.Checker
