import RowhammerTester.Gateware.ExecutorBoard
import RowhammerTester.Playbook.ErrorLog
import RowhammerTester.Playbook.IdlePayload
import RowhammerTester.Playbook.Main

/-!
# Retention experiments

The playbook with `IdlePayloadGenerator`, beside the whole SoC: the memory is filled, left alone and tested.

* `Idle.generator` : the generator as `main` calls it; `Idle.initialize` : its attributes at the start;
* `Idles` : a run that refreshes, idles and refreshes; `idles_of_executes` : the idle payload is one;
* `idle_dependable` : the generator serves every round;
* `retention_on_soc` : the whole of the experiment.
-/

namespace RowhammerTester.Playbook
open RowhammerTester.Hdl RowhammerTester.Gateware RowhammerTester.Gateware.Bist RowHammerSoC RowhammerTester.Scripts
  Encoder Interp

/-! ## The generator -/

/-- `IdlePayloadGenerator` on a board; its payloads are printed. -/
def Idle.generator (g : LogGenerator) (args : IdleArgs) (maxIteration mainRamSize : Nat) :
    PayloadGenerator LogState where
  getMemsetRange _ := .ok (0x0, mainRamSize)
  getPayload _ := generateIdlePayload { args with verbose := true }
  getMemtestRange _ := .ok (0x0, mainRamSize)
  processErrors := Idle.processErrors g
  done st := decide (st.iteration ≥ maxIteration)

/-- The attributes after `initialize`. -/
def Idle.initialize : LogState := ⟨0, [], fun _ => none⟩

/-! ## The payload -/

/-- A run that issues `before` REF, then only NOOPs for `n` cycles, then `after` REF, and no other command. -/
structure Idles (n before after : Nat) (tr : List Visit) : Prop where
  parts : ∃ first idle last, tr = first ++ (idle ++ last) ∧
    first.countP (fun v => decide (v.instr.Is .REF)) = before ∧ (∀ v ∈ idle, v.instr.Is .NOOP) ∧
    duration Visit.cycles idle = n ∧ last.countP (fun v => decide (v.instr.Is .REF)) = after
  only : ∀ v ∈ tr, v.instr.IsCommand → v.instr.Is .REF

section Payload
variable {args : IdleArgs} {g : Geometry}

/-- The NOOPs between the refreshes. -/
def IdleArgs.idle (args : IdleArgs) : List I :=
  args.noops ++ if args.lastNoopTime = 0 then [] else [I.noop args.lastNoopTime]

/-- What follows them. -/
def IdleArgs.rest (args : IdleArgs) : List I :=
  (if args.lastNoopTime = 0 then [] else args.refreshLoop.unroll) ++ [I.noop 0]

theorem IdleArgs.visited_eq (hlead : args.lead % 2 ^ 29 ≠ 0) :
    args.visited = (I.noop args.lead :: args.refreshLoop.unroll) ++ (args.idle ++ args.rest) := by
  unfold visited idle rest
  rw [if_neg hlead]
  by_cases hlast : args.lastNoopTime = 0
  · simp [hlast]
  · simp [hlast]

theorem mem_idle {i : I} (h : i ∈ args.idle) : ∃ timeslice, i = I.noop timeslice := by
  unfold IdleArgs.idle at h
  obtain h | h := List.mem_append.mp h
  · exact ⟨_, List.eq_of_mem_replicate h⟩
  · split at h
    · cases h
    · exact ⟨_, List.mem_singleton.mp h⟩

/-- The NOOPs take the idle time. -/
theorem sum_cycles_idle : ((args.idle.map (Decoder.ofSpec g)).map Decoder.cycles).sum = args.idleClocks := by
  have hlt : args.lastNoopTime < 2 ^ 29 - 1 := Nat.mod_lt _ (by decide)
  have hnoops : ((args.noops.map (Decoder.ofSpec g)).map Decoder.cycles).sum =
      args.idleClocks / (2 ^ 29 - 1) * (2 ^ 29 - 1) := by
    rw [IdleArgs.noops, List.map_replicate, List.map_replicate, List.sum_replicate_nat, cycles_noop,
      Nat.mod_eq_of_lt (by omega), max_eq_right (by omega)]
  have hdiv : args.idleClocks / (2 ^ 29 - 1) * (2 ^ 29 - 1) + args.lastNoopTime = args.idleClocks :=
    Nat.div_add_mod' args.idleClocks (2 ^ 29 - 1)
  rw [IdleArgs.idle, List.map_append, List.map_append, List.sum_append_nat, hnoops]
  by_cases hlast : args.lastNoopTime = 0
  · rw [hlast] at hdiv
    rw [if_pos hlast, List.map_nil, List.map_nil, List.sum_nil]
    exact hdiv
  · rw [if_neg hlast, List.map_singleton, List.map_singleton, List.sum_singleton, cycles_noop,
      Nat.mod_eq_of_lt (by omega), max_eq_right (by omega)]
    exact hdiv

theorem refs_rest : refs g args.rest = if args.lastNoopTime = 0 then 0 else 4096 := by
  unfold IdleArgs.rest
  rw [refs_append, refs_noop]
  split
  · rfl
  · rw [refs_refreshLoop]
    rfl

/-- No other command than REF is visited. -/
theorem isRef_of_visited (hlead : args.lead % 2 ^ 29 ≠ 0) {i : I} (h : i ∈ args.visited)
    (hcommand : (Decoder.ofSpec g i).IsCommand) : (Decoder.ofSpec g i).Is .REF := by
  have hnoop : ∀ timeslice, i ≠ I.noop timeslice := by
    intro timeslice heq
    rw [heq] at hcommand
    exact hcommand.1 (is_noop g timeslice)
  have hloop : i ∈ args.refreshLoop.unroll → (Decoder.ofSpec g i).Is .REF := by
    intro hmem
    obtain ⟨code, hcode, hi⟩ := List.mem_flatten.mp hmem
    rw [List.eq_of_mem_replicate hcode, Loop.code, IdleArgs.refreshLoop] at hi
    obtain hi | hi := List.mem_append.mp hi
    · rw [List.mem_singleton.mp hi]
      exact is_dfi g rfl _ _
    · rw [List.mem_singleton.mp hi] at hcommand
      exact absurd (is_loop g _ _) hcommand.2
  rw [IdleArgs.visited_eq hlead] at h
  obtain h | h := List.mem_append.mp h
  · obtain h | h := List.mem_cons.mp h
    · exact absurd h (hnoop _)
    · exact hloop h
  · obtain h | h := List.mem_append.mp h
    · obtain ⟨timeslice, heq⟩ := mem_idle h
      exact absurd heq (hnoop _)
    · unfold IdleArgs.rest at h
      obtain h | h := List.mem_append.mp h
      · split at h
        · cases h
        · exact hloop h
      · exact absurd (List.mem_singleton.mp h) (hnoop _)

/-- A run of the idle payload idles for the idle time; each loop that it reaches refreshes half of the memory. -/
theorem idles_of_map_instr (hlead : args.lead % 2 ^ 29 ≠ 0) {tr : List Visit}
    (h : tr.map Visit.instr = args.visited.map (Decoder.ofSpec g)) :
    Idles args.idleClocks 4096 (if args.lastNoopTime = 0 then 0 else 4096) tr := by
  refine ⟨?_, ?_⟩
  · rw [IdleArgs.visited_eq hlead, List.map_append, List.map_append] at h
    obtain ⟨first, rest, rfl, hfirst, hrest⟩ := List.map_eq_append_iff.mp h
    obtain ⟨idle, last, rfl, hidle, hlast⟩ := List.map_eq_append_iff.mp hrest
    refine ⟨first, idle, last, rfl, ?_, ?_, ?_, ?_⟩
    · rw [countP_of_map_instr hfirst, refs_noop, refs_refreshLoop]
    · intro v hv
      have hmem : v.instr ∈ args.idle.map (Decoder.ofSpec g) := hidle ▸ List.mem_map_of_mem hv
      obtain ⟨i, hi, heq⟩ := List.mem_map.mp hmem
      obtain ⟨timeslice, rfl⟩ := mem_idle hi
      rw [← heq]
      exact is_noop g timeslice
    · rw [duration_of_map_instr hidle, sum_cycles_idle]
    · rw [countP_of_map_instr hlast, refs_rest]
  · intro v hv hcommand
    have hmem : v.instr ∈ args.visited.map (Decoder.ofSpec g) := h ▸ List.mem_map_of_mem hv
    obtain ⟨i, hi, heq⟩ := List.mem_map.mp hmem
    rw [← heq] at hcommand ⊢
    exact isRef_of_visited hlead hi hcommand

theorem idle_fits {p : PayloadExecutor.Params} (hphase : p.rdphase < 2 ^ DfiExecutor.phaseBits p.nphases)
    {payload : List Nat} (hok : generateIdlePayload args = .ok payload) (hlen : payload.length < p.depth) :
    Fits p payload := by
  obtain rfl := words_eq_of_ok hok
  have hruns : ∀ mem, Loads mem (encodePayload args.program) → ∃ tr, Executes p.geometry mem tr := by
    intro mem hmem
    obtain ⟨tr, hrun, -⟩ := executes_visited_idle hmem
    exact ⟨tr, hrun⟩
  have hprogram : args.program = (I.noop args.lead :: (args.refreshAll ++
      (args.noops ++ I.noop args.lastNoopTime :: args.refreshAll))) ++ [I.noop 0] := by
    unfold IdleArgs.program
    simp
  rw [hprogram] at hlen hruns ⊢
  exact fits_of_program hphase hlen hruns

/-- What the DFI master takes from the executor while the idle payload is executed. -/
theorem idles_of_executed {p : PayloadExecutor.Params} (hlead : args.lead % 2 ^ 29 ≠ 0) {payload : List Nat}
    (hok : generateIdlePayload args = .ok payload) {words : List (Nat → DfiPhase)} (h : Executed p payload words) :
    ∃ tr, ExecutorBoard.Carries p tr words ∧
      Idles args.idleClocks 4096 (if args.lastNoopTime = 0 then 0 else 4096) tr := by
  obtain ⟨mem, tr, hmem, hrun, hcarries⟩ := h
  obtain rfl := words_eq_of_ok hok
  obtain ⟨tr', hrun', hmap⟩ := executes_visited_idle (g := p.geometry) hmem
  obtain rfl := hrun.unique hrun'
  exact ⟨tr, hcarries, idles_of_map_instr hlead hmap⟩

end Payload

/-! ## The experiment -/

section Experiment
variable {g : LogGenerator} {args : IdleArgs} {maxIteration size : Nat}

theorem Idle.processErrors_eq (hlog : g.logDir = false) (st : LogState) (rowErrors : RowErrors) :
    Idle.processErrors g st rowErrors = .ok { st with iteration := st.iteration + 1 } := by
  rw [Idle.processErrors, hlog]
  rfl

theorem idle_dependable {aw w : Nat} {p : PayloadExecutor.Params} (hlog : g.logDir = false)
    (hphase : p.rdphase < 2 ^ DfiExecutor.phaseBits p.nphases) {payload : List Nat}
    (hok : generateIdlePayload { args with verbose := true } = .ok payload) (hlen : payload.length < p.depth)
    (hsize : Testable aw w 0 size) :
    Dependable (Idle.generator g args maxIteration size) p aw w (fun _ => True)
      fun st => maxIteration - st.iteration where
  fills _ _ _ := ⟨0, size, rfl, hsize⟩
  payload _ _ _ := ⟨payload, hok, idle_fits hphase hok hlen⟩
  tests _ _ _ := ⟨0, size, rfl, hsize⟩
  next st rowErrors _ hdone := by
    have hlt : ¬ st.iteration ≥ maxIteration := of_decide_eq_false hdone
    refine ⟨_, Idle.processErrors_eq hlog st rowErrors, trivial, ?_⟩
    dsimp only
    omega

/-- A measurement of the retention: the memory of `n` words held the pattern, the executor refreshed, idled and
refreshed, and the words that do not hold the pattern afterwards are found. -/
structure Measured {aw w k rb : Nat} (c : DramAddressConverter) (p : PayloadExecutor.Params) (env : Nat → Input aw w)
    (cfg : Gateware.Bist.Settings w k rb) (rowPattern n : Nat) (args : IdleArgs) (o : Outcome aw w) : Prop where
  disturbed : ∃ dram, (∀ a, a.toNat < n → dram a = patternAt cfg rowPattern a) ∧
    Disturbed env dram o.words.length o.dram
  idled : ∃ tr, ExecutorBoard.Carries p tr o.words ∧
    Idles args.idleClocks 4096 (if args.lastNoopTime = 0 then 0 else 4096) tr
  found : ByRows c (changedWords cfg 0 n rowPattern o.dram) o.rowErrors

variable {aw w k rb a : Nat} {c : DramAddressConverter} {p : PayloadExecutor.Params} {env : Nat → Input aw w}
  {cs : Csrs w k rb} {rowPattern : Nat}

theorem measured_of_isRound (hlead : args.lead % 2 ^ 29 ≠ 0)
    (hsame : ∀ a : BitVec aw, cs.writer.inverted a = cs.reader.inverted a) {st st' : LogState}
    {dram : BitVec aw → BitVec w} {o : Outcome aw w}
    (h : IsRound (Idle.generator g args maxIteration size) c p env cs rowPattern st dram o st') :
    Measured c p env cs.reader rowPattern (size / (w / 8)) args o := by
  obtain ⟨offset, size₁, hfill, hdisturbed⟩ := h.fill
  obtain ⟨offset', size₂, htest, hfound⟩ := h.tested
  cases hfill
  cases htest
  have hpayload : generateIdlePayload { args with verbose := true } = .ok o.payload := h.payload
  have hidled := @idles_of_executed { args with verbose := true } p hlead _ hpayload _ h.executed
  refine ⟨⟨_, ?_, hdisturbed⟩, hidled, ?_⟩
  · intro a ha
    rw [filled_congr hsame, Nat.zero_div, filled, if_pos ⟨Nat.zero_le _, by omega⟩]
  · rw [Nat.zero_div] at hfound
    exact hfound

end Experiment

/-- **A retention experiment.** However the DMAs stall, the host polls and the payloads disturb the DRAM, the playbook
ends after `max_iteration` rounds, which lead to the DRAM as it is then; in each the whole memory held the pattern when
the executor began to refresh it, it was left alone for the idle time, and every word that then held something else is
handed over under its row. -/
theorem retention_on_soc {aw w k rb a : Nat} {F : Fifo (BitVec aw)} {G : Fifo (Reader.ErrorRecord w)}
    (p : PayloadExecutor.Params) (ddr5 : Bool) (hphase : p.rdphase < 2 ^ DfiExecutor.phaseBits p.nphases)
    (env : Nat → Input aw w) (wait : Nat → Nat) (hwait : ∀ t, 7 ≤ wait t) (hlag : ∀ q, G.lag q ≤ 3)
    (hfair : FairStalls fun t => (env t).stalls) (g : LogGenerator) (hlog : g.logDir = false)
    (hwidth : g.settings.nphases * g.settings.dfiDatabits = 2 ^ a) (ha : 5 ≤ a) (args : IdleArgs)
    (htiming : args.timings.tRFC < 2 ^ 29 ∧ args.timings.tREFI < 2 ^ 29) (payload : List Nat)
    (hok : generateIdlePayload { args with verbose := true } = .ok payload) (hlen : payload.length < p.depth)
    (size : Nat) (hsize : Testable aw w 0 size) (maxIteration rowPattern : Nat) (cs : Csrs w k rb)
    (dram : BitVec aw → BitVec w) (words : List (Nat → DfiPhase)) (c₀ : At (RowHammerSoC F G k rb))
    (hresting : Resting cs dram c₀.device.bist)
    (hidle : ExecutorBoard.Idle words c₀.device.executor) (hat : c₀.device.executor.atRefresh < 2 ^ 32)
    (hrefresh : ExecutorBoard.Refreshes ddr5 (fun t => (env t).controller) c₀.device.executor)
    (hwriter : cs.writer.modulo = false) (hreader : cs.reader.modulo = false)
    (hsame : ∀ a : BitVec aw, cs.writer.inverted a = cs.reader.inverted a) :
    ∃ (f : Nat) (st : LogState) (os : List (Outcome aw w)) (c₁ : At (RowHammerSoC F G k rb)),
      (∀ rounds, f ≤ rounds →
        runHost (soc p ddr5) env wait (main (Idle.generator g args maxIteration size) g.settings 0x40000000 w rowPattern
          rounds Idle.initialize fun _ => none) c₀ = (.ok st, c₁) ∧
        runHost (soc p ddr5) env wait (main (Idle.generator g args maxIteration size).recorded g.settings 0x40000000 w
          rowPattern rounds ( Idle.initialize, []) fun _ => none) c₀ = (.ok (st, os.map Outcome.rowErrors), c₁)) ∧
      os.length = maxIteration ∧ c₁.device.executor.words = words ++ (os.map Outcome.words).flatten ∧
      Rounds (Idle.generator g args maxIteration size) g.converter p env cs rowPattern Idle.initialize dram os st
        c₁.device.bist.dram ∧
      ∀ o ∈ os, Measured g.converter p env cs.reader rowPattern (size / (w / 8)) args o := by
  have hlead : args.lead % 2 ^ 29 ≠ 0 := by
    unfold IdleArgs.lead
    omega
  have hpg : Dependable (Idle.generator g args maxIteration size) p aw w (fun _ => True)
      fun st => maxIteration - st.iteration := idle_dependable hlog hphase hok hlen hsize
  have hquiet : Quiet cs dram words c₀.device.executor.withRefresh c₀.device.executor.atRefresh c₀ :=
    ⟨cs, ⟨rfl, rfl, fun _ => rfl, fun _ => rfl⟩, hresting, hidle, rfl, rfl⟩
  obtain ⟨f, ⟨st, recorded⟩, c₁, hrun, os, dram', ⟨hrecorded, hdone⟩, cs', -, hresting', hundriven⟩ :=
    main_spec hpg.recorded g.load_eq hwidth ha hwait hlag hfair hwriter hreader hat hrefresh ( Idle.initialize, [])
      trivial dram c₀ hquiet
  obtain ⟨hrounds, rfl⟩ := hrecorded.of_recorded
  obtain ⟨hcount, hle⟩ := hrounds.length_eq LogState.iteration maxIteration (fun st => decide_eq_true_iff)
    fun {st rowErrors st'} h => by cases (Idle.processErrors_eq hlog st rowErrors).symm.trans h; rfl
  have hlast : st.iteration ≥ maxIteration := of_decide_eq_true hdone
  have hstart : st.iteration = os.length := hcount.trans (Nat.zero_add _)
  refine ⟨f, st, os, c₁, fun rounds hge => ⟨?_, hrun rounds hge⟩, ?_, hundriven.idle.words, hresting'.dram ▸ hrounds,
    hrounds.forall_mem (measured_of_isRound hlead hsame)⟩
  · have hplain := runHost_map (soc p ddr5) env wait Prod.fst (hrun rounds hge)
    rwa [← main_recorded] at hplain
  · by_cases hnil : os = []
    · rw [hnil] at hstart ⊢
      rw [hstart] at hlast
      exact (Nat.le_zero.mp hlast).symm
    · exact Nat.le_antisymm (hstart ▸ hle hnil) (hstart ▸ hlast)

/-- The settings of a module with DMA words of 32 bits, without a log. -/
def retentionLog : LogGenerator where
  settings := { colbits := 3, rowbits := 1, bankbits := 1, nphases := 2, dfiDatabits := 16, burstLength := 2 }
  converter := { colbits := 3, rowbits := 1, bankbits := 1, addressAlign := 1, dramPortWidth := 32 }
  load_eq := rfl
  rowMapping := .TrivialRowMapping
  bank := 0
  logDir := false

/-- A payload memory of 256 words. -/
def retentionParams : PayloadExecutor.Params := { PayloadExecutor.smallParams with depth := 256 }

/-- The SoC after reset. -/
def resetSoc : RowHammerSoC (Fifo.fallThrough 3 : Fifo (BitVec 4)) (Fifo.buffered 1 : Fifo (Reader.ErrorRecord 32)) 1 1
    where
  bist := sampleBoard
  executor :=
    { memory := fun _ => 0, system := System.reset retentionParams fun _ => 0, withRefresh := true, atRefresh := 0,
      words := [] }

/-- The memory controller refreshes in every cycle; word 3 is lost while a payload is executed. -/
def forgetful (t : Nat) : Input 4 32 where
  stalls := sampleStalls t
  controller := { DfiPhase.reset 1 with csN := 0, casN := false, rasN := false }
  disturb mem := Function.update mem 3 0

/-- Two rounds with an idle time of 100 cycles. -/
theorem retention_on_soc_twice : ∃ f st o₁ o₂ c₁, (∀ rounds, f ≤ rounds →
        runHost (soc retentionParams false) forgetful (fun _ => 100) (main (Idle.generator retentionLog idleHundred 2 64)
          retentionLog.settings 0x40000000 32 0x1234 rounds Idle.initialize fun _ => none) ⟨0, resetSoc⟩ = (.ok st, c₁) ∧
        runHost (soc retentionParams false) forgetful (fun _ => 100) (main
          (Idle.generator retentionLog idleHundred 2 64).recorded retentionLog.settings 0x40000000 32 0x1234 rounds
          ( Idle.initialize, []) fun _ => none) ⟨0, resetSoc⟩ = (.ok (st, [o₁.rowErrors, o₂.rowErrors]), c₁)) ∧
      c₁.device.executor.words = o₁.words ++ o₂.words ∧
      Rounds (Idle.generator retentionLog idleHundred 2 64) retentionLog.converter retentionParams forgetful
        resetSoc.bist.csrs 0x1234 Idle.initialize resetSoc.bist.dram [o₁, o₂] st c₁.device.bist.dram ∧
      Measured retentionLog.converter retentionParams forgetful sampleSettings 0x1234 16 idleHundred o₁ ∧
      Measured retentionLog.converter retentionParams forgetful sampleSettings 0x1234 16 idleHundred o₂ := by
  obtain ⟨payload, hok⟩ := Py.exists_ok (x := generateIdlePayload { idleHundred with verbose := true })
    (by decide +kernel)
  have hlen : payload.length < 256 := by
    obtain rfl := words_eq_of_ok hok
    decide +kernel
  obtain ⟨f, st, os, c₁, hrun, hcount, hwords, hrounds, hall⟩ := retention_on_soc (a := 5) retentionParams false
    (by decide) forgetful (fun _ => 100) (fun _ => by decide) buffered_lag_le sampleStalls_fair retentionLog rfl rfl
    (by decide) idleHundred
    (by decide) payload hok hlen 64 ⟨by decide, by decide, ⟨by decide, by decide, by decide, by decide⟩, by decide⟩
    2 0x1234 resetSoc.bist.csrs resetSoc.bist.dram [] ⟨0, resetSoc⟩ ⟨rfl, rfl, Reader.reset_idle, rfl⟩
    ⟨rfl, rfl, rfl, rfl, Nat.two_pow_pos 32, rfl⟩ (Nat.two_pow_pos 32) (fun _ t => ⟨t, Nat.le_refl t, rfl⟩) rfl rfl
    fun _ => rfl
  obtain ⟨o₁, o₂, rfl⟩ := List.length_eq_two.mp hcount
  obtain ⟨h₁, h₂⟩ := List.forall_mem_cons.mp hall
  refine ⟨f, st, o₁, o₂, c₁, hrun, ?_, hrounds, h₁, h₂ o₂ List.mem_cons_self⟩
  rw [hwords]
  simp

end RowhammerTester.Playbook
