import RowhammerTester.Playbook.Payload
import RowhammerTester.Scripts.ExecutionCycles

/-!
# `generate_idle_payload`

The retention payload: refreshes of the whole memory, NOOPs for the idle time, refreshes of the whole memory again.

* `generateIdlePayload` : the words, `IdleArgs.program` the instructions they encode;
* `RetentionTrace tRFC n tr` : what the payload is for: 8192 REF, `n` cycles of NOOPs, 8192 REF, STOP;
* `IdleArgs.visited` : the instructions that a run visits; the encoder keeps 12 bits of the loop count 8191, and a last
  NOOP of 0 cycles is a STOP (`executes_visited`).
-/

namespace RowhammerTester.Playbook
open RowhammerTester.Hdl RowhammerTester.Gateware Encoder Interp

/-- The keyword arguments of `generate_idle_payload`, without `bank` and `bankbits`, which no instruction has.
`idleClocks` is `int(idle_time * sys_clk_freq)`. -/
structure IdleArgs where
  idleClocks : Nat
  timings : Timings
  payloadMemSize : Nat
  verbose : Bool := false

def generateIdlePayload (args : IdleArgs) : Py (List Nat) := do
  let trfc := args.timings.tRFC
  let trefi := args.timings.tREFI
  -- OpCode is 3 bits out of 32
  let maxNoopTime := 2 ^ 29 - 1
  let noopActions := args.idleClocks / maxNoopTime
  let lastNoopTime := args.idleClocks % maxNoopTime
  let lead ← I.init .NOOP { timeslice := some (max 1 (max (trfc - 2) (trefi - 2))) }
  let ref ← I.init .REF { timeslice := some trfc }
  let loop ← I.init .LOOP { count := some 8191, jump := some 1 }
  let noop ← I.init .NOOP { timeslice := some maxNoopTime }
  let last ← I.init .NOOP { timeslice := some lastNoopTime }
  let stop ← I.init .NOOP { timeslice := some 0 }
  let payload := [lead, ref, loop] ++ List.replicate noopActions noop ++ [last, ref, loop, stop]
  if args.verbose then
    let _ ← Scripts.getExpectedExecutionCycles payload
    Py.check (payload.length ≤ args.payloadMemSize / 4) (.systemExit 1)
  return encodePayload payload

/-! ## The purpose -/

/-- Refreshes of the whole memory: exactly 8192 REF and no other command. -/
def RefreshesAll (tr : List Visit) : Prop :=
  (∀ v ∈ tr, v.instr.IsCommand → v.instr.Is .REF) ∧ tr.countP (fun v => decide (v.instr.Is .REF)) = 8192

/-- A retention measurement: the memory is refreshed, left alone for `n` cycles of NOOPs and refreshed again, with every
REF at least `tRFC` cycles before the next command. -/
structure RetentionTrace (tRFC n : Nat) (tr : List Visit) : Prop where
  parts : ∃ first idle second stop, tr = first ++ idle ++ second ++ [stop] ∧ RefreshesAll first ∧
    (∀ v ∈ idle, ¬ v.instr.IsCommand) ∧ duration Visit.cycles (idle.filter fun v => v.instr.Is .NOOP) = n ∧
    RefreshesAll second ∧ stop.instr.stop = true
  spaced : Spaced Visit.cycles (fun v => v.instr.Is .REF) (fun v => v.instr.IsCommand) (tRFC ≤ ·) tr

/-- The payload is generated, and running it is a retention measurement. -/
def MeasuresRetention (args : IdleArgs) (g : Geometry) : Prop :=
  ∃ words, generateIdlePayload args = .ok words ∧ ∀ mem, Loads mem words →
    ∃ tr, Executes g mem tr ∧ RetentionTrace args.timings.tRFC args.idleClocks tr

/-! ## The instructions -/

namespace IdleArgs
variable (args : IdleArgs)

/-- The timeslice of the first NOOP. -/
def lead : Nat := max 1 (max (args.timings.tRFC - 2) (args.timings.tREFI - 2))

/-- The NOOPs of maximal length. -/
def noops : List I := List.replicate (args.idleClocks / (2 ^ 29 - 1)) (I.noop (2 ^ 29 - 1))

/-- The timeslice of the last NOOP of the idle time. -/
def lastNoopTime : Nat := args.idleClocks % (2 ^ 29 - 1)

/-- The refresh of the memory, as it is specified. -/
def refreshAll : List I := [I.dfi .REF args.timings.tRFC none, I.loop 8191 1]

def program : List I :=
  I.noop args.lead :: (args.refreshAll ++ (args.noops ++ I.noop args.lastNoopTime :: (args.refreshAll ++ [I.noop 0])))

/-- The refresh of the memory, as it is encoded. -/
def refreshLoop : Loop := ⟨[I.dfi .REF args.timings.tRFC none], 4095⟩

/-- What a run visits. -/
def visited : List I :=
  if args.lead % 2 ^ 29 = 0 then [I.noop args.lead]
  else I.noop args.lead :: (args.refreshLoop.unroll ++ (args.noops ++ I.noop args.lastNoopTime ::
    if args.lastNoopTime = 0 then [] else args.refreshLoop.unroll ++ [I.noop 0]))

end IdleArgs

section Generated
variable {args : IdleArgs} {words : List Nat}

theorem words_eq_of_ok (h : generateIdlePayload args = .ok words) : words = encodePayload args.program := by
  unfold generateIdlePayload at h
  simp only [init_noop, init_loop, Py.bind_eq_ok] at h
  obtain ⟨_, hlead, ref, href, _, hloop, _, hnoop, _, hlast, _, hstop, h⟩ := h
  obtain rfl := Except.ok.inj hlead
  obtain rfl := Except.ok.inj hloop
  obtain rfl := Except.ok.inj hnoop
  obtain rfl := Except.ok.inj hlast
  obtain rfl := Except.ok.inj hstop
  obtain ⟨rfl, -⟩ := init_refresh href
  have hprog : [I.noop args.lead, refreshI .REF args.timings.tRFC, I.loop 8191 1] ++
      args.noops ++ [I.noop args.lastNoopTime, refreshI .REF args.timings.tRFC, I.loop 8191 1, I.noop 0] =
      args.program := by
    simp [IdleArgs.program, IdleArgs.refreshAll, refreshI]
  rw [← hprog]
  split at h
  · simp only [Py.bind_eq_ok] at h
    obtain ⟨_, -, _, -, h⟩ := h
    exact (Except.ok.inj h).symm
  · exact (Except.ok.inj h).symm

/-- The encoder keeps the low 12 bits of the count. -/
theorem ofSpec_loop_8191 (g : Geometry) : Decoder.ofSpec g (I.loop 8191 1) = Decoder.ofSpec g (I.loop 4095 1) := by
  have hmod : 8191 % 2 ^ 12 = 4095 % 2 ^ 12 := rfl
  rw [Decoder.ofSpec, Decoder.ofSpec, word, word, encodeSpec_loop, encodeSpec_loop, hmod]

theorem map_refreshAll (g : Geometry) :
    args.refreshAll.map (Decoder.ofSpec g) = args.refreshLoop.code.map (Decoder.ofSpec g) := by
  simp only [IdleArgs.refreshAll, Loop.code, IdleArgs.refreshLoop, Loop.jump, List.map_append, List.map_cons,
    List.map_nil, ofSpec_loop_8191]
  rfl

theorem refreshLoop_ok (g : Geometry) : args.refreshLoop.Ok g := by
  refine ⟨?_, by simp [IdleArgs.refreshLoop], by simp [IdleArgs.refreshLoop]⟩
  intro i hi
  obtain rfl := List.mem_singleton.mp hi
  exact plain_dfi g rfl _ _

theorem plain_noops (g : Geometry) : ∀ i ∈ args.noops.map (Decoder.ofSpec g), Plain i := by
  intro i hi
  obtain ⟨j, hj, rfl⟩ := List.mem_map.mp hi
  obtain rfl := List.eq_of_mem_replicate hj
  exact plain_noop g (by decide)

variable {g : Geometry} {mem : Nat → BitVec 32}

/-- **A loaded idle payload runs through its visited instructions**, up to the first STOP. -/
theorem executes_visited_idle (hmem : Loads mem (encodePayload args.program)) :
    ∃ tr, Executes g mem tr ∧ tr.map Visit.instr = args.visited.map (Decoder.ofSpec g) := by
  have hcode := hmem.codeAt g
  rw [IdleArgs.program, List.map_cons] at hcode
  have hlead := hcode.head
  unfold IdleArgs.visited
  split
  · next hz =>
    have hnone : Steps (fetch g mem) ⟨0, 0⟩ [] ⟨0, 0⟩ := Steps.refl _
    obtain ⟨fuel, hrun⟩ := run_of_steps hnone (by rw [hlead]; exact stop_noop g hz)
    refine ⟨_, ⟨fuel, hrun⟩, ?_⟩
    simp [hlead]
  · next hz =>
    have htr₁ : Steps (fetch g mem) ⟨0, 0⟩ _ _ := steps_plain (plain_noop g hz) hlead
    have hrest := hcode.tail
    rw [List.map_append, map_refreshAll] at hrest
    obtain ⟨tr₂, htr₂, hmap₂⟩ := steps_unroll (refreshLoop_ok g) hrest.left
    have hidle := hrest.right
    rw [List.length_map, List.map_append] at hidle
    obtain ⟨tr₃, htr₃, hmap₃⟩ := steps_straight (c := 0) (plain_noops g) hidle.left
    have hlast := hidle.right
    rw [List.length_map] at htr₃ hlast
    rw [List.map_cons] at hlast
    have htr := htr₁.trans (htr₂.trans htr₃)
    by_cases hstop : args.lastNoopTime = 0
    · -- the last NOOP is the STOP
      have hmod : args.lastNoopTime % 2 ^ 29 = 0 := by rw [hstop]; rfl
      obtain ⟨fuel, hrun⟩ := run_of_steps htr (by rw [hlast.head]; exact stop_noop g hmod)
      refine ⟨_, ⟨fuel, hrun⟩, ?_⟩
      rw [if_pos hstop, hlast.head]
      simp [hmap₂, hmap₃]
    · have hlt : args.lastNoopTime < 2 ^ 29 - 1 := Nat.mod_lt _ (by decide)
      have hmod : args.lastNoopTime % 2 ^ 29 ≠ 0 := by rw [Nat.mod_eq_of_lt (by omega)]; exact hstop
      have htr₄ : Steps (fetch g mem) _ _ _ := steps_plain (c := 0) (plain_noop g hmod) hlast.head
      have hsecond := hlast.tail
      rw [List.map_append, map_refreshAll] at hsecond
      obtain ⟨tr₅, htr₅, hmap₅⟩ := steps_unroll (refreshLoop_ok g) hsecond.left
      have hend := hsecond.right
      rw [List.length_map] at hend
      obtain ⟨fuel, hrun⟩ := run_of_steps (htr.trans (htr₄.trans htr₅)) (by rw [hend.head]; exact stop_noop g rfl)
      refine ⟨_, ⟨fuel, hrun⟩, ?_⟩
      rw [if_neg hstop, hend.head]
      simp [hmap₂, hmap₃, hmap₅]

/-! ## Refreshes -/

/-- The REF commands of a list of instructions. -/
def refs (g : Geometry) (is : List I) : Nat := is.countP fun i => decide ((Decoder.ofSpec g i).Is .REF)

theorem refs_append (is js : List I) : refs g (is ++ js) = refs g is + refs g js := List.countP_append

theorem refs_noop (timeslice : Nat) (is : List I) : refs g (I.noop timeslice :: is) = refs g is := by
  refine List.countP_cons_of_neg ?_
  rw [decide_eq_true_eq]
  exact not_is_of_is (by decide) (is_noop g timeslice)

theorem refs_noops : refs g args.noops = 0 := by
  rw [refs, List.countP_eq_zero]
  intro i hi
  obtain rfl := List.eq_of_mem_replicate hi
  rw [decide_eq_true_eq]
  exact not_is_of_is (by decide) (is_noop g _)

/-- The encoded loop refreshes half of the memory. -/
theorem refs_refreshLoop : refs g args.refreshLoop.unroll = 4096 := by
  have href : (Decoder.ofSpec g (I.dfi .REF args.timings.tRFC none)).Is .REF := is_dfi g rfl _ _
  have hloop : ¬ (Decoder.ofSpec g (I.loop 4095 1)).Is .REF := not_is_of_is (by decide) (is_loop g 4095 1)
  have hcode : refs g args.refreshLoop.code = 1 := by
    simp [refs, Loop.code, Loop.jump, IdleArgs.refreshLoop, href, hloop]
  rw [refs] at hcode ⊢
  rw [Loop.unroll, List.countP_flatten, List.map_replicate, hcode, List.sum_replicate_nat, Nat.mul_one]
  rfl

/-- A run issues 4096 REF for each of the loops that it reaches. -/
theorem refs_visited : refs g args.visited =
    if args.lead % 2 ^ 29 = 0 then 0 else if args.lastNoopTime = 0 then 4096 else 8192 := by
  unfold IdleArgs.visited
  split
  · rw [refs_noop]
    rfl
  · rw [refs_noop, refs_append, refs_append, refs_refreshLoop, refs_noops, refs_noop]
    split
    · rfl
    · rw [refs_append, refs_refreshLoop, refs_noop]
      rfl

theorem countP_of_map_instr {tr : List Visit} {is : List I} (h : tr.map Visit.instr = is.map (Decoder.ofSpec g)) :
    tr.countP (fun v => decide (v.instr.Is .REF)) = refs g is := by
  have := congrArg (List.countP fun d : Decoder => decide (d.Is .REF)) h
  rwa [List.countP_map, List.countP_map] at this

end Generated

theorem RetentionTrace.countP_ge {tRFC n : Nat} {tr : List Visit} (h : RetentionTrace tRFC n tr) :
    16384 ≤ tr.countP (fun v => decide (v.instr.Is .REF)) := by
  obtain ⟨first, idle, second, stop, rfl, hfirst, -, -, hsecond, -⟩ := h.parts
  rw [List.countP_append, List.countP_append, List.countP_append, hfirst.2, hsecond.2]
  omega

/-- **The idle payload never refreshes the whole memory.** The encoder masks the count of the refresh loops to 12 bits,
so each of them issues 4096 REF, not 8192. -/
theorem not_measuresRetention (args : IdleArgs) (g : Geometry) : ¬ MeasuresRetention args g := by
  rintro ⟨words, hok, hmem⟩
  obtain rfl := words_eq_of_ok hok
  obtain ⟨tr, htr, hret⟩ := hmem _ (loads_loadWords _)
  obtain ⟨tr', htr', hmap⟩ := executes_visited_idle (g := g) (loads_loadWords (encodePayload args.program))
  obtain rfl := htr.unique htr'
  have hcount := hret.countP_ge
  rw [countP_of_map_instr hmap, refs_visited] at hcount
  split at hcount
  · omega
  · split at hcount <;> omega

/-- An idle time of 100 cycles with timings of a DDR3 module. -/
def idleHundred : IdleArgs :=
  { idleClocks := 100, timings := { tRAS := 5, tRP := 2, tREFI := 782, tRFC := 26 }, payloadMemSize := 1024 }

/-- The payload for it is generated and runs to its STOP, with 8192 REF in all. -/
theorem idleHundred_refreshes_half : ∃ words tr, generateIdlePayload idleHundred = .ok words ∧
    Executes PayloadExecutor.smallParams.geometry (loadWords words) tr ∧
    tr.countP (fun v => decide (v.instr.Is .REF)) = 8192 ∧ ¬ RetentionTrace 26 100 tr := by
  have hok : generateIdlePayload idleHundred = .ok (encodePayload idleHundred.program) := rfl
  obtain ⟨tr, htr, hmap⟩ := executes_visited_idle (g := PayloadExecutor.smallParams.geometry)
    (loads_loadWords (encodePayload idleHundred.program))
  have hcount := countP_of_map_instr hmap
  rw [refs_visited, if_neg (by decide), if_neg (by decide)] at hcount
  refine ⟨_, tr, hok, htr, hcount, fun hret => ?_⟩
  have := hret.countP_ge
  omega

end RowhammerTester.Playbook
