import RowhammerTester.Firmware.Traced
import RowhammerTester.Playbook.HammerCount
import Mathlib.Algebra.Order.Floor.Div
import Mathlib.GroupTheory.GroupAction.Ring

/-!
# Attacks through the payload executor

The scripts reach the payload executor in three ways: `HwRowHammer.run` and `RowHammer.run` for every tuple of rows, and
`main` directly for the rows of `--hammer-only`.

* `Attacker` : the attributes that the attacks read; `Script` : what a script does, and the exception it may end with;
* `payloadExecutorAttack`, `attackAll`, `hwRun`, `run`, `hammerOnly` : the three ways;
* `executed` : the payloads handed to the executor; `Activates` : the rows a payload activates, in turns;
* `readCount_iff` : which payloads activate each row as often as an equal share of `read_count`.
-/

namespace RowhammerTester.Scripts.RowHammer
open RowhammerTester.Firmware RowhammerTester.Playbook RowhammerTester.Gateware RowhammerTester.Gateware.Interp

/-! ## The scripts -/

/-- The attributes of `RowHammer` and its settings that the attacks read. -/
structure Attacker where
  timings : Timings
  bankbits : Nat
  nranks : Nat
  bank : Nat
  payloadMemSize : Nat
  noRefresh : Bool
  payloadExecutor : Bool
  /-- `no_attack_time` is given. -/
  noAttackTime : Bool
  dataInversion : Bool

inductive Event where
  /-- `controller_settings_refresh` is written. -/
  | setRefresh (enabled : Bool)
  /-- `execute_payload` -/
  | execute (payload : List Nat)
  /-- `attack`, through the DMA or the BIST modules -/
  | attack (rowTuple : List Nat) (readCount : Nat)
  | sleep

/-- A script, which may end with an exception. -/
abbrev Script (α : Type) := ExceptT PyError (Traced Event Unit) α

instance : LawfulMonad (Traced Event Unit) := Traced.lawfulMonad

def emit (e : Event) : Script Unit := ExceptT.lift (Traced.emit e)

section Attacks
variable (h : Attacker) (readCount : Nat)

/-- The arguments of `payload_executor_attack` for the payload generator. -/
def payloadArgs (rowTuple : List Nat) : RowListArgs :=
  { readCount, rowSequence := rowTuple, timings := h.timings, bankbits := h.bankbits, bank := h.bank,
    nranks := h.nranks, rank := 0, payloadMemSize := h.payloadMemSize, refresh := !h.noRefresh }

def payloadExecutorAttack (rowTuple : List Nat) : Script Unit :=
  match generatePayloadFromRowList (payloadArgs h readCount rowTuple) with
  | .ok payload => emit (.execute payload)
  | .error e => throw e

/-- The loop over the row tuples, which a round may leave. -/
def forTuples (attackTuple : List Nat → Script Bool) : List (List Nat) → Script Bool
  | [] => return true
  | rowTuple :: rowPairs => do
    let goOn ← attackTuple rowTuple
    if goOn then forTuples attackTuple rowPairs else return false

/-- Sleep, or attack. -/
def attacks (attackTuple : List Nat → Script Bool) (rowPairs : List (List Nat)) : Script Bool :=
  if h.noAttackTime then do
    emit .sleep
    return true
  else forTuples attackTuple rowPairs

/-- Refreshes are switched only if they are not wanted. -/
def setRefresh (enabled : Bool) : Script Unit := if h.noRefresh then emit (.setRefresh enabled) else return

/-- The attacks, without refreshes if so requested. -/
def attackAll (attackTuple : List Nat → Script Bool) (rowPairs : List (List Nat)) : Script Unit := do
  setRefresh h false
  let goOn ← attacks h attackTuple rowPairs
  if goOn then setRefresh h true else return

/-- A round of the loop of `HwRowHammer.run`. -/
def hwAttackTuple (rowTuple : List Nat) : Script Bool :=
  if h.payloadExecutor then
    if rowTuple.length = 0 then throw .zeroDivisionError
    else do
      -- one read count is one activation of all the rows: it is divided by their number, and rounded up
      payloadExecutorAttack h ((readCount + rowTuple.length - 1) / rowTuple.length) rowTuple
      return true
  else if rowTuple.length &&& (rowTuple.length - 1) ≠ 0 then return false
  else do
    emit (.attack rowTuple readCount)
    return true

/-- `HwRowHammer.run` up to the end of the attacks; `verified` : the memory has been found as it was filled. -/
def hwRun (verifyInitial verified : Bool) (rowPairs : List (List Nat)) : Script Unit :=
  if rowPairs.length = 0 then throw (.assertionError "No pairs to hammer")
  else if verifyInitial && !verified then return
  else attackAll h (hwAttackTuple h readCount) rowPairs

/-- `RowHammer.prepare_memory` reads an argument of its caller. -/
def prepareMemory : Py Unit := .error (.nameError "pattern_generator")

/-- A round of the loop of `RowHammer.run`. -/
def attackTuple (rowTuple : List Nat) : Script Bool :=
  if h.payloadExecutor then do
    payloadExecutorAttack h readCount rowTuple
    return true
  else do
    emit (.attack rowTuple readCount)
    return true

/-- `RowHammer.run` up to the end of the attacks, with the outcome of the method `prepare_memory`. -/
def run (prepareMemory : Py Unit) (rowPairs : List (List Nat)) : Script Unit :=
  if h.dataInversion then
    throw (.notImplementedError "Currently only HW rowhammer supports data inversion")
  else
    match prepareMemory with
    | .ok () => attackAll h (attackTuple h readCount) rowPairs
    | .error e => throw e

/-- A pass of `main` with `--hammer-only`. -/
def hammerOnly (pair : List Nat) : Script Unit :=
  if h.payloadExecutor then payloadExecutorAttack h readCount pair else emit (.attack pair readCount)

end Attacks

/-! ## The ways to start an attack -/

/-- The three ways. -/
inductive Entry where
  | hwRun (verifyInitial verified : Bool)
  | run (prepareMemory : Py Unit)
  | hammerOnly

/-- The script; the only row tuple of `--hammer-only` is the first. -/
def Entry.start (h : Attacker) (readCount : Nat) (rowPairs : List (List Nat)) : Entry → Script Unit
  | .hwRun verifyInitial verified => RowHammer.hwRun h readCount verifyInitial verified rowPairs
  | .run prepareMemory => RowHammer.run h readCount prepareMemory rowPairs
  | .hammerOnly =>
    match rowPairs with
    | [] => throw .indexError
    | pair :: _ => RowHammer.hammerOnly h readCount pair

/-- The activations that the payload executor is asked for. -/
def Entry.count (readCount : Nat) (rowTuple : List Nat) : Entry → Nat
  | .hwRun .. => (readCount + rowTuple.length - 1) / rowTuple.length
  | .run _ | .hammerOnly => readCount

def Event.payload? : Event → Option (List Nat)
  | .execute payload => some payload
  | _ => none

/-- The payloads that are executed, in order. -/
def executed {α : Type} (x : Script α) : List (List Nat) := (x.run.events ()).filterMap Event.payload?

/-- The payload, executed from address 0, activates the rows `n` times in turns. -/
def Activates (g : Geometry) (h : Attacker) (payload rowTuple : List Nat) (n : Nat) : Prop :=
  ∀ mem, Loads mem payload → ∃ tr, Executes g mem tr ∧
    ((tr.map Visit.instr).filter fun i => decide (i.Is .ACT)).map Decoder.target =
      (List.replicate n rowTuple).flatten.map fun row => (0, h.bank % 2 ^ g.bankbits, row % 2 ^ g.addressbits)

/-- The settings describe the board, on which times fit into the time slices and addresses have 32 bits. -/
structure Board (h : Attacker) (g : Geometry) : Prop where
  bankbits : h.bankbits = g.bankbits
  nranks : h.nranks = 2 ^ g.rankbits
  trfc_pos : 0 < h.timings.tRFC
  trfc_lt : h.timings.tRFC < 2 ^ 29
  trefi_lt : h.timings.tREFI < 2 ^ 29
  payloadMemSize_le : h.payloadMemSize ≤ 2 ^ 32

/-! ## The payloads of a script -/

section Executed
variable {α β : Type}

theorem executed_bind (x : Script α) (f : α → Script β) :
    executed (x >>= f) = executed x ++ (match x.run.result () with | .ok a => executed (f a) | .error _ => []) := by
  unfold executed
  rw [ExceptT.run_bind, Traced.events_bind, List.filterMap_append]
  congr 1
  cases x.run.result () <;> rfl

/-- What follows a script without payloads is all that is executed, or is not reached. -/
theorem executed_bind_of_nil {x : Script α} {f : α → Script β} (hx : executed x = []) (hf : ∀ a, executed (f a) = []) :
    executed (x >>= f) = [] := by
  rw [executed_bind, hx]
  cases x.run.result () with
  | ok a => exact hf a
  | error e => rfl

end Executed

/-! ## One payload for every row tuple -/

/-- The payloads are made for the first row tuples, with as many activations as `count` says. -/
def Serves (h : Attacker) (count : List Nat → Nat) (rowPairs payloads : List (List Nat)) : Prop :=
  ∃ ts, ts <+: rowPairs ∧ List.Forall₂ (fun t payload =>
    generatePayloadFromRowList (payloadArgs h (count t) t) = .ok payload) ts payloads

section Serves
variable {h : Attacker} {readCount : Nat} {count : List Nat → Nat} {rowPairs payloads : List (List Nat)}

theorem serves_nil : Serves h count rowPairs [] := ⟨[], List.nil_prefix, .nil⟩

theorem serves_cons {rowTuple payload : List Nat}
    (hgen : generatePayloadFromRowList (payloadArgs h (count rowTuple) rowTuple) = .ok payload)
    (hrest : Serves h count rowPairs payloads) : Serves h count (rowTuple :: rowPairs) (payload :: payloads) := by
  obtain ⟨ts, hpre, hall⟩ := hrest
  exact ⟨rowTuple :: ts, (List.prefix_cons_inj rowTuple).mpr hpre, .cons hgen hall⟩

theorem Serves.exists_of_getElem? (hs : Serves h count rowPairs payloads) {k : Nat} {payload : List Nat}
    (hk : payloads[k]? = some payload) : ∃ t, rowPairs[k]? = some t ∧
      generatePayloadFromRowList (payloadArgs h (count t) t) = .ok payload := by
  obtain ⟨ts, hpre, hall⟩ := hs
  obtain ⟨hlt, rfl⟩ := List.getElem?_eq_some_iff.mp hk
  have hts : k < ts.length := hall.length_eq ▸ hlt
  refine ⟨ts[k], ?_, hall.get hts hlt⟩
  rw [hpre.getElem hts]
  exact List.getElem?_eq_getElem _

/-- A round with the payload executor. -/
theorem serves_attack {α : Type} {f : Unit → Script α} (rowTuple : List Nat)
    (hrest : Serves h count rowPairs (executed (f ()))) :
    Serves h count (rowTuple :: rowPairs) (executed (payloadExecutorAttack h (count rowTuple) rowTuple >>= f)) := by
  unfold payloadExecutorAttack
  cases hgen : generatePayloadFromRowList (payloadArgs h (count rowTuple) rowTuple) with
  | ok payload =>
    apply serves_cons hgen
    exact hrest
  | error e => exact serves_nil

theorem serves_forTuples {attackTuple : List Nat → Script Bool} (hround : ∀ t ∈ rowPairs, attackTuple t = do
      payloadExecutorAttack h (count t) t
      return true) : Serves h count rowPairs (executed (forTuples attackTuple rowPairs)) := by
  induction rowPairs with
  | nil => exact serves_nil
  | cons t rowPairs ih =>
    rw [forTuples, hround t List.mem_cons_self, bind_assoc]
    apply serves_attack t
    rw [pure_bind]
    exact ih fun t' ht' => hround t' (List.mem_cons_of_mem t ht')

theorem executed_forTuples_of_nil {attackTuple : List Nat → Script Bool}
    (hround : ∀ t, executed (attackTuple t) = []) : executed (forTuples attackTuple rowPairs) = [] := by
  induction rowPairs with
  | nil => rfl
  | cons t rowPairs ih =>
    apply executed_bind_of_nil (hround t)
    intro goOn
    cases goOn with
    | true => exact ih
    | false => rfl

theorem executed_setRefresh (enabled : Bool) : executed (setRefresh h enabled) = [] := by
  unfold setRefresh
  split <;> rfl

/-- Around the attacks nothing is executed. -/
theorem executed_attackAll (attackTuple : List Nat → Script Bool) :
    executed (attackAll h attackTuple rowPairs) = executed (attacks h attackTuple rowPairs) := by
  have hset : (setRefresh h false).run.result () = .ok () := by
    unfold setRefresh
    split <;> rfl
  rw [attackAll, executed_bind, executed_setRefresh, hset, List.nil_append]
  dsimp only
  rw [executed_bind]
  cases (attacks h attackTuple rowPairs).run.result () with
  | error e => exact List.append_nil _
  | ok goOn =>
    cases goOn with
    | true =>
      change executed (attacks h attackTuple rowPairs) ++ executed (setRefresh h true) = _
      rw [executed_setRefresh, List.append_nil]
    | false => exact List.append_nil _

theorem serves_attackAll {attackTuple : List Nat → Script Bool} (hround : ∀ t ∈ rowPairs, attackTuple t = do
      payloadExecutorAttack h (count t) t
      return true) : Serves h count rowPairs (executed (attackAll h attackTuple rowPairs)) := by
  rw [executed_attackAll, attacks]
  split
  · exact serves_nil
  · exact serves_forTuples hround

theorem executed_attackAll_of_nil {attackTuple : List Nat → Script Bool}
    (hround : ∀ t, executed (attackTuple t) = []) : executed (attackAll h attackTuple rowPairs) = [] := by
  rw [executed_attackAll, attacks]
  split
  · rfl
  · exact executed_forTuples_of_nil hround

theorem serves_hwRun (verifyInitial verified : Bool) (hne : ∀ t ∈ rowPairs, t ≠ []) :
    Serves h (fun t => (readCount + t.length - 1) / t.length) rowPairs
      (executed (hwRun h readCount verifyInitial verified rowPairs)) := by
  unfold hwRun
  split
  · exact serves_nil
  · split
    · exact serves_nil
    · cases hexec : h.payloadExecutor with
      | true =>
        apply serves_attackAll
        intro t ht
        unfold hwAttackTuple
        rw [if_pos hexec, if_neg (mt List.length_eq_zero_iff.mp (hne t ht))]
      | false =>
        rw [executed_attackAll_of_nil]
        · exact serves_nil
        · intro t
          unfold hwAttackTuple
          rw [if_neg (ne_true_of_eq_false hexec)]
          split <;> rfl

theorem serves_run (prepared : Py Unit) :
    Serves h (fun _ => readCount) rowPairs (executed (run h readCount prepared rowPairs)) := by
  unfold run
  split
  · exact serves_nil
  · cases prepared with
    | error e => exact serves_nil
    | ok _ =>
      dsimp only
      cases hexec : h.payloadExecutor with
      | true =>
        apply serves_attackAll
        intro t _
        unfold attackTuple
        rw [if_pos hexec]
      | false =>
        rw [executed_attackAll_of_nil]
        · exact serves_nil
        · intro t
          unfold attackTuple
          rw [if_neg (ne_true_of_eq_false hexec)]
          rfl

/-- As `prepare_memory` is written, `RowHammer.run` ends before its attacks. -/
theorem executed_run_prepareMemory : executed (run h readCount prepareMemory rowPairs) = [] := by
  unfold run
  split <;> rfl

theorem serves_hammerOnly (pair : List Nat) :
    Serves h (fun _ => readCount) (pair :: rowPairs) (executed (hammerOnly h readCount pair)) := by
  unfold hammerOnly
  split
  · rw [← bind_pure_unit (x := payloadExecutorAttack h readCount pair)]
    exact serves_attack pair serves_nil
  · exact serves_nil

theorem executed_hammerOnly {pair payload : List Nat} (hexec : h.payloadExecutor = true)
    (hok : generatePayloadFromRowList (payloadArgs h readCount pair) = .ok payload) :
    executed (Entry.hammerOnly.start h readCount (pair :: rowPairs)) = [payload] := by
  unfold Entry.start hammerOnly payloadExecutorAttack
  dsimp only
  rw [if_pos hexec, hok]
  rfl

/-- **The payloads of an attack**: one for each of the first row tuples. -/
theorem serves_start (entry : Entry) (hne : ∀ t ∈ rowPairs, t ≠ []) :
    Serves h (fun t => entry.count readCount t) rowPairs (executed (entry.start h readCount rowPairs)) := by
  cases entry with
  | hwRun verifyInitial verified => exact serves_hwRun verifyInitial verified hne
  | run prepared => exact serves_run prepared
  | hammerOnly =>
    cases rowPairs with
    | nil => exact serves_nil
    | cons pair rowPairs => exact serves_hammerOnly pair

end Serves

/-! ## The activations of a payload -/

section Activations
variable {h : Attacker} {g : Geometry} {readCount : Nat} {payload rowTuple : List Nat}

/-- A payload activates the rows as often as it has been made for. -/
theorem activates_of_ok (hb : Board h g)
    (hok : generatePayloadFromRowList (payloadArgs h readCount rowTuple) = .ok payload) :
    Activates g h payload rowTuple readCount := by
  intro mem hmem
  obtain ⟨n₁, n₂, hgen⟩ := RowListArgs.generated_of_ok hok
  have hlen : payload.length ≤ h.payloadMemSize / 4 := RowListArgs.length_le_of_ok hok
  have hsize := hb.payloadMemSize_le
  have hrfc := hb.trfc_pos
  have hrfc' := hb.trfc_lt
  have hrefi := hb.trefi_lt
  have hlead : (payloadArgs h readCount rowTuple).lead % 2 ^ 29 ≠ 0 := by
    unfold RowListArgs.lead payloadArgs
    dsimp only
    omega
  have href : ¬ (payloadArgs h readCount rowTuple).refreshStops := by
    rintro ⟨-, hz⟩
    change h.timings.tRFC % 2 ^ 29 = 0 at hz
    omega
  obtain ⟨tr, htr, hmap⟩ := RowListArgs.executes_executed (g := g) hgen hmem hlead fun _ => href
  refine ⟨_, htr, ?_⟩
  have hacts := RowListArgs.activations_of_lt (g := g) hgen (hgen.quotient_lt (by omega)) hgen.remainder_lt
  unfold Playbook.kept at hacts
  have htarget : ∀ row, (Decoder.ofSpec g ((payloadArgs h readCount rowTuple).loopArgs.act row)).target =
      (0, h.bank % 2 ^ g.bankbits, row % 2 ^ g.addressbits) :=
    RowListArgs.target_act_mod hb.bankbits hb.nranks (Nat.two_pow_pos _)
  rw [hmap, hacts, List.map_map]
  apply List.map_congr_left
  exact fun row _ => htarget row

/-- A payload does not activate the rows in different numbers of turns. -/
theorem Activates.unique {n m : Nat} (hn : Activates g h payload rowTuple n) (hm : Activates g h payload rowTuple m)
    (hne : rowTuple ≠ []) : n = m := by
  obtain ⟨tr, htr, hacts⟩ := hn _ (loads_loadWords payload)
  obtain ⟨tr', htr', hacts'⟩ := hm _ (loads_loadWords payload)
  rw [htr'.unique htr, hacts] at hacts'
  have hlen := congrArg List.length hacts'
  rw [List.length_map, List.length_map, length_unrolled, length_unrolled] at hlen
  exact Nat.eq_of_mul_eq_mul_right (List.length_pos_iff.mpr hne) hlen

/-- The share of each row, rounded up, is the whole count only if there is nothing to share. -/
theorem ceilDiv_eq_self_iff {n k : Nat} (hk : 0 < k) : n ⌈/⌉ k = n ↔ k = 1 ∨ n ≤ 1 := by
  rw [Nat.ceilDiv_eq_add_pred_div, Nat.div_eq_iff hk]
  constructor
  · rintro ⟨hle, -⟩
    by_contra hnot
    obtain ⟨hk2, hn2⟩ : 2 ≤ k ∧ 2 ≤ n := by omega
    have := Nat.add_le_mul hn2 hk2
    omega
  · rintro (rfl | hn)
    · omega
    · obtain rfl | rfl : n = 0 ∨ n = 1 := by omega
      · omega
      · omega

end Activations

/-- **What `read_count` means.** A payload activates every row as often as its share of `read_count`, rounded up,
exactly on the way of `HwRowHammer.run`, or if there is one row or nothing to share: the other ways do not divide. -/
theorem readCount_iff {h : Attacker} {g : Geometry} (hb : Board h g) (entry : Entry) (readCount : Nat)
    (rowPairs : List (List Nat)) (hne : ∀ t ∈ rowPairs, t ≠ []) (k : Nat) (payload : List Nat)
    (hk : (executed (entry.start h readCount rowPairs))[k]? = some payload) :
    ∃ t, rowPairs[k]? = some t ∧ (Activates g h payload t (readCount ⌈/⌉ t.length) ↔
      (∃ verifyInitial verified, entry = .hwRun verifyInitial verified) ∨ t.length = 1 ∨ readCount ≤ 1) := by
  obtain ⟨t, ht, hok⟩ := (serves_start entry hne).exists_of_getElem? hk
  have hnil : t ≠ [] := hne t (List.mem_of_getElem? ht)
  have hacts := activates_of_ok hb hok
  have hiff : Activates g h payload t (readCount ⌈/⌉ t.length) ↔ readCount ⌈/⌉ t.length = entry.count readCount t := by
    constructor
    · exact fun hshare => hshare.unique hacts hnil
    · intro heq
      rw [heq]
      exact hacts
  refine ⟨t, ht, hiff.trans ?_⟩
  cases entry with
  | hwRun verifyInitial verified =>
    exact iff_of_true (Nat.ceilDiv_eq_add_pred_div _ _) (.inl ⟨_, _, rfl⟩)
  | run prepared => simp [Entry.count, ceilDiv_eq_self_iff (List.length_pos_iff.mpr hnil)]
  | hammerOnly => simp [Entry.count, ceilDiv_eq_self_iff (List.length_pos_iff.mpr hnil)]

/-- The payload executor on bank 2 of a module with two ranks. -/
def executor : Attacker :=
  { timings := ⟨5, 3, 40, 10⟩, bankbits := 3, nranks := 2, bank := 2, payloadMemSize := 1024, noRefresh := false,
    payloadExecutor := true, noAttackTime := false, dataInversion := false }

theorem board_executor : Board executor RowListArgs.twoRanks :=
  ⟨rfl, rfl, by decide, by decide, by decide, by decide⟩

/-- A count of 4 for two rows is two activations of each, not four. -/
theorem readCount_iff_twoRows : ∃ payload, executed (Entry.hammerOnly.start executor 4 [[3, 5]]) = [payload] ∧
    ∃ t, [[3, 5]][0]? = some t ∧ (Activates RowListArgs.twoRanks executor payload t (4 ⌈/⌉ t.length) ↔
      (∃ verifyInitial verified, Entry.hammerOnly = .hwRun verifyInitial verified) ∨ t.length = 1 ∨ 4 ≤ 1) := by
  obtain ⟨payload, hok⟩ := Py.exists_ok (x := generatePayloadFromRowList (payloadArgs executor 4 [3, 5]))
    (by decide +kernel)
  have hexec : executed (Entry.hammerOnly.start executor 4 [[3, 5]]) = [payload] := executed_hammerOnly rfl hok
  refine ⟨payload, hexec, readCount_iff board_executor .hammerOnly 4 [[3, 5]] (by decide) 0 payload ?_⟩
  rw [hexec]
  rfl

/-- With `--hammer-only` each of two rows is activated four times for a count of 4. -/
theorem hammerOnly_not_divided : ∃ payload, executed (Entry.hammerOnly.start executor 4 [[3, 5]]) = [payload] ∧
    Activates RowListArgs.twoRanks executor payload [3, 5] 4 ∧
    ¬ Activates RowListArgs.twoRanks executor payload [3, 5] (4 ⌈/⌉ 2) := by
  obtain ⟨payload, hok⟩ := Py.exists_ok (x := generatePayloadFromRowList (payloadArgs executor 4 [3, 5]))
    (by decide +kernel)
  have hacts := activates_of_ok board_executor hok
  refine ⟨payload, executed_hammerOnly rfl hok, hacts, ?_⟩
  intro hshare
  have heq := (ceilDiv_eq_self_iff (by decide)).mp (hshare.unique hacts (by decide))
  omega

end RowhammerTester.Scripts.RowHammer
