import RowhammerTester.Playbook.DecodeErrors
import RowhammerTester.Scripts.Soc

/-!
# The main loop of the playbook

Round after round the playbook fills a range of the memory, executes a payload, tests a range and hands the errors to
the payload generator, until this is done.

* `PayloadGenerator` : what `main` calls of a payload generator; `mainRound`, `main` : the loop, beside the whole SoC;
* `PayloadGenerator.recorded` : the generator together with what it has been handed over; `main_recorded` : the loop is
  the same for both;
* `ByRows` : errors in a dictionary over their rows; `IsRound`, `Rounds` : what the loop is for;
* `Dependable` : a generator that can be asked for every round until its last;
* `mainRound_spec` : what a round does; `main_spec` : what the loop does, whatever the payloads make of the DRAM.
-/

namespace RowhammerTester.Playbook
open RowhammerTester.Hdl RowhammerTester.Gateware RowhammerTester.Gateware.Bist RowHammerSoC RowhammerTester.Scripts

/-! ## The loop -/

/-- The methods of a payload generator with the attributes `σ`, as `main` calls them on a board. -/
structure PayloadGenerator (σ : Type) where
  getMemsetRange : σ → Py (Int × Int)
  getPayload : σ → Py (List Nat)
  getMemtestRange : σ → Py (Int × Int)
  processErrors : σ → RowErrors → Py σ
  done : σ → Bool

section Loop
variable {σ : Type} (pg : PayloadGenerator σ) (settings : Settings) (mainRamBase : Int) (w rowPattern rounds : Nat)

/-- A round of the loop of `main`. A range does not begin before the memory. -/
def mainRound (st : σ) (cache : Cache) : SocScript (σ × Cache) := do
  let (offset, size) ← ofPy (pg.getMemsetRange st)
  onBist (hwMemset w rounds offset.toNat size.toNat [rowPattern])
  let converter ← ofPy settings.load
  let payload ← ofPy (pg.getPayload st)
  onExecutor (executePayload rounds payload)
  let (offset, size) ← ofPy (pg.getMemtestRange st)
  let errors ← onBist (hwMemtest w rounds offset.toNat size.toNat [rowPattern])
  let (rowErrors, cache) ← ofPy (decodeErrors settings converter mainRamBase cache errors)
  let st ← ofPy (pg.processErrors st rowErrors)
  return (st, cache)

/-- `main` from its loop on. -/
def main (st : σ) (cache : Cache) : SocScript σ :=
  Host.loop .outOfRounds (fun (st, cache) => do
    if pg.done st then
      pure (.inr st)
    else do
      let next ← mainRound pg settings mainRamBase w rowPattern rounds st cache
      pure (.inl next)) rounds (st, cache)

end Loop

/-! ## What is handed over -/

/-- The generator, and what `process_errors` has been handed over so far. -/
def PayloadGenerator.recorded {σ : Type} (pg : PayloadGenerator σ) : PayloadGenerator (σ × List RowErrors) where
  getMemsetRange s := pg.getMemsetRange s.1
  getPayload s := pg.getPayload s.1
  getMemtestRange s := pg.getMemtestRange s.1
  processErrors s rowErrors := do
    let st ← pg.processErrors s.1 rowErrors
    return (st, s.2 ++ [rowErrors])
  done s := pg.done s.1

section Recorded
variable {σ : Type} (pg : PayloadGenerator σ) (settings : Settings) (mainRamBase : Int) (w rowPattern rounds : Nat)
  (s : σ × List RowErrors) (cache : Cache)

theorem mainRound_recorded : mainRound pg settings mainRamBase w rowPattern rounds s.1 cache =
    (mainRound pg.recorded settings mainRamBase w rowPattern rounds s cache).map (Prod.map Prod.fst id) := by
  have hlast : ∀ rowErrors (cache : Cache), ((ofPy (pg.processErrors s.1 rowErrors)).bind fun st =>
      (pure (st, cache) : SocScript (σ × Cache))) = (ofPy (pg.recorded.processErrors s rowErrors)).bind fun s' =>
        Host.map (Prod.map Prod.fst id) (pure (s', cache) : SocScript _) := by
    intro rowErrors cache
    change _ = (ofPy ((pg.processErrors s.1 rowErrors).bind fun st => .ok (st, s.2 ++ [rowErrors]))).bind _
    cases pg.processErrors s.1 rowErrors with
    | ok st => rfl
    | error e => rfl
  unfold mainRound
  simp only [Host.bind_eq, Host.map_bind, hlast]
  rfl

/-- The loop does not depend on what is recorded. -/
theorem main_recorded : main pg settings mainRamBase w rowPattern rounds s.1 cache =
    (main pg.recorded settings mainRamBase w rowPattern rounds s cache).map Prod.fst := by
  refine Host.loop_map (f := fun s : (σ × List RowErrors) × Cache => (s.1.1, s.2)) (fun s => ?_) rounds (s, cache)
  obtain ⟨s, cache⟩ := s
  dsimp only
  by_cases hdone : pg.done s.1 = true
  · rw [if_pos hdone, if_pos (show pg.recorded.done s = true from hdone)]
    rfl
  · rw [if_neg hdone, if_neg (show ¬ pg.recorded.done s = true from hdone), mainRound_recorded]
    simp only [Host.bind_eq, Host.map_bind, Host.bind_map]
    rfl

end Recorded

/-! ## What the loop is for -/

/-- Under every row the dictionary has the errors of that row, in their order. -/
def ByRows (c : DramAddressConverter) (errors : List BistError) (rowErrors : RowErrors) : Prop :=
  ∀ row, (Dictionary.get rowErrors row).map (fun e => (e.value, e.expected)) =
    (errors.filter fun e => rowOf c e = row).map fun e => (e.data, e.expected)

/-- What a round leaves: the payload, the DFI words that it was executed with, the DRAM, and the errors by rows. -/
structure Outcome (aw w : Nat) where
  payload : List Nat
  words : List (Nat → DfiPhase)
  dram : BitVec aw → BitVec w
  rowErrors : RowErrors

section Rounds
variable {σ : Type} {aw w k rb : Nat} (pg : PayloadGenerator σ) (c : DramAddressConverter) (p : PayloadExecutor.Params)
  (env : Nat → Input aw w) (cs : Csrs w k rb) (rowPattern : Nat)

/-- A round that finds the generator at `st` and the DRAM at `dram`, and leaves the generator at `st'`: a range is
filled, the payload is executed once, with the DRAM disturbed in every cycle of it, and the generator gets every word of
the other range that does not hold the pattern. -/
structure IsRound (st : σ) (dram : BitVec aw → BitVec w) (o : Outcome aw w) (st' : σ) : Prop where
  unfinished : pg.done st = false
  fill : ∃ offset size : Nat, pg.getMemsetRange st = .ok ((offset : Int), (size : Int)) ∧
    Disturbed env (filled cs.writer (offset / (w / 8)) (size / (w / 8)) rowPattern dram) o.words.length o.dram
  payload : pg.getPayload st = .ok o.payload
  executed : Executed p o.payload o.words
  tested : ∃ offset size : Nat, pg.getMemtestRange st = .ok ((offset : Int), (size : Int)) ∧
    ByRows c (changedWords cs.reader (offset / (w / 8)) (size / (w / 8)) rowPattern o.dram) o.rowErrors
  processed : pg.processErrors st o.rowErrors = .ok st'

/-- Rounds one after the other. -/
inductive Rounds (st : σ) (dram : BitVec aw → BitVec w) :
    List (Outcome aw w) → σ → (BitVec aw → BitVec w) → Prop where
  | start : Rounds st dram [] st dram
  | round {os st₁ dram₁ o st₂} (h : Rounds st dram os st₁ dram₁)
      (ho : IsRound pg c p env cs rowPattern st₁ dram₁ o st₂) : Rounds st dram (os ++ [o]) st₂ o.dram

section Runs
variable {pg c p env cs rowPattern} {st st' : σ} {dram dram' : BitVec aw → BitVec w} {os : List (Outcome aw w)}

/-- What holds of every round holds of all. -/
theorem Rounds.forall_mem (h : Rounds pg c p env cs rowPattern st dram os st' dram') {P : Outcome aw w → Prop}
    (hP : ∀ {st dram o st'}, IsRound pg c p env cs rowPattern st dram o st' → P o) : ∀ o ∈ os, P o := by
  induction h with
  | start => exact List.forall_mem_nil P
  | round _ ho ih => exact List.forall_mem_append.mpr ⟨ih, List.forall_mem_singleton.mpr (hP ho)⟩

/-- A counter of the rounds counts them, as long as they go on. -/
theorem Rounds.length_eq (h : Rounds pg c p env cs rowPattern st dram os st' dram') (count : σ → Nat) (n : Nat)
    (hdone : ∀ st, pg.done st = true ↔ n ≤ count st)
    (hcount : ∀ {st rowErrors st'}, pg.processErrors st rowErrors = .ok st' → count st' = count st + 1) :
    count st' = count st + os.length ∧ (os ≠ [] → count st' ≤ n) := by
  induction h with
  | start => exact ⟨rfl, fun hne => absurd rfl hne⟩
  | round _ ho ih =>
    have hnext := hcount ho.processed
    have hopen := mt (hdone _).mpr (Bool.eq_false_iff.mp ho.unfinished)
    rw [List.length_append, List.length_singleton]
    exact ⟨by omega, fun _ => by omega⟩

/-- The rounds of a recorded generator are those of the generator, and what they hand over is recorded. -/
theorem Rounds.of_recorded {s s' : σ × List RowErrors}
    (h : Rounds pg.recorded c p env cs rowPattern s dram os s' dram') :
    Rounds pg c p env cs rowPattern s.1 dram os s'.1 dram' ∧ s'.2 = s.2 ++ os.map Outcome.rowErrors := by
  induction h with
  | start => exact ⟨.start, (List.append_nil _).symm⟩
  | round _ ho ih =>
    obtain ⟨hrounds, hrecorded⟩ := ih
    obtain ⟨st, hprocessed, heq⟩ := Py.bind_eq_ok.mp ho.processed
    cases heq
    refine ⟨hrounds.round ⟨ho.unfinished, ho.fill, ho.payload, ho.executed, ho.tested, hprocessed⟩, ?_⟩
    rw [hrecorded, List.map_append, List.map_singleton, List.append_assoc]

end Runs

/-- In every state of `I` but the last the generator serves a round, and each brings it closer to the last. -/
structure Dependable (aw w : Nat) (I : σ → Prop) (rank : σ → Nat) : Prop where
  fills : ∀ st, I st → pg.done st = false →
    ∃ offset size : Nat, pg.getMemsetRange st = .ok ((offset : Int), (size : Int)) ∧ Testable aw w offset size
  payload : ∀ st, I st → pg.done st = false → ∃ payload, pg.getPayload st = .ok payload ∧ Fits p payload
  tests : ∀ st, I st → pg.done st = false →
    ∃ offset size : Nat, pg.getMemtestRange st = .ok ((offset : Int), (size : Int)) ∧ Testable aw w offset size
  next : ∀ st rowErrors, I st → pg.done st = false →
    ∃ st', pg.processErrors st rowErrors = .ok st' ∧ I st' ∧ rank st' < rank st

theorem Dependable.recorded {pg : PayloadGenerator σ} {p : PayloadExecutor.Params} {I : σ → Prop} {rank : σ → Nat}
    (h : Dependable pg p aw w I rank) : Dependable pg.recorded p aw w (fun s => I s.1) fun s => rank s.1 where
  fills s := h.fills s.1
  payload s := h.payload s.1
  tests s := h.tests s.1
  next s rowErrors hI hdone := by
    obtain ⟨st', hprocess, hnext⟩ := h.next s.1 rowErrors hI hdone
    exact ⟨(st', s.2 ++ [rowErrors]), Py.bind_eq_ok.mpr ⟨st', hprocess, rfl⟩, hnext⟩

end Rounds

/-! ## The loop runs the rounds -/

/-- `decode_errors` loses no error. -/
theorem decodeErrors_byRows {settings : Settings} {c : DramAddressConverter} {a : Nat} (hload : settings.load = .ok c)
    (hwidth : settings.nphases * settings.dfiDatabits = 2 ^ a) (ha : 5 ≤ a) (hist errors : List BistError) :
    ∃ rowErrors, decodeErrors settings c 0x40000000 (cacheOf c (portView c a) hist) errors =
      .ok (rowErrors, cacheOf c (portView c a) (hist ++ errors)) ∧ ByRows c errors rowErrors := by
  refine ⟨_, decodeErrors_eq hload (portView_of hload hwidth ha) errors [], fun row => ?_⟩
  have hget := Dictionary.get_collect (errors.map (recorded c (portView c a) (hist ++ errors))) row
  rw [Dictionary.collect] at hget
  rw [hget, List.filter_map, List.map_map, List.map_map]
  rfl

/-- Rounds have led from `st` and `dram` to the generator `s.1`, `x` rounds from its end at most, and to the dictionary
`s.2`. -/
def Conducting {σ : Type} {aw w k rb : Nat} {F : Fifo (BitVec aw)} {G : Fifo (Reader.ErrorRecord w)}
    (pg : PayloadGenerator σ) (c : DramAddressConverter) (p : PayloadExecutor.Params) (env : Nat → Input aw w)
    (cs : Csrs w k rb) (rowPattern a : Nat) (I : σ → Prop) (rank : σ → Nat) (st : σ) (dram : BitVec aw → BitVec w)
    (words : List (Nat → DfiPhase)) (withRefresh : Bool) (atRefresh x : Nat) (s : σ × Cache)
    (at' : At (RowHammerSoC F G k rb)) : Prop :=
  ∃ os dram' hist, (Rounds pg c p env cs rowPattern st dram os s.1 dram' ∧ (I s.1 ∧ rank s.1 = x) ∧
    s.2 = cacheOf c (portView c a) hist) ∧
    Quiet cs dram' (words ++ (os.map Outcome.words).flatten) withRefresh atRefresh at'

section Spec
variable {σ : Type} {aw w k rb a : Nat} {pg : PayloadGenerator σ} {I : σ → Prop} {rank : σ → Nat}
  {p : PayloadExecutor.Params} {ddr5 : Bool} {env : Nat → Input aw w} {wait : Nat → Nat} {F : Fifo (BitVec aw)}
  {G : Fifo (Reader.ErrorRecord w)} {cs : Csrs w k rb} {words : List (Nat → DfiPhase)} {withRefresh : Bool}
  {atRefresh rowPattern : Nat} {settings : Settings} {c : DramAddressConverter}
  (hpg : Dependable pg p aw w I rank) (hload : settings.load = .ok c)
  (hwidth : settings.nphases * settings.dfiDatabits = 2 ^ a) (ha : 5 ≤ a) (hwait : ∀ t, 7 ≤ wait t)
  (hlag : ∀ q, G.lag q ≤ 3) (hfair : FairStalls fun t => (env t).stalls) (hwriter : cs.writer.modulo = false)
  (hreader : cs.reader.modulo = false) (hat : atRefresh < 2 ^ 32)
  (hrefresh : withRefresh = true → ∀ t, ∃ u, t ≤ u ∧ DfiSwitch.refresh ddr5 (env u).controller = true)
include hpg hload hwidth ha hwait hlag hfair hwriter hreader hat hrefresh

/-- **A round of the loop.** -/
theorem mainRound_spec {st : σ} (hst : I st) (hdone : pg.done st = false) (hist : List BistError)
    (dram : BitVec aw → BitVec w) :
    Triple (soc p ddr5) env wait (Quiet (F := F) (G := G) cs dram words withRefresh atRefresh)
      (fun g => mainRound pg settings 0x40000000 w rowPattern g st (cacheOf c (portView c a) hist)) fun next at' =>
      ∃ o hist', (IsRound pg c p env cs rowPattern st dram o next.1 ∧ (I next.1 ∧ rank next.1 < rank st) ∧
        next.2 = cacheOf c (portView c a) hist') ∧ Quiet cs o.dram (words ++ o.words) withRefresh atRefresh at' := by
  obtain ⟨offset, size, hfill, hfillable⟩ := hpg.fills st hst hdone
  obtain ⟨payload, hpayload, hfits⟩ := hpg.payload st hst hdone
  obtain ⟨offset', size', htest, htestable⟩ := hpg.tests st hst hdone
  unfold mainRound
  refine ofPy_spec hfill ?_
  refine (hwMemset_soc hfair hfillable hwriter rowPattern).bind fun _ => ?_
  refine ofPy_spec hload (ofPy_spec hpayload ?_)
  refine (executePayload_soc hfits hat hrefresh).bind fun _ => ?_
  apply Triple.ex
  intro L
  apply Triple.ex
  intro dram'
  apply Triple.lift
  intro hexecuted
  refine ofPy_spec htest ?_
  refine (hwMemtest_soc hwait hlag hfair htestable hreader rowPattern).bind fun errors => ?_
  apply Triple.lift
  rintro rfl
  obtain ⟨rowErrors, hdecode, hsorted⟩ := decodeErrors_byRows hload hwidth ha hist
    (changedWords cs.reader (offset' / (w / 8)) (size' / (w / 8)) rowPattern dram')
  obtain ⟨st', hprocess, hst', hrank⟩ := hpg.next st rowErrors hst hdone
  refine ofPy_spec hdecode (ofPy_spec hprocess ?_)
  apply Triple.done
  intro at' hquiet
  refine ⟨⟨payload, L, dram', rowErrors⟩, _, ⟨?_, ⟨hst', hrank⟩, rfl⟩, hquiet⟩
  exact ⟨hdone, ⟨offset, size, hfill, hexecuted.2⟩, hpayload, hexecuted.1, ⟨offset', size', htest, hsorted⟩, hprocess⟩

/-- **The loop.** It ends, and has run rounds until the generator was done. -/
theorem main_spec (st : σ) (hst : I st) (dram : BitVec aw → BitVec w) :
    Triple (soc p ddr5) env wait (Quiet (F := F) (G := G) cs dram words withRefresh atRefresh)
      (fun g => main pg settings 0x40000000 w rowPattern g st fun _ => none) fun st' at' =>
      ∃ os dram', (Rounds pg c p env cs rowPattern st dram os st' dram' ∧ pg.done st' = true) ∧
        Quiet cs dram' (words ++ (os.map Outcome.words).flatten) withRefresh atRefresh at' := by
  have hstart : ∀ at' : At (RowHammerSoC F G k rb), Quiet cs dram words withRefresh atRefresh at' →
      Conducting pg c p env cs rowPattern a I rank st dram words withRefresh atRefresh (rank st) (st, fun _ => none)
        at' := by
    intro at' hquiet
    refine ⟨[], dram, [], ⟨.start, ⟨hst, rfl⟩, rfl⟩, ?_⟩
    rw [List.map_nil, List.flatten_nil, List.append_nil]
    exact hquiet
  unfold main
  refine Triple.conseq (Triple.loop (Conducting pg c p env cs rowPattern a I rank st dram words withRefresh atRefresh)
    ?_ (rank st) (st, fun _ => none)) hstart fun _ _ h => h
  intro x s
  apply Triple.ex
  intro os
  apply Triple.ex
  intro dram'
  apply Triple.ex
  intro hist
  apply Triple.lift
  intro hled
  obtain ⟨st', cache⟩ := s
  obtain ⟨hrounds, ⟨hst', rfl⟩, rfl⟩ := hled
  by_cases hdone : pg.done st' = true
  · exact Triple.ite_pos hdone (Triple.done _ fun at' hquiet => ⟨os, dram', ⟨hrounds, hdone⟩, hquiet⟩)
  · apply Triple.ite_neg hdone
    refine (mainRound_spec hpg hload hwidth ha hwait hlag hfair hwriter hreader hat hrefresh hst'
      (Bool.eq_false_iff.mpr hdone) hist dram').bind fun next => ?_
    apply Triple.done
    intro at' hnext
    obtain ⟨o, hist', ⟨hround, ⟨hI, hrank⟩, hcache⟩, hquiet⟩ := hnext
    refine ⟨rank next.1, hrank, os ++ [o], o.dram, hist', ⟨hrounds.round hround, ⟨hI, rfl⟩, hcache⟩, ?_⟩
    rw [List.map_append, List.flatten_append, ← List.append_assoc, List.map_singleton, List.flatten_singleton]
    exact hquiet

end Spec

end RowhammerTester.Playbook
