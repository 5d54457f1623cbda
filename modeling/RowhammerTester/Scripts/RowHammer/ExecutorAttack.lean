import RowhammerTester.Scripts.ExecutePayload
import RowhammerTester.Scripts.RowHammer.Attack

/-!
# Attacks on the board

What the attacks through the payload executor do to the DRAM: every payload that a script hands over is executed by the
gateware, one after the other, and its commands are what the DFI master takes.

* `play`, `playAll` : the events of a script as accesses to the executor;
* `Calm` : refreshes go on whenever a payload is executed with them; `calm_start` : so they do in every attack;
* `refreshesAfter` : whether they are switched on in the end;
* `playAll_spec` : the payloads are executed in order; `fits_of_ok` : a generated payload can be;
* `attack_on_board` : the activations of the DRAM in a whole attack.
-/

namespace RowhammerTester.Scripts.RowHammer
open RowhammerTester.Hdl RowhammerTester.Firmware RowhammerTester.Playbook RowhammerTester.Gateware
  RowhammerTester.Gateware.Interp Encoder

/-! ## The events of a script -/

/-- What a script does, in order. -/
def events {α : Type} (x : Script α) : List Event := x.run.events ()

/-- The event as accesses to the executor; the other modules of an attack do not touch it. -/
def play (rounds : Nat) : Event → ExecutorScript Unit
  | .setRefresh enabled => ExecutorScript.write (.writeRefresh enabled.toNat)
  | .execute payload => executePayload rounds payload
  | .attack _ _ => .done ()
  | .sleep => .done ()

def playAll (rounds : Nat) : List Event → ExecutorScript Unit
  | [] => .done ()
  | e :: es => (play rounds e).bind fun _ => playAll rounds es

/-- Where a payload is executed with refreshes switched on, `R` holds. -/
def Calm (R : Prop) : Bool → List Event → Prop
  | _, [] => True
  | _, .setRefresh enabled :: es => Calm R enabled es
  | withRefresh, .execute _ :: es => (withRefresh = true → R) ∧ Calm R withRefresh es
  | withRefresh, .attack _ _ :: es => Calm R withRefresh es
  | withRefresh, .sleep :: es => Calm R withRefresh es

/-- Whether refreshes are switched on after the events. -/
def refreshesAfter : Bool → List Event → Bool
  | withRefresh, [] => withRefresh
  | _, .setRefresh enabled :: es => refreshesAfter enabled es
  | withRefresh, _ :: es => refreshesAfter withRefresh es

/-- The script does not switch the refreshes. -/
def Unswitched {α : Type} (x : Script α) : Prop := ∀ e ∈ events x, ∀ enabled, e ≠ .setRefresh enabled

section Calm
variable {α β : Type} {R : Prop} {withRefresh : Bool}

theorem events_bind (x : Script α) (f : α → Script β) :
    events (x >>= f) = events x ++ (match x.run.result () with | .ok a => events (f a) | .error _ => []) := by
  unfold events
  rw [ExceptT.run_bind, Traced.events_bind]
  congr 1
  cases x.run.result () <;> rfl

theorem Unswitched.bind {x : Script α} {f : α → Script β} (hx : Unswitched x) (hf : ∀ a, Unswitched (f a)) :
    Unswitched (x >>= f) := by
  intro e he
  rw [events_bind] at he
  obtain he | he := List.mem_append.mp he
  · exact hx e he
  · split at he
    · exact hf _ e he
    · cases he

theorem calm_append {es es' : List Event} (hes : ∀ e ∈ es, ∀ enabled, e ≠ .setRefresh enabled)
    (hR : withRefresh = true → R) (hes' : Calm R withRefresh es') : Calm R withRefresh (es ++ es') := by
  induction es with
  | nil => exact hes'
  | cons e es ih =>
    obtain ⟨he, hrest⟩ := List.forall_mem_cons.mp hes
    have hcalm := ih hrest
    cases e with
    | setRefresh enabled => exact absurd rfl (he enabled)
    | execute payload => exact ⟨hR, hcalm⟩
    | attack rowTuple readCount => exact hcalm
    | sleep => exact hcalm

end Calm

section Start
variable {h : Attacker} {readCount : Nat} {R : Prop} {withRefresh : Bool} {rowPairs : List (List Nat)}

theorem unswitched_nil {α : Type} {x : Script α} (hx : events x = []) : Unswitched x := by
  intro e he
  rw [hx] at he
  cases he

theorem unswitched_payloadExecutorAttack (rowTuple : List Nat) :
    Unswitched (payloadExecutorAttack h readCount rowTuple) := by
  unfold payloadExecutorAttack
  cases generatePayloadFromRowList (payloadArgs h readCount rowTuple) with
  | ok payload =>
    intro e he enabled heq
    rw [List.mem_singleton.mp he] at heq
    cases heq
  | error e => exact unswitched_nil rfl

theorem unswitched_emit {e : Event} (h : ∀ enabled, e ≠ .setRefresh enabled) : Unswitched (emit e) := by
  intro e' he
  rw [List.mem_singleton.mp he]
  exact h

theorem unswitched_forTuples {attackTuple : List Nat → Script Bool} (hround : ∀ t, Unswitched (attackTuple t)) :
    Unswitched (forTuples attackTuple rowPairs) := by
  induction rowPairs with
  | nil => exact unswitched_nil rfl
  | cons t rowPairs ih =>
    apply (hround t).bind
    intro goOn
    cases goOn with
    | true => exact ih
    | false => exact unswitched_nil rfl

theorem unswitched_attacks {attackTuple : List Nat → Script Bool} (hround : ∀ t, Unswitched (attackTuple t)) :
    Unswitched (attacks h attackTuple rowPairs) := by
  unfold attacks
  split
  · exact (unswitched_emit (e := .sleep) nofun).bind fun _ => unswitched_nil rfl
  · exact unswitched_forTuples hround

/-- Refreshes are only off while they are not wanted, and on again after the last payload. -/
theorem calm_attackAll {attackTuple : List Nat → Script Bool} (hround : ∀ t, Unswitched (attackTuple t))
    (hR : withRefresh = true → R) : Calm R withRefresh (events (attackAll h attackTuple rowPairs)) := by
  have hend : ∀ (wr : Bool) (goOn : Bool),
      Calm R wr (events (if goOn then setRefresh h true else (return () : Script Unit))) := by
    intro wr goOn
    cases goOn with
    | false => trivial
    | true =>
      change Calm R wr (events (setRefresh h true))
      unfold setRefresh
      split <;> trivial
  have hrest : ∀ wr : Bool, (wr = true → R) → Calm R wr (events (do
      let goOn ← attacks h attackTuple rowPairs
      if goOn then setRefresh h true else return)) := by
    intro wr hwr
    rw [events_bind]
    apply calm_append (unswitched_attacks hround) hwr
    split
    · exact hend wr _
    · trivial
  rw [attackAll, events_bind]
  cases hn : h.noRefresh with
  | true =>
    have hset : setRefresh h false = emit (.setRefresh false) := if_pos hn
    rw [hset]
    exact hrest false fun hf => absurd hf Bool.false_ne_true
  | false =>
    have hset : setRefresh h false = return () := if_neg (ne_true_of_eq_false hn)
    rw [hset]
    exact hrest withRefresh hR

theorem unswitched_hwAttackTuple (t : List Nat) : Unswitched (hwAttackTuple h readCount t) := by
  unfold hwAttackTuple
  split
  · split
    · exact unswitched_nil rfl
    · exact (unswitched_payloadExecutorAttack t).bind fun _ => unswitched_nil rfl
  · split
    · exact unswitched_nil rfl
    · exact (unswitched_emit (e := .attack t readCount) nofun).bind fun _ => unswitched_nil rfl

theorem unswitched_attackTuple (t : List Nat) : Unswitched (attackTuple h readCount t) := by
  unfold attackTuple
  split
  · exact (unswitched_payloadExecutorAttack t).bind fun _ => unswitched_nil rfl
  · exact (unswitched_emit (e := .attack t readCount) nofun).bind fun _ => unswitched_nil rfl

/-- In every attack refreshes are as they were found, or off, while payloads are executed. -/
theorem calm_start (entry : Entry) (hR : withRefresh = true → R) :
    Calm R withRefresh (events (entry.start h readCount rowPairs)) := by
  have hcalm : ∀ {x : Script Unit}, Unswitched x → Calm R withRefresh (events x) := by
    intro x hx
    have hnone : Calm R withRefresh [] := trivial
    have hwhole := calm_append hx hR hnone
    rwa [List.append_nil] at hwhole
  cases entry with
  | hwRun verifyInitial verified =>
    change Calm R withRefresh (events (hwRun h readCount verifyInitial verified rowPairs))
    unfold hwRun
    split
    · trivial
    · split
      · trivial
      · exact calm_attackAll unswitched_hwAttackTuple hR
  | run prepared =>
    change Calm R withRefresh (events (run h readCount prepared rowPairs))
    unfold run
    split
    · trivial
    · cases prepared with
      | error e => trivial
      | ok _ => exact calm_attackAll unswitched_attackTuple hR
  | hammerOnly =>
    cases rowPairs with
    | nil => trivial
    | cons pair rowPairs =>
      apply hcalm
      change Unswitched (hammerOnly h readCount pair)
      unfold hammerOnly
      split
      · exact unswitched_payloadExecutorAttack pair
      · exact unswitched_emit (e := .attack pair readCount) nofun

end Start

/-! ## One payload after the other -/

section Play
variable {p : PayloadExecutor.Params} {ddr5 : Bool} {env : Nat → DfiPhase} {wait : Nat → Nat}
  {words : List (Nat → DfiPhase)} {withRefresh : Bool} {atRefresh : Nat}

theorem setRefresh_spec (enabled : Bool) :
    Triple (ExecutorBoard.device p ddr5) env wait (fun c => Free words withRefresh atRefresh c.device)
      (fun _ => ExecutorScript.write (.writeRefresh enabled.toNat)) fun _ c =>
      Free words enabled atRefresh c.device := by
  apply Triple.access
  intro c hc
  obtain ⟨hlater, -⟩ := hc.later p ddr5 env (wait c.time)
  apply Triple.done
  intro c' hc'
  rw [hc']
  refine ⟨hlater.idle.clock (a := some (.writeRefresh _)) _ nofun, ?_, hlater.atRefresh⟩
  cases enabled <;> rfl

/-- **The payloads of a script**, if they fit, are executed one after the other and nothing else is. -/
theorem playAll_spec {R : Prop} (hrefresh : R → ∀ t, ∃ u, t ≤ u ∧ DfiSwitch.refresh ddr5 (env u) = true)
    (hat : atRefresh < 2 ^ 32) (es : List Event) : ∀ (words : List (Nat → DfiPhase)) {withRefresh : Bool},
    Calm R withRefresh es → (∀ payload ∈ es.filterMap Event.payload?, Fits p payload) →
    Triple (ExecutorBoard.device p ddr5) env wait (fun c => Free words withRefresh atRefresh c.device)
      (fun g => playAll g es) fun _ c => ∃ Ls, List.Forall₂ (Executed p) (es.filterMap Event.payload?) Ls ∧
        Free (words ++ Ls.flatten) (refreshesAfter withRefresh es) atRefresh c.device := by
  induction es with
  | nil =>
    intro words withRefresh _ _
    apply Triple.done
    intro c hc
    refine ⟨[], .nil, ?_⟩
    rw [List.flatten_nil, List.append_nil]
    exact hc
  | cons e es ih =>
    intro words withRefresh hcalm hfits
    cases e with
    | setRefresh enabled => exact (setRefresh_spec enabled).bind fun _ => ih words hcalm hfits
    | attack rowTuple readCount => exact ih words hcalm hfits
    | sleep => exact ih words hcalm hfits
    | execute payload =>
      obtain ⟨hpayload, hfits⟩ := List.forall_mem_cons.mp hfits
      obtain ⟨hR, hcalm⟩ := hcalm
      apply (executePayload_spec hpayload hat fun h => hrefresh (hR h)).bind
      intro _
      apply Triple.ex
      intro L
      apply Triple.lift
      intro hL
      refine Triple.conseq (ih _ hcalm hfits) (fun _ h => h) fun _ c hc => ?_
      obtain ⟨Ls, hLs, hfree⟩ := hc
      refine ⟨L :: Ls, .cons hL hLs, ?_⟩
      rw [List.flatten_cons, ← List.append_assoc]
      exact hfree

end Play

/-! ## The activations -/

section Activations
variable {p : PayloadExecutor.Params} {h : Attacker} {readCount : Nat} {payload rowTuple : List Nat}

/-- A payload that leaves the last word of the memory free can be executed. -/
theorem fits_of_ok (hb : Board h p.geometry) (hphase : p.rdphase < 2 ^ DfiExecutor.phaseBits p.nphases)
    (hok : generatePayloadFromRowList (payloadArgs h readCount rowTuple) = .ok payload)
    (hlen : payload.length < p.depth) : Fits p payload := by
  obtain ⟨n₁, n₂, hgen⟩ := RowListArgs.generated_of_ok hok
  have hruns : ∀ mem, Loads mem payload → ∃ tr, Executes p.geometry mem tr := by
    intro mem hmem
    obtain ⟨tr, hrun, -⟩ := activates_of_ok hb hok mem hmem
    exact ⟨tr, hrun⟩
  obtain rfl := hgen.words_eq
  -- the instruction behind the last refresh is the STOP
  have hprogram : (payloadArgs h readCount rowTuple).program n₁ n₂ =
      (I.noop (payloadArgs h readCount rowTuple).lead :: (((payloadArgs h readCount rowTuple).loops n₁ n₂).flatMap
        Loop.code ++ [refreshI (payloadArgs h readCount rowTuple).refreshOp 1])) ++ [I.noop 0] := by
    rw [RowListArgs.program, List.cons_append, List.append_assoc]
    rfl
  rw [hprogram] at hlen hruns ⊢
  exact fits_of_program hphase hlen hruns

/-- The DFI words show the rows activated in turns, `n` times each. -/
def Hammers (p : PayloadExecutor.Params) (h : Attacker) (rowTuple : List Nat) (n : Nat)
    (words : List (Nat → DfiPhase)) : Prop :=
  ∃ tr, ExecutorBoard.Carries p tr words ∧
    ((tr.map Visit.instr).filter fun i => decide (i.Is .ACT)).map Decoder.target =
      (List.replicate n rowTuple).flatten.map fun row =>
        (0, h.bank % 2 ^ p.geometry.bankbits, row % 2 ^ p.geometry.addressbits)

theorem Activates.hammers {n : Nat} {L : List (Nat → DfiPhase)} (hacts : Activates p.geometry h payload rowTuple n)
    (hL : Executed p payload L) : Hammers p h rowTuple n L := by
  obtain ⟨mem, tr, hmem, hrun, hcarries⟩ := hL
  obtain ⟨tr', hrun', htargets⟩ := hacts mem hmem
  rw [hrun'.unique hrun] at htargets
  exact ⟨tr, hcarries, htargets⟩

end Activations

/-- **An attack on the board.** Whatever the bus takes, the script ends with the executor free; what the DFI master has
taken from the executor are the payloads one after the other, the `k`-th of which activates the rows of the `k`-th tuple
in turns, as often as it was asked for. -/
theorem attack_on_board {p : PayloadExecutor.Params} {ddr5 : Bool} {h : Attacker} (hb : Board h p.geometry)
    (hphase : p.rdphase < 2 ^ DfiExecutor.phaseBits p.nphases) (entry : Entry) (readCount : Nat)
    (rowPairs : List (List Nat)) (hne : ∀ t ∈ rowPairs, t ≠ [])
    (hlen : ∀ payload ∈ executed (entry.start h readCount rowPairs), payload.length < p.depth)
    (env : Nat → DfiPhase) (wait : Nat → Nat) (c₀ : At ExecutorBoard.Board) (words : List (Nat → DfiPhase))
    (hidle : ExecutorBoard.Idle words c₀.device) (hat : c₀.device.atRefresh < 2 ^ 32)
    (hfair : ExecutorBoard.Refreshes ddr5 env c₀.device) :
    ∃ f c₁, ∃ Ls : List (List (Nat → DfiPhase)), (∀ rounds, f ≤ rounds → runHost (ExecutorBoard.device p ddr5) env wait
        (playAll rounds (events (entry.start h readCount rowPairs))) c₀ = (.ok (), c₁)) ∧
      ExecutorBoard.Idle (words ++ Ls.flatten) c₁.device ∧
      Ls.length = (executed (entry.start h readCount rowPairs)).length ∧
      ∀ (k : Nat) (L : List (Nat → DfiPhase)), Ls[k]? = some L →
        ∃ t, rowPairs[k]? = some t ∧ Hammers p h t (entry.count readCount t) L := by
  have hserves : Serves h (fun t => entry.count readCount t) rowPairs (executed (entry.start h readCount rowPairs)) :=
    serves_start entry hne
  have hmade : ∀ {k : Nat} {payload : List Nat}, (executed (entry.start h readCount rowPairs))[k]? = some payload →
      ∃ t, rowPairs[k]? = some t ∧
        generatePayloadFromRowList (payloadArgs h (entry.count readCount t) t) = .ok payload :=
    fun hk => hserves.exists_of_getElem? hk
  have hfits : ∀ payload ∈ (events (entry.start h readCount rowPairs)).filterMap Event.payload?, Fits p payload := by
    intro payload hpayload
    obtain ⟨k, hk⟩ := List.mem_iff_getElem?.mp hpayload
    obtain ⟨t, -, hok⟩ := hmade hk
    exact fits_of_ok hb hphase hok (hlen payload hpayload)
  have hcalm : Calm (∀ t, ∃ u, t ≤ u ∧ DfiSwitch.refresh ddr5 (env u) = true) c₀.device.withRefresh
      (events (entry.start h readCount rowPairs)) := calm_start entry hfair
  obtain ⟨f, _, c₁, hrun, Ls, hLs, hfree⟩ :=
    playAll_spec (fun hR => hR) hat _ words hcalm hfits c₀ ⟨hidle, rfl, rfl⟩
  refine ⟨f, c₁, Ls, hrun, hfree.idle, hLs.length_eq.symm, fun k L hL => ?_⟩
  obtain ⟨hlt, rfl⟩ := List.getElem?_eq_some_iff.mp hL
  have hk : k < (executed (entry.start h readCount rowPairs)).length := hLs.length_eq ▸ hlt
  obtain ⟨t, ht, hok⟩ := hmade (List.getElem?_eq_getElem hk)
  exact ⟨t, ht, (activates_of_ok hb hok).hammers (hLs.get hk hlt)⟩

/-- A payload memory of 256 words, on a module with two ranks. -/
def executorParams : PayloadExecutor.Params :=
  { depth := 256, geometry := RowListArgs.twoRanks, nphases := 4, rdphase := 2 }

/-- The board after reset, with refreshes switched on. -/
def resetBoard : ExecutorBoard.Board :=
  { memory := fun _ => 0, system := System.reset executorParams fun _ => 0, withRefresh := true, atRefresh := 0,
    words := [] }

/-- The memory controller refreshes in every cycle. -/
def refreshing (_ : Nat) : DfiPhase := { DfiPhase.reset 2 with csN := 0, casN := false, rasN := false }

/-- A count of 4 is two activations of each row of two pairs. -/
theorem attack_on_board_twoPairs : ∃ f c₁ L₁ L₂, (∀ rounds, f ≤ rounds →
      runHost (ExecutorBoard.device executorParams false) refreshing (fun _ => 3)
        (playAll rounds (events ((Entry.hwRun false true).start executor 4 [[3, 5], [7, 9]]))) ⟨0, resetBoard⟩ =
          (.ok (), c₁)) ∧
      ExecutorBoard.Idle (L₁ ++ L₂) c₁.device ∧ Hammers executorParams executor [3, 5] 2 L₁ ∧
      Hammers executorParams executor [7, 9] 2 L₂ := by
  have hexec : (executed ((Entry.hwRun false true).start executor 4 [[3, 5], [7, 9]])).length = 2 ∧
      ∀ payload ∈ executed ((Entry.hwRun false true).start executor 4 [[3, 5], [7, 9]]), payload.length < 256 := by
    decide +kernel
  have hrefresh : ExecutorBoard.Refreshes false refreshing resetBoard := fun _ t => ⟨t, Nat.le_refl t, rfl⟩
  obtain ⟨f, c₁, Ls, hrun, hidle, hlen, hall⟩ := attack_on_board (p := executorParams) (h := executor) board_executor
    (by decide) (.hwRun false true) 4 [[3, 5], [7, 9]] (by decide) hexec.2 refreshing (fun _ => 3) ⟨0, resetBoard⟩ []
    ⟨rfl, rfl, rfl, rfl, Nat.two_pow_pos 32, rfl⟩ (Nat.two_pow_pos 32) hrefresh
  rw [hexec.1] at hlen
  obtain ⟨L₁, L₂, rfl⟩ := List.length_eq_two.mp hlen
  obtain ⟨t₁, ht₁, h₁⟩ := hall 0 L₁ rfl
  obtain ⟨t₂, ht₂, h₂⟩ := hall 1 L₂ rfl
  cases ht₁
  cases ht₂
  rw [List.flatten_cons, List.flatten_cons, List.flatten_nil, List.append_nil, List.nil_append] at hidle
  exact ⟨f, c₁, L₁, L₂, hrun, hidle, h₁, h₂⟩

end RowhammerTester.Scripts.RowHammer
