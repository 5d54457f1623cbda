import RowhammerTester.Gateware.ExecutorBoard
import RowhammerTester.Gateware.Program
import RowhammerTester.Scripts.MemTest.Script

/-!
# `execute_payload`

The host transfers a payload to its memory, starts it and polls the executor, looking at the refresh counter meanwhile.

* `ExecutorScript` : a script on the registers of the executor; `executePayload` : the script;
* `Free` : no payload is executed, with the settings as they are; `memwrite_spec` : the payload is stored;
* `poll_spec`, `checkRefreshAt_spec`, `waitReady_spec` : the host waits, which does not disturb the execution;
* `executePayload_spec` : the script returns, and the payload has been executed once.
-/

namespace RowhammerTester.Scripts
open RowhammerTester.Hdl RowhammerTester.Gateware RowhammerTester.Gateware.ExecutorBoard

/-! ## The script -/

/-- A script of accesses to the executor and its memory. -/
abbrev ExecutorScript := Host Access Nat Stop

namespace ExecutorScript

def read (a : Access) : ExecutorScript Nat := .access a .done

def write (a : Access) : ExecutorScript Unit := .access a fun _ => .done ()

/-- `memwrite` to the payload memory from the word `i` on. -/
def memwrite : Nat → List Nat → ExecutorScript Unit
  | _, [] => .done ()
  | i, v :: vs => .access (.store i v) fun _ => memwrite (i + 1) vs

/-- `ready` of `execute_payload`. -/
def ready : ExecutorScript Bool := do
  let status ← read .readStatus
  return status &&& 1 ≠ 0

/-- `check_refresh_at` of `execute_payload`; with `force` it prints more. -/
def checkRefreshAt : ExecutorScript Bool := do
  let atRefresh ← read .readAtRefresh
  -- if at_refresh is not zero, then dfi switch will be blocked until refresh count is reached
  if atRefresh ≠ 0 then do
    write .updateRefreshCount
    let now ← read .readRefreshCount
    return atRefresh < now
  else
    return false

/-- The loop of `execute_payload`, with `transitioned`. -/
def waitReady (rounds : Nat) (refreshEnabled : Bool) : ExecutorScript Unit :=
  Host.loop .outOfRounds (fun prev => do
    if ← ready then
      pure (.inr ())
    else if refreshEnabled then do
      let transitioned ← checkRefreshAt
      if !prev && transitioned then do
        let _ ← checkRefreshAt
        pure (.inl transitioned)
      else
        pure (.inl transitioned)
    else
      pure (.inl prev)) rounds false

end ExecutorScript

/-- `execute_payload`. -/
def executePayload (rounds : Nat) (payload : List Nat) : ExecutorScript Unit := do
  ExecutorScript.memwrite 0 payload
  let refreshEnabled ← ExecutorScript.read .readRefresh
  let isReady ← ExecutorScript.ready
  Host.check (isReady = true) (.raised (.assertionError ""))
  ExecutorScript.write .start
  ExecutorScript.waitReady rounds (decide (refreshEnabled ≠ 0))

/-! ## The transfer -/

variable {p : PayloadExecutor.Params} {ddr5 : Bool} {env : Nat → DfiPhase} {wait : Nat → Nat}

/-- No payload is executed; the settings are `withRefresh` and `atRefresh`. -/
structure Free (words : List (Nat → DfiPhase)) (withRefresh : Bool) (atRefresh : Nat) (b : Board) : Prop where
  idle : Idle words b
  withRefresh : b.withRefresh = withRefresh
  atRefresh : b.atRefresh = atRefresh

section Transfer
variable {words : List (Nat → DfiPhase)} {withRefresh : Bool} {atRefresh : Nat}

/-- An edge leaves it free, and the memory as it is, without an access and with one that only reads. -/
theorem Free.clock {b : Board} (h : Free words withRefresh atRefresh b) (x : DfiPhase) {a : Option Access}
    (ha : ∀ y, a = some y → Harmless y) : Free words withRefresh atRefresh (clock p ddr5 b x a) ∧
      (clock p ddr5 b x a).memory = b.memory := by
  obtain ⟨hmemory, hrefresh, -⟩ := clock_of_harmless p ddr5 (b := b) ha x
  refine ⟨⟨h.idle.clock x ?_, hrefresh.trans h.withRefresh, h.atRefresh⟩, hmemory⟩
  intro heq
  exact ha _ heq

variable (p ddr5 env) in
theorem Free.later {c : At Board} (h : Free words withRefresh atRefresh c.device) (n : Nat) :
    Free words withRefresh atRefresh (boardAt p ddr5 env c n) ∧ (boardAt p ddr5 env c n).memory = c.device.memory := by
  refine later_induction (P := fun b => Free words withRefresh atRefresh b ∧ b.memory = c.device.memory)
    (device p ddr5) env (fun b x hb => ?_) ⟨h, rfl⟩ n
  obtain ⟨hfree, hmemory⟩ := hb.1.clock (p := p) x fun _ => harmless_none
  exact ⟨hfree, hmemory.trans hb.2⟩

/-- What the host reads before the start. -/
theorem freeRead_spec {payload : List Nat} {a : Access} (ha : Harmless a) :
    Triple (device p ddr5) env wait
      (fun c => Free words withRefresh atRefresh c.device ∧ Loads c.device.memory payload)
      (fun _ => ExecutorScript.read a) fun r c => (∃ b, Free words withRefresh atRefresh b ∧ r = answer b a) ∧
        Free words withRefresh atRefresh c.device ∧ Loads c.device.memory payload := by
  apply Triple.access
  intro c hc
  obtain ⟨hlater, hmemory⟩ := hc.1.later p ddr5 env (wait c.time)
  obtain ⟨hread, hmemory'⟩ := hlater.clock (p := p) (env (c.time + wait c.time)) (a := some a)
    fun y hy => Option.some.inj hy ▸ ha
  apply Triple.done
  intro c' hc'
  have hmem : c'.device.memory = c.device.memory := by
    rw [hc']
    exact hmemory'.trans hmemory
  rw [hmem, hc']
  exact ⟨⟨_, hlater, rfl⟩, hread, hc.2⟩

/-- The executor is found ready. -/
theorem freeReady_spec {payload : List Nat} :
    Triple (device p ddr5) env wait
      (fun c => Free words withRefresh atRefresh c.device ∧ Loads c.device.memory payload)
      (fun _ => ExecutorScript.ready) fun r c =>
      r = true ∧ Free words withRefresh atRefresh c.device ∧ Loads c.device.memory payload := by
  apply (freeRead_spec (a := .readStatus) trivial).bind
  intro status
  apply Triple.lift
  intro hstatus
  obtain ⟨b, hb, rfl⟩ := hstatus
  refine Triple.done _ fun c hc => ⟨?_, hc⟩
  rw [answer, PayloadExecutor.ready, hb.idle.fsm]
  rfl

theorem loads_concat {mem : Nat → BitVec 32} {vs : List Nat} (h : Loads mem vs) (v : Nat) :
    Loads (Function.update mem vs.length (BitVec.ofNat 32 v)) (vs ++ [v]) := by
  intro k hk
  rw [List.length_append, List.length_singleton] at hk
  obtain hlt | rfl := Nat.lt_or_eq_of_le (Nat.le_of_lt_succ hk)
  · rw [Function.update_of_ne (Nat.ne_of_lt hlt), h k hlt, List.getElem_append_left hlt]
  · rw [Function.update_self, List.getElem_concat_length rfl]

/-- The words of a payload that fits into the memory are stored one behind the other. -/
theorem memwrite_spec (payload : List Nat) : ∀ stored : List Nat, stored.length + payload.length ≤ p.depth →
    Triple (device p ddr5) env wait
      (fun c => Free words withRefresh atRefresh c.device ∧ Loads c.device.memory stored)
      (fun _ => ExecutorScript.memwrite stored.length payload) fun _ c =>
      Free words withRefresh atRefresh c.device ∧ Loads c.device.memory (stored ++ payload) := by
  induction payload with
  | nil =>
    intro stored _
    rw [List.append_nil]
    exact Triple.done () fun _ hc => hc
  | cons v payload ih =>
    intro stored hfit
    rw [List.length_cons] at hfit
    have hlen : (stored ++ [v]).length = stored.length + 1 := List.length_append
    have hrest := ih (stored ++ [v]) (by omega)
    rw [List.append_assoc, hlen] at hrest
    apply Triple.access
    intro c hc
    obtain ⟨hlater, hmemory⟩ := hc.1.later p ddr5 env (wait c.time)
    refine Triple.conseq hrest (fun c' hc' => ?_) fun _ _ h => h
    have hstore : c'.device.memory = Function.update c.device.memory stored.length (BitVec.ofNat 32 v) := by
      rw [hc', ← hmemory]
      exact if_pos (by omega)
    rw [hstore, hc']
    exact ⟨⟨hlater.idle.clock (a := some (.store _ v)) _ nofun, hlater.withRefresh, hlater.atRefresh⟩,
      loads_concat hc.2 v⟩

end Transfer

/-! ## The polls -/

section Polls
variable {c₀ : At Board}

/-- At least `m` edges after `c₀`, without anything but harmless accesses. -/
def Undisturbed (p : PayloadExecutor.Params) (ddr5 : Bool) (env : Nat → DfiPhase) (c₀ : At Board) (m : Nat)
    (c : At Board) : Prop :=
  ∃ n, m ≤ n ∧ Follows (device p ddr5) env Same c₀ n c

/-- An access after the start. -/
theorem harmless_spec {m : Nat} {a : Access} (ha : Harmless a) {α : Type} {k : Nat → Nat → ExecutorScript α}
    {Q : α → At Board → Prop} (h : ∀ r n, m ≤ n → (∃ b, Same b (boardAt p ddr5 env c₀ n) ∧ r = answer b a) →
      Triple (device p ddr5) env wait (Undisturbed p ddr5 env c₀ (n + 1)) (k r) Q) :
    Triple (device p ddr5) env wait (Undisturbed p ddr5 env c₀ m) (fun g => .access a fun r => k r g) Q := by
  apply Triple.access
  intro c hc
  obtain ⟨n, hn, hf⟩ := hc
  have hlater := hf.later (shadow p ddr5) (wait c.time)
  refine Triple.at_of ?_ (h _ _ (Nat.le_trans hn (Nat.le_add_right n _)) ⟨_, hlater.device, rfl⟩)
  exact ⟨_, Nat.le_refl _, hlater.perform (shadow p ddr5) ha⟩

/-- A poll finds out whether the executor is in READY. -/
theorem poll_spec (m : Nat) :
    Triple (device p ddr5) env wait (Undisturbed p ddr5 env c₀ m) (fun _ => ExecutorScript.ready) fun r c =>
      ∃ n, m ≤ n ∧ (r = true ↔ (boardAt p ddr5 env c₀ n).system.executor.fsm = .READY) ∧
        Undisturbed p ddr5 env c₀ (n + 1) c := by
  have hbit : ∀ ready : Bool, decide (ready.toNat &&& 1 ≠ 0) = ready := by decide
  apply harmless_spec (a := .readStatus) trivial
  intro r n hn hr
  obtain ⟨b, hb, rfl⟩ := hr
  apply Triple.done
  intro c hc
  refine ⟨n, hn, ?_, hc⟩
  rw [answer, hb.executor, hbit]
  exact beq_iff_eq

theorem Undisturbed.mono {c : At Board} {m n : Nat} (h : Undisturbed p ddr5 env c₀ n c) (hle : m ≤ n) :
    Undisturbed p ddr5 env c₀ m c := by
  obtain ⟨k, hk, hf⟩ := h
  exact ⟨k, Nat.le_trans hle hk, hf⟩

/-- The refresh counter is looked at. -/
theorem checkRefreshAt_spec (m : Nat) :
    Triple (device p ddr5) env wait (Undisturbed p ddr5 env c₀ m) (fun _ => ExecutorScript.checkRefreshAt) fun _ c =>
      Undisturbed p ddr5 env c₀ m c := by
  apply harmless_spec (a := .readAtRefresh) trivial
  intro r n hn _
  by_cases hr : r ≠ 0
  · refine Triple.ite_pos hr ?_
    apply harmless_spec (a := .updateRefreshCount) trivial
    intro _ n₁ hn₁ _
    apply harmless_spec (a := .readRefreshCount) trivial
    intro now n₂ hn₂ _
    exact Triple.done _ fun c hc => hc.mono (by omega)
  · exact Triple.ite_neg hr (Triple.done _ fun c hc => hc.mono (by omega))

/-- A round that does not leave the loop. -/
theorem round_spec (m : Nat) (refreshEnabled prev : Bool) :
    Triple (device p ddr5) env wait (Undisturbed p ddr5 env c₀ m) (fun _ =>
        if refreshEnabled then do
          let transitioned ← ExecutorScript.checkRefreshAt
          if !prev && transitioned then do
            let _ ← ExecutorScript.checkRefreshAt
            pure (.inl transitioned)
          else
            pure (.inl transitioned)
        else
          (pure (.inl prev) : ExecutorScript (Bool ⊕ Unit)))
      fun r c => (∃ transitioned, r = .inl transitioned) ∧ Undisturbed p ddr5 env c₀ m c := by
  cases refreshEnabled with
  | false => exact Triple.done _ fun c hc => ⟨⟨prev, rfl⟩, hc⟩
  | true =>
    apply (checkRefreshAt_spec m).bind
    intro transitioned
    by_cases h : (!prev && transitioned) = true
    · refine Triple.ite_pos h ?_
      apply (checkRefreshAt_spec m).bind
      intro _
      exact Triple.done _ fun c hc => ⟨⟨transitioned, rfl⟩, hc⟩
    · exact Triple.ite_neg h (Triple.done _ fun c hc => ⟨⟨transitioned, rfl⟩, hc⟩)

/-- The loop ends once the executor is in READY. -/
theorem waitReady_spec {D : Nat} (hready : ∀ n, (boardAt p ddr5 env c₀ n).system.executor.fsm = .READY ↔ D ≤ n)
    (refreshEnabled : Bool) :
    Triple (device p ddr5) env wait (fun c => c = c₀) (fun g => ExecutorScript.waitReady g refreshEnabled) fun _ c =>
      Undisturbed p ddr5 env c₀ (D + 1) c := by
  have hstart : ∃ m, D ≤ m + D ∧ Undisturbed p ddr5 env c₀ m c₀ :=
    ⟨0, by omega, 0, Nat.le_refl 0, (shadow p ddr5).follows_refl c₀⟩
  refine Triple.at_of (P := fun c => ∃ m, D ≤ m + D ∧ Undisturbed p ddr5 env c₀ m c) hstart ?_
  unfold ExecutorScript.waitReady
  -- the rounds that are left are bounded by the edges until READY
  apply Triple.loop (fun x _ c => ∃ m, D ≤ m + x ∧ Undisturbed p ddr5 env c₀ m c)
  intro x prev
  apply Triple.ex
  intro m
  apply Triple.lift
  intro hm
  apply (poll_spec m).bind
  intro isReady
  apply Triple.ex
  intro n
  apply Triple.lift
  intro hn
  apply Triple.lift
  intro hpoll
  rw [hready] at hpoll
  by_cases hr : isReady = true
  · have hD := hpoll.mp hr
    exact Triple.ite_pos hr (Triple.done _ fun c hc => hc.mono (by omega))
  · have hD : ¬ D ≤ n := fun h => hr (hpoll.mpr h)
    refine Triple.ite_neg hr ?_
    refine Triple.conseq (round_spec (n + 1) refreshEnabled prev) (fun _ h => h) fun r c hc => ?_
    obtain ⟨⟨transitioned, rfl⟩, hc⟩ := hc
    exact ⟨D - (n + 1), by omega, n + 1, by omega, hc⟩

end Polls

/-! ## The payload -/

section Payload
variable {words : List (Nat → DfiPhase)} {withRefresh : Bool} {atRefresh : Nat} {payload : List Nat}

/-- The payload fits into the memory, and its run stays off the last address. -/
structure Fits (p : PayloadExecutor.Params) (payload : List Nat) : Prop where
  phase : p.rdphase < 2 ^ DfiExecutor.phaseBits p.nphases
  length : payload.length ≤ p.depth
  runs : ∀ mem, Loads mem payload → ∃ tr, Executes p.geometry mem tr ∧ ∀ v ∈ tr, v.pc < p.depth - 1

/-- A payload that ends with a STOP fits if it leaves the last word of the memory free. -/
theorem fits_of_program {is : List Encoder.I} (hphase : p.rdphase < 2 ^ DfiExecutor.phaseBits p.nphases)
    (hlen : (Encoder.encodePayload (is ++ [Encoder.I.noop 0])).length < p.depth)
    (hruns : ∀ mem, Loads mem (Encoder.encodePayload (is ++ [Encoder.I.noop 0])) → ∃ tr, Executes p.geometry mem tr) :
    Fits p (Encoder.encodePayload (is ++ [Encoder.I.noop 0])) := by
  refine ⟨hphase, Nat.le_of_lt hlen, fun mem hmem => ?_⟩
  rw [Encoder.encodePayload, List.length_map, List.length_append, List.length_singleton] at hlen
  have hcode := hmem.codeAt p.geometry
  rw [List.map_append] at hcode
  have hstop := hcode.right.head
  rw [List.length_map, Nat.zero_add] at hstop
  obtain ⟨tr, fuel, hrun⟩ := hruns mem hmem
  refine ⟨tr, ⟨fuel, hrun⟩, fun v hv => ?_⟩
  have hle := Interp.pc_le_of_stop (by rw [hstop]; exact stop_noop p.geometry rfl) (Nat.zero_le _) hrun v hv
  omega

/-- The DFI words carry a run of the payload. -/
def Executed (p : PayloadExecutor.Params) (payload : List Nat) (words : List (Nat → DfiPhase)) : Prop :=
  ∃ mem tr, Loads mem payload ∧ Executes p.geometry mem tr ∧ Carries p tr words

/-- **The start of a payload.** From the start to the end of the last poll the payload is executed, once. -/
theorem startPayload_spec (hfits : Fits p payload) (hat : atRefresh < 2 ^ 32)
    (hfair : withRefresh = true → ∀ t, ∃ u, t ≤ u ∧ DfiSwitch.refresh ddr5 (env u) = true) (refreshEnabled : Bool) :
    Triple (device p ddr5) env wait
      (fun c => Free words withRefresh atRefresh c.device ∧ Loads c.device.memory payload)
      (fun g => (ExecutorScript.write .start).bind fun _ => ExecutorScript.waitReady g refreshEnabled) fun _ c =>
      ∃ L, Executed p payload L ∧ Free (words ++ L) withRefresh atRefresh c.device := by
  apply Triple.access
  intro c hc
  obtain ⟨hlater, hmemory⟩ := hc.1.later p ddr5 env (wait c.time)
  apply Triple.of_forall
  intro c₀ hc₀
  have hreq : Requested words c₀.device := by
    rw [hc₀]
    exact hlater.idle.start _
  have hloads : Loads c₀.device.memory payload := by
    have hmem : c₀.device.memory = c.device.memory := by
      rw [hc₀]
      exact hmemory
    rw [hmem]
    exact hc.2
  have hrefresh : c₀.device.withRefresh = withRefresh := by
    rw [hc₀]
    exact hlater.withRefresh
  have hatRefresh : c₀.device.atRefresh = atRefresh := by
    rw [hc₀]
    exact hlater.atRefresh
  obtain ⟨tr, hrun, hvisits⟩ := hfits.runs _ hloads
  obtain ⟨D, L, hcarries, hready, hidle⟩ := hreq.executes env (by rw [hatRefresh]; exact hat)
    (fun h => hfair (hrefresh ▸ h)) ⟨hfits.phase, hrun, hvisits⟩
  refine Triple.conseq (waitReady_spec hready refreshEnabled) (fun _ h => h) fun _ c' hc' => ?_
  obtain ⟨n, hn, hf⟩ := hc'
  obtain ⟨-, hrefresh', hatRefresh'⟩ := @boardAt_settings p ddr5 env c₀ n
  refine ⟨L, ⟨_, tr, hloads, hrun, hcarries⟩, (hidle n hn).of_same hf.device, ?_, ?_⟩
  · exact hf.device.withRefresh.trans (hrefresh'.trans hrefresh)
  · exact hf.device.atRefresh.trans (hatRefresh'.trans hatRefresh)

/-- **A payload on the board.** The script returns; the DFI master has taken the commands of the payload once, and the
executor is free again. -/
theorem executePayload_spec (hfits : Fits p payload) (hat : atRefresh < 2 ^ 32)
    (hfair : withRefresh = true → ∀ t, ∃ u, t ≤ u ∧ DfiSwitch.refresh ddr5 (env u) = true) :
    Triple (device p ddr5) env wait (fun c => Free words withRefresh atRefresh c.device)
      (fun g => executePayload g payload) fun _ c =>
      ∃ L, Executed p payload L ∧ Free (words ++ L) withRefresh atRefresh c.device := by
  have hempty : ∀ c : At Board, Loads c.device.memory [] := fun _ _ hk => absurd hk (Nat.not_lt_zero _)
  have hstore : Triple (device p ddr5) env wait (fun c => Free words withRefresh atRefresh c.device)
      (fun _ => ExecutorScript.memwrite 0 payload) fun _ c =>
      Free words withRefresh atRefresh c.device ∧ Loads c.device.memory payload :=
    Triple.conseq (memwrite_spec payload [] (by simpa using hfits.length)) (fun c hc => ⟨hc, hempty c⟩)
      fun _ _ h => h
  apply hstore.bind
  intro _
  apply (freeRead_spec (a := .readRefresh) trivial).bind
  intro refreshEnabled
  apply Triple.lift
  intro _
  apply freeReady_spec.bind
  intro isReady
  apply Triple.lift
  intro hready
  apply (Triple.check hready).bind
  intro _
  exact startPayload_spec hfits hat hfair _

end Payload

end RowhammerTester.Scripts
