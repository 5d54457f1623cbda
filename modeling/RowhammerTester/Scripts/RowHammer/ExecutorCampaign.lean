import RowhammerTester.Scripts.RowHammer.Campaign
import RowhammerTester.Scripts.RowHammer.ExecutorAttack
import RowhammerTester.Scripts.Soc

/-!
# A campaign through the payload executor

`HwRowHammer.run` with `--payload-executor`, beside the whole SoC: the BIST modules fill and verify the memory, and
between the two verifications the executor hammers it.

* `onAttack`, `hwRunPayloads` : the script;
* `attackAll_ok` : what it does when there is a payload for every row tuple; `refreshesAfter_attackAll` : refreshes are
  switched on again;
* `Waiting` : the modules are idle with the inverters of the campaign; `hwPrepare_soc`, `attackAll_soc`, `hwVerify_soc` :
  the three parts of the script from one to the next;
* `executorCampaign` : the whole of it.
-/

namespace RowhammerTester.Scripts.RowHammer
open RowhammerTester.Hdl RowhammerTester.Firmware RowhammerTester.Playbook RowhammerTester.Gateware
  RowhammerTester.Gateware.Bist RowHammerSoC

/-! ## The script -/

/-- The attributes of the object that the checks and the attacks read. -/
structure HwRowHammer extends RowHammer, Attacker where
  bankbits_eq : bankbits = settings.bankbits

/-- The events of an attack, and then its exception. -/
def onAttack {α : Type} (rounds : Nat) (x : Script α) : SocScript α := do
  onExecutor (playAll rounds (events x))
  ofPy (x.run.result ())

/-- `HwRowHammer.run` with the payload executor; it returns nothing if the memory is not found as it was filled. -/
def hwRunPayloads (o : HwRowHammer) (mainRamBase : Int) (w rounds size pattern readCount : Nat) (verifyInitial : Bool)
    (rowPairs : List (List Nat)) (cache : Cache) : SocScript (Option (Bool × RowErrors)) := do
  ofPy (Py.check (rowPairs.length ≠ 0) (.assertionError "No pairs to hammer"))
  let (ok, cache) ← onBist (hwPrepare o.toRowHammer mainRamBase w rounds size pattern verifyInitial cache)
  if ok = true then do
    onAttack rounds (attackAll o.toAttacker (hwAttackTuple o.toAttacker readCount) rowPairs)
    let out ← onBist (hwVerify o.toRowHammer mainRamBase w rounds size pattern cache)
    return some out
  else
    return none

/-! ## The attacks -/

section Attacks
variable {α β : Type} {h : Attacker} {readCount : Nat} {rowPairs payloads : List (List Nat)}

theorem result_bind_of_ok {x : Script α} {f : α → Script β} {a : α} (hx : x.run.result () = .ok a) :
    (x >>= f).run.result () = (f a).run.result () := by
  rw [ExceptT.run_bind, Traced.result_bind, hx]

theorem events_bind_of_ok {x : Script α} {f : α → Script β} {a : α} (hx : x.run.result () = .ok a) :
    events (x >>= f) = events x ++ events (f a) := by
  rw [events_bind, hx]

/-- A payload for every row tuple, in which each row is activated its share of `read_count`. -/
def Generates (h : Attacker) (readCount : Nat) (rowPairs payloads : List (List Nat)) : Prop :=
  List.Forall₂ (fun t payload => t ≠ [] ∧
    generatePayloadFromRowList (payloadArgs h ((readCount + t.length - 1) / t.length) t) = .ok payload) rowPairs payloads

variable (hexec : h.payloadExecutor = true)
include hexec

theorem hwAttackTuple_ok {t payload : List Nat} (hne : t ≠ [])
    (hgen : generatePayloadFromRowList (payloadArgs h ((readCount + t.length - 1) / t.length) t) = .ok payload) :
    events (hwAttackTuple h readCount t) = [.execute payload] ∧
      (hwAttackTuple h readCount t).run.result () = .ok true := by
  unfold hwAttackTuple payloadExecutorAttack
  rw [if_pos hexec, if_neg (mt List.length_eq_zero_iff.mp hne), hgen]
  exact ⟨rfl, rfl⟩

theorem forTuples_ok (hgen : Generates h readCount rowPairs payloads) :
    events (forTuples (hwAttackTuple h readCount) rowPairs) = payloads.map .execute ∧
      (forTuples (hwAttackTuple h readCount) rowPairs).run.result () = .ok true := by
  induction hgen with
  | nil => exact ⟨rfl, rfl⟩
  | cons hpayload _ ih =>
    obtain ⟨hevents, hresult⟩ := hwAttackTuple_ok hexec hpayload.1 hpayload.2
    rw [forTuples, events_bind_of_ok hresult, result_bind_of_ok hresult, hevents]
    exact ⟨congrArg _ ih.1, ih.2⟩

variable (hattack : h.noAttackTime = false)
include hattack

theorem attackAll_ok (hgen : Generates h readCount rowPairs payloads) :
    events (attackAll h (hwAttackTuple h readCount) rowPairs) =
        events (setRefresh h false) ++ (payloads.map .execute ++ events (setRefresh h true)) ∧
      (attackAll h (hwAttackTuple h readCount) rowPairs).run.result () = .ok () := by
  have hset : ∀ enabled, (setRefresh h enabled).run.result () = .ok () := by
    intro enabled
    unfold setRefresh
    split <;> rfl
  have hattacks : attacks h (hwAttackTuple h readCount) rowPairs = forTuples (hwAttackTuple h readCount) rowPairs :=
    if_neg (ne_true_of_eq_false hattack)
  obtain ⟨hevents, hresult⟩ := forTuples_ok hexec hgen
  rw [attackAll, events_bind_of_ok (hset false), result_bind_of_ok (hset false), hattacks, events_bind_of_ok hresult,
    result_bind_of_ok hresult, hevents]
  exact ⟨rfl, hset true⟩

omit hexec hattack in
theorem refreshesAfter_execute (withRefresh : Bool) (payloads : List (List Nat)) (es : List Event) :
    refreshesAfter withRefresh (payloads.map .execute ++ es) = refreshesAfter withRefresh es := by
  induction payloads with
  | nil => rfl
  | cons payload payloads ih => exact ih

/-- Refreshes that were switched off are on again. -/
theorem refreshesAfter_attackAll (hgen : Generates h readCount rowPairs payloads) (withRefresh : Bool) :
    refreshesAfter withRefresh (events (attackAll h (hwAttackTuple h readCount) rowPairs)) =
      (withRefresh || h.noRefresh) := by
  rw [(attackAll_ok hexec hattack hgen).1]
  cases hn : h.noRefresh with
  | true =>
    have hset : ∀ enabled, setRefresh h enabled = emit (.setRefresh enabled) := fun _ => if_pos hn
    rw [hset, hset, Bool.or_true]
    exact refreshesAfter_execute false payloads _
  | false =>
    have hset : ∀ enabled, setRefresh h enabled = return () := fun _ => if_neg (ne_true_of_eq_false hn)
    rw [hset, hset, Bool.or_false]
    exact refreshesAfter_execute withRefresh payloads _

/-- The payloads are executed in order. -/
theorem executed_attackAll_ok (hgen : Generates h readCount rowPairs payloads) :
    (events (attackAll h (hwAttackTuple h readCount) rowPairs)).filterMap Event.payload? = payloads := by
  have hset : ∀ enabled, (events (setRefresh h enabled)).filterMap Event.payload? = [] := executed_setRefresh
  rw [(attackAll_ok hexec hattack hgen).1, List.filterMap_append, List.filterMap_append, hset, hset, List.nil_append,
    List.append_nil, List.filterMap_map]
  exact List.filterMap_some

end Attacks

/-! ## More rounds -/

section Extends
variable {m n : Nat} (hle : m ≤ n)
include hle

theorem extends_playAll (es : List Event) : Host.Extends .outOfRounds (playAll m es) (playAll n es) := by
  induction es with
  | nil => exact Host.Extends.refl _
  | cons e es ih =>
    apply Host.Extends.bind _ fun _ => ih
    cases e with
    | execute payload => exact extends_executePayload hle payload
    | setRefresh enabled => exact Host.Extends.refl _
    | attack rowTuple readCount => exact Host.Extends.refl _
    | sleep => exact Host.Extends.refl _

variable (r : RowHammer) (mainRamBase : Int) (w size pattern : Nat)

theorem extends_hwCheckErrors (cache : Cache) : Host.Extends .outOfRounds
    (hwCheckErrors r mainRamBase w m size pattern cache) (hwCheckErrors r mainRamBase w n size pattern cache) :=
  (extends_hwMemtest hle w 0x0 size [pattern]).bind fun _ => Host.Extends.refl _

theorem extends_hwPrepare (verifyInitial : Bool) (cache : Cache) : Host.Extends .outOfRounds
    (hwPrepare r mainRamBase w m size pattern verifyInitial cache)
    (hwPrepare r mainRamBase w n size pattern verifyInitial cache) := by
  refine (extends_hwMemset hle w 0x0 size [pattern]).bind fun _ => ?_
  cases verifyInitial with
  | true => exact (extends_hwCheckErrors hle r mainRamBase w size pattern cache).bind fun _ => Host.Extends.refl _
  | false => exact Host.Extends.refl _

theorem extends_hwVerify (cache : Cache) : Host.Extends .outOfRounds
    (hwVerify r mainRamBase w m size pattern cache) (hwVerify r mainRamBase w n size pattern cache) :=
  (extends_hwCheckErrors hle r mainRamBase w size pattern cache).bind fun _ => Host.Extends.refl _

end Extends

/-! ## The parts on the SoC -/

section Soc
variable {aw w k rb : Nat} {F : Fifo (BitVec aw)} {G : Fifo (Reader.ErrorRecord w)} {p : PayloadExecutor.Params}
  {ddr5 : Bool} {env : Nat → Input aw w} {wait : Nat → Nat} {cs₀ : Csrs w k rb} {mem : BitVec aw → BitVec w}
  {words : List (Nat → DfiPhase)} {withRefresh : Bool} {atRefresh : Nat}

/-- The modules are idle on the memory `mem`, with the inverters of `cs₀`, and the executor does not drive the DRAM. -/
def Waiting (cs₀ : Csrs w k rb) (mem : BitVec aw → BitVec w) (words : List (Nat → DfiPhase)) (withRefresh : Bool)
    (atRefresh : Nat) (c : At (RowHammerSoC F G k rb)) : Prop :=
  Undriven words withRefresh atRefresh c.device ∧ Ready cs₀ mem (At.view bist c)

variable {r : RowHammer} {shift : Int} {size : Nat} {cache : Cache}

theorem hwPrepare_soc (hwait : ∀ t, 7 ≤ wait t) (hlag : ∀ q, G.lag q ≤ 3) (hfair : FairStalls fun t => (env t).stalls)
    (hcovers : Covers aw w size) (hboard : OnBoard r w shift) (hc : Reached r.settings r.converter r.bank cache)
    (hwriter : cs₀.writer.modulo = false) (hreader : cs₀.reader.modulo = false)
    (hsame : ∀ a : BitVec aw, cs₀.writer.inverted a = cs₀.reader.inverted a) (pattern : Nat) (verifyInitial : Bool) :
    Triple (soc (F := F) (G := G) p ddr5) env wait
      (fun c => Undriven words withRefresh atRefresh c.device ∧ Rest cs₀ mem (At.view bist c))
      (fun g => onBist (hwPrepare r 0x40000000 w g size pattern verifyInitial cache)) fun out c =>
      (out.1 = true ∧ Reached r.settings r.converter r.bank out.2) ∧
        Waiting cs₀ (filled cs₀.reader 0 (size / (w / 8)) pattern mem) words withRefresh atRefresh c := by
  have hprepare : Triple board (fun t => (env t).stalls) wait (Rest (F := F) (G := G) cs₀ mem) _ _ :=
    hwPrepare_spec hwait hlag hfair hcovers hboard hc hwriter hreader hsame pattern verifyInitial
  have htriple := (bistPart p ddr5 env words withRefresh atRefresh).triple wait
    (fun _ _ hle => extends_hwPrepare hle r 0x40000000 w size pattern verifyInitial cache) hprepare
  apply htriple.conseq (fun _ hc => hc)
  intro out c hc
  obtain ⟨hundriven, hout, hready⟩ := hc
  exact ⟨hout, hundriven, hready⟩

theorem hwVerify_soc (hwait : ∀ t, 7 ≤ wait t) (hlag : ∀ q, G.lag q ≤ 3) (hfair : FairStalls fun t => (env t).stalls)
    (hcovers : Covers aw w size) (hboard : OnBoard r w shift) (hc : Reached r.settings r.converter r.bank cache)
    (pattern : Nat) :
    Triple (soc p ddr5) env wait (Waiting (F := F) (G := G) cs₀ mem words withRefresh atRefresh)
      (fun g => onBist (hwVerify r 0x40000000 w g size pattern cache)) fun out c =>
      ((out.1 = true ↔ changedWords cs₀.reader 0 (size / (w / 8)) pattern mem ≠ []) ∧
        out.2 = sorted r shift (changedWords cs₀.reader 0 (size / (w / 8)) pattern mem)) ∧
          Waiting cs₀ mem words withRefresh atRefresh c := by
  have hverify : Triple board (fun t => (env t).stalls) wait (Ready (F := F) (G := G) cs₀ mem) _ _ :=
    hwVerify_spec hwait hlag hfair hcovers hboard hc pattern
  have htriple := (bistPart p ddr5 env words withRefresh atRefresh).triple wait
    (fun _ _ hle => extends_hwVerify hle r 0x40000000 w size pattern cache) hverify
  apply htriple.conseq (fun _ hc => hc)
  intro out c hc
  obtain ⟨hundriven, hout, hready⟩ := hc
  exact ⟨hout, hundriven, hready⟩

/-- The attacks, with a payload for every row tuple. -/
theorem attackAll_soc {h : Attacker} {readCount : Nat} {rowPairs payloads : List (List Nat)}
    (hexec : h.payloadExecutor = true) (hattack : h.noAttackTime = false)
    (hgen : Generates h readCount rowPairs payloads) (hfits : ∀ payload ∈ payloads, Fits p payload)
    (hat : atRefresh < 2 ^ 32)
    (hrefresh : withRefresh = true → ∀ t, ∃ u, t ≤ u ∧ DfiSwitch.refresh ddr5 (env u).controller = true) :
    Triple (soc p ddr5) env wait (Waiting (F := F) (G := G) cs₀ mem words withRefresh atRefresh)
      (fun g => onAttack g (attackAll h (hwAttackTuple h readCount) rowPairs)) fun _ c =>
      ∃ Ls mem', (List.Forall₂ (Executed p) payloads Ls ∧ Disturbed env mem Ls.flatten.length mem') ∧
        Waiting cs₀ mem' (words ++ Ls.flatten) (withRefresh || h.noRefresh) atRefresh c := by
  have hplay : Triple (ExecutorBoard.device p ddr5) (fun t => (env t).controller) wait
      (fun c => Free words withRefresh atRefresh c.device)
      (fun g => playAll g (events (attackAll h (hwAttackTuple h readCount) rowPairs))) _ :=
    playAll_spec id hat _ words (calm_attackAll unswitched_hwAttackTuple hrefresh)
      (by rwa [executed_attackAll_ok hexec hattack hgen])
  rw [executed_attackAll_ok hexec hattack hgen, refreshesAfter_attackAll hexec hattack hgen] at hplay
  unfold onAttack
  rw [(attackAll_ok hexec hattack hgen).2]
  intro c hc
  obtain ⟨hundriven, cs, hsame, hrest⟩ := hc
  have hattacks := (executorPart (F := F) (G := G) p ddr5 env words cs mem).triple wait
    (fun _ _ hle => extends_playAll hle _) hplay
  have hbefore : c.device.executor.words = words ++ [] := hundriven.idle.words.trans (List.append_nil words).symm
  refine hattacks.bind (fun _ => Triple.done () ?_) c
    ⟨⟨[], mem, hbefore, .start, hrest⟩, hundriven.idle, hundriven.withRefresh, hundriven.atRefresh⟩
  intro c' hc'
  obtain ⟨⟨L, mem', hwords, hdisturbed, hresting⟩, Ls, hexecuted, hfree⟩ := hc'
  obtain rfl : Ls.flatten = L := List.append_cancel_left (hfree.idle.words.symm.trans hwords)
  refine ⟨Ls, mem', ⟨hexecuted, hdisturbed⟩, ?_, cs, hsame, hresting⟩
  exact ⟨hfree.idle, hfree.withRefresh, hfree.atRefresh⟩

end Soc

/-! ## The campaign -/

/-- The DRAM sees the rows of every tuple activated in turns, as often as their share of `read_count`. -/
def HammersAll (p : PayloadExecutor.Params) (h : Attacker) (readCount : Nat) (rowPairs : List (List Nat))
    (Ls : List (List (Nat → DfiPhase))) : Prop :=
  List.Forall₂ (fun t L => Hammers p h t (readCount ⌈/⌉ t.length) L) rowPairs Ls

section Payloads
variable {p : PayloadExecutor.Params} {h : Attacker} {readCount : Nat} {rowPairs payloads : List (List Nat)}
  (hb : Board h p.geometry) (hgen : Generates h readCount rowPairs payloads)
include hb hgen

theorem Generates.hammersAll {Ls : List (List (Nat → DfiPhase))} (hexecuted : List.Forall₂ (Executed p) payloads Ls) :
    HammersAll p h readCount rowPairs Ls := by
  induction hgen generalizing Ls with
  | nil =>
    cases hexecuted
    exact .nil
  | cons hpayload _ ih =>
    cases hexecuted with
    | cons hfirst hrest =>
      refine .cons ?_ (ih hrest)
      rw [Nat.ceilDiv_eq_add_pred_div]
      exact (activates_of_ok hb hpayload.2).hammers hfirst

theorem Generates.fits (hphase : p.rdphase < 2 ^ DfiExecutor.phaseBits p.nphases)
    (hlen : ∀ payload ∈ payloads, payload.length < p.depth) : ∀ payload ∈ payloads, Fits p payload := by
  induction hgen with
  | nil => exact List.forall_mem_nil _
  | cons hpayload _ ih =>
    obtain ⟨hfirst, hrest⟩ := List.forall_mem_cons.mp hlen
    exact List.forall_mem_cons.mpr ⟨fits_of_ok hb hphase hpayload.2 hfirst, ih hrest⟩

end Payloads

/-- `sampleObject` with the payload executor, without refreshes. -/
def payloadObject : HwRowHammer where
  toRowHammer := sampleObject
  timings := ⟨5, 3, 40, 10⟩
  bankbits := 1
  nranks := 1
  payloadMemSize := 512
  noRefresh := true
  payloadExecutor := true
  noAttackTime := false
  dataInversion := false
  bankbits_eq := rfl

def payloadParams : PayloadExecutor.Params := { executorParams with geometry := ⟨0, 1, 2, 2, by decide⟩ }

/-- Word 5 is lost while a payload is executed. -/
def losing (t : Nat) : Input 4 32 where
  stalls := sampleStalls t
  controller := refreshing t
  disturb mem := Function.update mem 5 0

end RowhammerTester.Scripts.RowHammer
