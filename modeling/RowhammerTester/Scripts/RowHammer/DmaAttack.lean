import RowhammerTester.Gateware.RowHammerDma
import RowhammerTester.Scripts.AddressConverter
import RowhammerTester.Scripts.MemTest.Script

/-!
# `RowHammer.attack`

The attack through the DMA attacker: the host enables the module, polls its counter and disables it again.

* `DmaScript` : a script on the registers of the module; `attack` : the script;
* `reset_spec`, `configure_spec` : the module is stopped and set up;
* `Enough`, `waitCount_spec` : the host polls until the counter has reached the read count, never missing it;
* `stop_spec` : the module is disabled, and the counter cleared;
* `attack_hammers` : the reads of a whole attack; `attack_raises` : what is left when the attack cannot be set up.
-/

namespace RowhammerTester.Scripts.RowHammer
open RowhammerTester.Hdl RowhammerTester.Gateware.RowHammerDma

/-! ## The script -/

/-- A script of accesses to the module. -/
abbrev DmaScript := Host Access Nat Stop

namespace DmaScript

def write (a : Access) : DmaScript Unit := .access a fun _ => .done ()

def count : DmaScript Nat := .access .readCount .done

/-- Make sure that the module is in reset state. -/
def reset : DmaScript Unit := do
  write (.writeEnabled 0)
  let _ ← count
  return ()

/-- Configure the module; the addresses are those of two rows. -/
def configure (c : DramAddressConverter) (bank column : Nat) : List Nat → DmaScript Unit
  | [row₁, row₂] => do
    let address₁ ← ofPy (c.encodeDma bank row₁ column)
    let address₂ ← ofPy (c.encodeDma bank row₂ column)
    write (.writeAddress1 address₁)
    write (.writeAddress2 address₂)
    write (.writeEnabled 1)
  | _ => .fail (.raised
      (.assertionError "Use BIST modules/Payload Executor to hammer different number of rows than 2"))

/-- Wait for hammering to finish. -/
def waitCount (rounds readCount : Nat) : DmaScript Unit :=
  Host.loop .outOfRounds (fun _ => do
    let count ← count
    if count ≥ readCount then pure (.inr ()) else pure (.inl ())) rounds ()

/-- The end of `attack`; reading the counter also clears it. -/
def stop : DmaScript Unit := do
  write (.writeEnabled 0)
  let _ ← count
  return ()

end DmaScript

/-- `RowHammer.attack`. -/
def attack (c : DramAddressConverter) (bank column rounds : Nat) (rowTuple : List Nat) (readCount : Nat) :
    DmaScript Unit := do
  DmaScript.reset
  DmaScript.configure c bank column rowTuple
  DmaScript.waitCount rounds readCount
  DmaScript.stop

/-! ## Setting the module up -/

variable {aw : Nat} {env : Nat → Bool} {wait : Nat → Nat}

/-- The configuration after the first access, which disables the module. -/
def disabled (env : Nat → Bool) (wait : Nat → Nat) (c : At (Traffic aw)) : At (Traffic aw) :=
  perform device env (later device env c (wait c.time)) (.writeEnabled 0)

/-- The module is stopped, its counter is 0. -/
structure Cleared (reads : List (BitVec aw)) (d : Traffic aw) : Prop where
  stopped : Stopped reads d
  counter : d.module.counter = 0

section Setup
variable {reads : List (BitVec aw)}

theorem stopped_later {c : At (Traffic aw)} (h : Stopped reads c.device) (n : Nat) :
    Stopped reads (later device env c n).device :=
  later_induction (P := Stopped reads) device env (fun _ ready hd => hd.clock ready fun _ => nofun) h n

theorem cleared_clock {d : Traffic aw} (h : Cleared reads d) (ready : Bool) {a : Option Access}
    (ha : ∀ v, a ≠ some (.writeEnabled v)) : Cleared reads (d.clock ready a) where
  stopped := h.stopped.clock ready ha
  counter := by
    rw [h.stopped.clock_counter, h.counter]
    split <;> rfl

theorem cleared_later {c : At (Traffic aw)} (h : Cleared reads c.device) (n : Nat) :
    Cleared reads (later device env c n).device :=
  later_induction (P := Cleared reads) device env (fun _ ready hd => cleared_clock hd ready fun _ => nofun) h n

/-- Whatever runs before an attack, the first two accesses stop it and clear the counter. -/
theorem clear_spec :
    Triple device env wait (fun c => Stopped reads c.device) (fun _ => DmaScript.count) fun _ c =>
      Cleared reads c.device := by
  apply Triple.access
  intro c hc
  apply Triple.done
  rintro _ rfl
  refine ⟨(stopped_later hc _).clock _ fun _ => nofun, ?_⟩
  exact (stopped_later hc _).clock_counter _ _

theorem reset_spec (c₀ : At (Traffic aw)) :
    Triple device env wait (fun c => c = c₀) (fun _ => DmaScript.reset) fun _ c =>
      Cleared (disabled env wait c₀).device.reads c.device := by
  have hstopped : Stopped (disabled env wait c₀).device.reads (disabled env wait c₀).device := ⟨rfl, rfl⟩
  apply Triple.access
  intro c hc
  rw [hc]
  refine Triple.conseq (clear_spec.bind fun _ => Triple.done () fun _ hc => hc) (fun c' hc' => ?_) fun _ _ h => h
  rw [hc']
  exact hstopped

theorem writeAddress1_spec (v : Nat) :
    Triple device env wait (fun c => Cleared reads c.device) (fun _ => DmaScript.write (.writeAddress1 v)) fun _ c =>
      Cleared reads c.device ∧ c.device.module.address1 = BitVec.ofNat aw v := by
  apply Triple.access
  intro c hc
  apply Triple.done
  intro c' hc'
  rw [hc']
  exact ⟨cleared_clock (cleared_later hc _) _ fun _ => nofun, rfl⟩

theorem writeAddress2_spec (a₁ : BitVec aw) (v : Nat) :
    Triple device env wait (fun c => Cleared reads c.device ∧ c.device.module.address1 = a₁)
      (fun _ => DmaScript.write (.writeAddress2 v)) fun _ c =>
      Cleared reads c.device ∧ c.device.module.address1 = a₁ ∧ c.device.module.address2 = BitVec.ofNat aw v := by
  apply Triple.access
  intro c hc
  apply Triple.done
  intro c' hc'
  rw [hc']
  refine ⟨cleared_clock (cleared_later hc.1 _) _ fun _ => nofun, ?_, rfl⟩
  exact later_induction (P := fun d => d.module.address1 = a₁) device env (fun _ _ h => h) hc.2 (wait c.time)

theorem enable_spec (a₁ a₂ : BitVec aw) :
    Triple device env wait
      (fun c => Cleared reads c.device ∧ c.device.module.address1 = a₁ ∧ c.device.module.address2 = a₂)
      (fun _ => DmaScript.write (.writeEnabled 1)) fun _ c => Hammering a₁ a₂ reads 0 c.device := by
  apply Triple.access
  intro c hc
  apply Triple.done
  intro c' hc'
  rw [hc']
  have hcleared : Cleared reads (later device env c (wait c.time)).device := cleared_later hc.1 _
  have haddress := later_induction (P := fun d => d.module.address1 = a₁ ∧ d.module.address2 = a₂) device env
    (fun _ _ h => h) hc.2 (wait c.time)
  refine ⟨rfl, haddress.1, haddress.2, (hcleared.stopped.clock_counter _ _).trans hcleared.counter, ?_⟩
  rw [show alternating a₁ a₂ 0 = [] from rfl, List.append_nil]
  exact hcleared.stopped.clock_reads _ _

variable {c : DramAddressConverter} {bank column row₁ row₂ : Nat}

/-- The address of a row, as the module holds it. -/
def dmaAddress (aw : Nat) (c : DramAddressConverter) (bank column row : Nat) : BitVec aw :=
  BitVec.ofNat aw (c.flat bank row column / 2 ^ c.addressAlign)

/-- Two rows of the DRAM have addresses. -/
theorem configure_eq (h₁ : c.InRange bank row₁ column) (h₂ : c.InRange bank row₂ column) :
    DmaScript.configure c bank column [row₁, row₂] =
      (DmaScript.write (.writeAddress1 (c.flat bank row₁ column / 2 ^ c.addressAlign))).bind fun _ =>
      (DmaScript.write (.writeAddress2 (c.flat bank row₂ column / 2 ^ c.addressAlign))).bind fun _ =>
      DmaScript.write (.writeEnabled 1) := by
  unfold DmaScript.configure
  dsimp only
  rw [DramAddressConverter.encodeDma_eq h₁, DramAddressConverter.encodeDma_eq h₂]
  rfl

/-- They are configured, and the module is enabled. -/
theorem configure_spec (h₁ : c.InRange bank row₁ column) (h₂ : c.InRange bank row₂ column) :
    Triple device env wait (fun c => Cleared reads c.device)
      (fun _ => DmaScript.configure c bank column [row₁, row₂]) fun _ c' =>
      Hammering (dmaAddress aw c bank column row₁) (dmaAddress aw c bank column row₂) reads 0 c'.device := by
  rw [configure_eq h₁ h₂]
  apply (writeAddress1_spec _).bind
  intro _
  apply (writeAddress2_spec _ _).bind
  intro _
  exact enable_spec _ _

end Setup

/-! ## Polling -/

section Polling
variable {a₁ a₂ : BitVec aw} {reads : List (BitVec aw)} {W readCount : Nat}

/-- The host polls: the read count was not reached at the last poll, and is reached from the `x`-th edge on. -/
def Enough (env : Nat → Bool) (a₁ a₂ : BitVec aw) (reads : List (BitVec aw)) (readCount x : Nat) (c : At (Traffic aw)) :
    Prop :=
  ∃ n, n ≤ readCount ∧ Hammering a₁ a₂ reads n c.device ∧ ∀ m, x ≤ m → readCount ≤ n + accepted env c.time m

theorem counter_toNat {n : Nat} {d : Traffic aw} (h : Hammering a₁ a₂ reads n d) (hn : n < 2 ^ 32) :
    d.answer .readCount = n := by
  rw [Traffic.answer, h.counter, BitVec.toNat_ofNat, Nat.mod_eq_of_lt hn]

/-- An edge at which the host reads the counter is one like any other. -/
theorem poll_later {n : Nat} {c : At (Traffic aw)} (h : Hammering a₁ a₂ reads n c.device) (m : Nat) :
    Hammering a₁ a₂ reads (n + accepted env c.time (m + 1))
      (perform device env (later device env c m) .readCount).device := by
  rw [accepted_succ, ← Nat.add_assoc]
  exact (h.later m).clock _ (Or.inr rfl)

/-- The loop ends, at most one poll after the read count was reached. The counter does not wrap around between two
polls, since the next comes before `2 ^ 32 - readCount` more reads. -/
theorem waitCount_spec (hwait : ∀ t, wait t ≤ W) (hcount : readCount + W < 2 ^ 32) (x : Nat) :
    Triple device env wait (Enough env a₁ a₂ reads readCount x) (fun g => DmaScript.waitCount g readCount) fun _ c =>
      ∃ n, readCount ≤ n ∧ n ≤ readCount + W + 1 ∧ Hammering a₁ a₂ reads n c.device := by
  unfold DmaScript.waitCount
  apply Triple.loop (fun x _ => Enough env a₁ a₂ reads readCount x)
  intro x _
  apply Triple.access
  intro c hc
  obtain ⟨n, hn, hammer, henough⟩ := hc
  have hpolled : (later device env c (wait c.time)).device.answer .readCount = n + accepted env c.time (wait c.time) := by
    apply counter_toNat (hammer.later _)
    have := accepted_le env c.time (wait c.time)
    have := hwait c.time
    omega
  have hnext : Hammering a₁ a₂ reads (n + accepted env c.time (wait c.time + 1))
      (perform device env (later device env c (wait c.time)) .readCount).device := poll_later hammer _
  have hedge : accepted env c.time (wait c.time + 1) ≤ accepted env c.time (wait c.time) + 1 := by
    rw [accepted_succ]
    have := Bool.toNat_le (env (c.time + wait c.time))
    omega
  by_cases hreached : readCount ≤ n + accepted env c.time (wait c.time)
  · refine Triple.ite_pos ?_ (Triple.done _ fun c' hc' => ?_)
    · exact le_of_le_of_eq hreached hpolled.symm
    · have hmore := accepted_le env c.time (wait c.time + 1)
      have hmono : accepted env c.time (wait c.time) ≤ accepted env c.time (wait c.time + 1) := by
        rw [accepted_succ]
        exact Nat.le_add_right _ _
      have := hwait c.time
      rw [hc']
      exact ⟨_, by omega, by omega, hnext⟩
  · refine Triple.ite_neg ?_ (Triple.done _ fun c' hc' => ?_)
    · exact fun h => hreached (le_of_le_of_eq h hpolled)
    · have hx : wait c.time < x := Nat.lt_of_not_le fun h => hreached (henough _ h)
      refine ⟨x - (wait c.time + 1), by omega, ?_⟩
      rw [hc']
      refine ⟨_, by omega, hnext, fun m hm => ?_⟩
      have htotal := henough (wait c.time + 1 + m) (by omega)
      rwa [accepted_add, ← Nat.add_assoc] at htotal

/-- Disabling the module ends the reads; the counter is cleared after that. -/
theorem stop_spec {n : Nat} (hwait : ∀ t, wait t ≤ W) :
    Triple device env wait (fun c => Hammering a₁ a₂ reads n c.device) (fun _ => DmaScript.stop) fun _ c =>
      ∃ m, n ≤ m ∧ m ≤ n + W + 1 ∧ Cleared (reads ++ alternating a₁ a₂ m) c.device := by
  apply Triple.access
  intro c hc
  have hlater : Hammering a₁ a₂ reads (n + accepted env c.time (wait c.time))
    (later device env c (wait c.time)).device := hc.later _
  have hstopped := hlater.clock_reads (env (c.time + wait c.time)) (some (.writeEnabled 0))
  refine Triple.conseq (clear_spec.bind fun _ => Triple.done () fun _ h => h) (fun c' hc' => ?_) fun _ c' hc' =>
    ⟨n + accepted env c.time (wait c.time) + (env (c.time + wait c.time)).toNat, ?_, ?_, hc'⟩
  · rw [hc']
    exact ⟨rfl, hstopped⟩
  · rw [Nat.add_assoc]
    exact Nat.le_add_right _ _
  · have hmore := accepted_le env c.time (wait c.time)
    have hlast := Bool.toNat_le (env (c.time + wait c.time))
    have := hwait c.time
    omega

end Polling

/-! ## The attack -/

section Attack
variable {c : DramAddressConverter} {bank column : Nat}

/-- The row of a word that the DMA has read. -/
def rowOf (c : DramAddressConverter) (a : BitVec aw) : Int := (c.decodeDma a.toNat).2.1

theorem flat_div_lt {row : Nat} (h : c.InRange bank row column)
    (hport : c.rowbits + c.bankbits + c.colbits - c.addressAlign ≤ aw) :
    c.flat bank row column / 2 ^ c.addressAlign < 2 ^ aw := by
  rw [Nat.div_lt_iff_lt_mul (Nat.two_pow_pos _), ← pow_add]
  exact lt_of_lt_of_le (DramAddressConverter.flat_lt h) (Nat.pow_le_pow_right (by decide) (by omega))

/-- The DMA address of a row is in that row. -/
theorem rowOf_dmaAddress {row : Nat} (h : c.InRange bank row column) (halign : c.addressAlign ≤ c.colbits)
    (hport : c.rowbits + c.bankbits + c.colbits - c.addressAlign ≤ aw) :
    rowOf c (dmaAddress aw c bank column row) = row := by
  have hclear : c.InRange bank row (column / 2 ^ c.addressAlign * 2 ^ c.addressAlign) :=
    ⟨h.1, h.2.1, lt_of_le_of_lt (Nat.div_mul_le_self _ _) h.2.2⟩
  rw [rowOf, dmaAddress, BitVec.toNat_ofNat, Nat.mod_eq_of_lt (flat_div_lt h hport),
    DramAddressConverter.decodeDma_eq, DramAddressConverter.flat_div_mul halign, DramAddressConverter.decode_flat hclear]

/-- **An attack through the DMA.** Whatever the module did before, and however the DMA stalls, the attack returns; after
it was reset the module has read the one row and the other in turns, at least `read_count` times and at most as often as
two polls allow; it is left disabled with its counter at 0. -/
theorem attack_hammers (c : DramAddressConverter) (bank column readCount W : Nat) (r₁ r₂ : Nat)
    (h₁ : c.InRange bank r₁ column) (h₂ : c.InRange bank r₂ column) (halign : c.addressAlign ≤ c.colbits)
    (hport : c.rowbits + c.bankbits + c.colbits - c.addressAlign ≤ aw) (env : Nat → Bool) (wait : Nat → Nat)
    (hfair : ∀ t, ∃ u, t ≤ u ∧ env u = true) (hwait : ∀ t, wait t ≤ W) (hcount : readCount + W < 2 ^ 32)
    (c₀ : At (Traffic aw)) :
    ∃ f c₁ n, (∀ g, f ≤ g → runHost device env wait (attack c bank column g [r₁, r₂] readCount) c₀ = (.ok (), c₁)) ∧
      readCount ≤ n ∧ n ≤ readCount + 2 * (W + 1) ∧
      (∃ reads, c₁.device.reads = (disabled env wait c₀).device.reads ++ reads ∧
        reads.map (rowOf c) = alternating (r₁ : Int) r₂ n) ∧
      c₁.device.module.enabled = false ∧ c₁.device.module.counter = 0 := by
  have hscript : Triple device env wait (fun c => c = c₀) (fun g => attack c bank column g [r₁, r₂] readCount)
      fun _ c₁ => ∃ n, (readCount ≤ n ∧ n ≤ readCount + W + 1) ∧ ∃ m, n ≤ m ∧ m ≤ n + W + 1 ∧
        Cleared ((disabled env wait c₀).device.reads ++
          alternating (dmaAddress aw c bank column r₁) (dmaAddress aw c bank column r₂) m) c₁.device := by
    apply (reset_spec c₀).bind
    intro _
    apply (configure_spec h₁ h₂).bind
    intro _
    apply Triple.of_forall
    intro c' hc'
    obtain ⟨x, hx⟩ := exists_accepted hfair c'.time readCount
    have henough : Enough env (dmaAddress aw c bank column r₁) (dmaAddress aw c bank column r₂)
        (disabled env wait c₀).device.reads readCount x c' :=
      ⟨0, Nat.zero_le _, hc', fun m hm => by simpa only [Nat.zero_add] using hx m hm⟩
    apply (Triple.at_of henough (waitCount_spec hwait hcount x)).bind
    intro _
    apply Triple.ex
    intro n
    apply Triple.of_forall
    intro c'' hc''
    apply (Triple.at_of hc''.2.2 (stop_spec hwait)).conseq
    · exact fun _ h => h
    · exact fun _ _ h => ⟨n, ⟨hc''.1, hc''.2.1⟩, h⟩
  obtain ⟨f, _, c₁, hrun, n, hn, m, hnm, hmn, hcleared⟩ := hscript c₀ rfl
  refine ⟨f, c₁, m, hrun, by omega, by omega, ⟨_, hcleared.stopped.reads, ?_⟩, hcleared.stopped.enabled,
    hcleared.counter⟩
  rw [map_alternating, rowOf_dmaAddress h₁ halign hport, rowOf_dmaAddress h₂ halign hport]

/-- A DDR3 module, whose DMA is ready in every other cycle, found enabled with a counter of 17. -/
theorem attack_hammers_ddr3 :
    ∃ f c₁ n, (∀ g, f ≤ g → runHost device (fun t => t % 2 == 0) (fun _ => 3)
        (attack DramAddressConverter.ddr3Converter 1 512 g [5, 7] 1000000)
        ⟨0, (⟨⟨true, 3, 4, 17⟩, []⟩ : Traffic 24)⟩ = (.ok (), c₁)) ∧
      1000000 ≤ n ∧ n ≤ 1000000 + 2 * (3 + 1) ∧
      (∃ reads, c₁.device.reads = (disabled (fun t => t % 2 == 0) (fun _ => 3)
          ⟨0, (⟨⟨true, 3, 4, 17⟩, []⟩ : Traffic 24)⟩).device.reads ++ reads ∧
        reads.map (rowOf DramAddressConverter.ddr3Converter) = alternating ((5 : Nat) : Int) (7 : Nat) n) ∧
      c₁.device.module.enabled = false ∧ c₁.device.module.counter = 0 :=
  attack_hammers DramAddressConverter.ddr3Converter 1 512 1000000 3 5 7 ⟨by decide, by decide, by decide⟩
    ⟨by decide, by decide, by decide⟩ (by decide) (by decide) _ _
    (fun t => ⟨2 * t, by omega, by rw [Nat.mul_mod_right]; rfl⟩) (fun _ => Nat.le_refl 3) (by decide) _

theorem encodeDma_of_not {row : Nat} (h : ¬ c.InRange bank row column) : ∃ e, c.encodeDma bank row column = .error e := by
  unfold DramAddressConverter.encodeDma
  cases hencode : c.encode bank row column with
  | ok n => exact absurd (DramAddressConverter.inRange_of_encode hencode) h
  | error e => exact ⟨e, rfl⟩

/-- Without two rows of the DRAM the module is not set up. -/
theorem configure_fails {rowTuple : List Nat}
    (hbad : rowTuple.length ≠ 2 ∨ ∃ row ∈ rowTuple, ¬ c.InRange bank row column) :
    ∃ e, DmaScript.configure c bank column rowTuple = .fail (.raised e) := by
  match rowTuple with
  | [] => exact ⟨_, rfl⟩
  | [_] => exact ⟨_, rfl⟩
  | _ :: _ :: _ :: _ => exact ⟨_, rfl⟩
  | [row₁, row₂] =>
    unfold DmaScript.configure
    dsimp only
    obtain hlen | ⟨row, hrow, hout⟩ := hbad
    · exact absurd rfl hlen
    by_cases h₁ : c.InRange bank row₁ column
    · have h₂ : ¬ c.InRange bank row₂ column := by
        intro h₂
        obtain rfl | rfl := List.mem_pair.mp hrow
        · exact hout h₁
        · exact hout h₂
      obtain ⟨e, he⟩ := encodeDma_of_not h₂
      rw [DramAddressConverter.encodeDma_eq h₁, he]
      exact ⟨e, rfl⟩
    · obtain ⟨e, he⟩ := encodeDma_of_not h₁
      rw [he]
      exact ⟨e, rfl⟩

/-- An attack that cannot be set up raises; nothing is read after the module was reset. -/
theorem attack_raises {rowTuple : List Nat} (readCount : Nat)
    (hbad : rowTuple.length ≠ 2 ∨ ∃ row ∈ rowTuple, ¬ c.InRange bank row column) (c₀ : At (Traffic aw)) :
    ∃ e c₁, (∀ g, runHost device env wait (attack c bank column g rowTuple readCount) c₀ = (.error (.raised e), c₁)) ∧
      Cleared (disabled env wait c₀).device.reads c₁.device := by
  obtain ⟨e, he⟩ := configure_fails hbad
  have hreset : Triple device env wait (fun c => c = c₀) (fun _ => DmaScript.reset) fun _ c =>
    Cleared (disabled env wait c₀).device.reads c.device := reset_spec c₀
  obtain ⟨f, _, c₁, hrun, hcleared⟩ := hreset c₀ rfl
  refine ⟨e, c₁, fun g => ?_, hcleared⟩
  unfold attack
  refine (runHost_bind device env wait (hrun f (Nat.le_refl f))).trans ?_
  rw [he]
  rfl

end Attack

end RowhammerTester.Scripts.RowHammer
