import RowhammerTester.Hdl.Bits
import RowhammerTester.Hdl.Machine
import Mathlib.Data.Nat.Count

/-!
# `Scratchpad`

The memory that the data of READ commands is written to. Address, data and enable of the write port are registers, and
the counter advances in the cycle in which the registered enable is seen.

* `step` : one clock edge, with the reset that `ResetInserter` adds;
* `received`, `word` : the word that a cycle delivers; `ordinal` : how many words came before a cycle;
* `run_counter` : the counter runs one cycle behind the words; `run_counter_narrow` : what is left of it when it cannot
  hold `depth - 1`;
* `Captured` : what the scratchpad is for; `captured_iff` : when it happens.
-/

namespace RowhammerTester.Gateware
open RowhammerTester.Hdl

namespace Scratchpad

/-- The read data of one DFI phase. -/
structure Phase where
  rddataValid : Bool
  rddata : Nat
deriving DecidableEq, Repr

/-- What the scratchpad reads in one cycle. -/
structure Input where
  reset : Bool
  phases : List Phase
deriving DecidableEq, Repr

/-- The registers of the scratchpad, of its write port, and the memory. -/
structure State where
  counter : Nat
  overflow : Bool
  /-- `wr_port.adr`. -/
  adr : Nat
  /-- `wr_port.dat_w`. -/
  datW : Nat
  /-- `wr_port.we`. -/
  we : Bool
  mem : Nat → Nat

/-- The width of `counter`. -/
def counterBits (depth : Nat) : Nat := signalMax (depth - 1)

/-- `Cat` of the read data of all phases, each `databits` wide. -/
def word (databits : Nat) (i : Input) : Nat := concat (i.phases.map fun p => (databits, p.rddata))

/-- Some phase has valid read data. -/
def received (i : Input) : Bool := i.phases.any Phase.rddataValid

/-- One clock edge. The memory takes the registered write also when the registers are reset. -/
def step (depth databits : Nat) (s : State) (i : Input) : State :=
  let mem := if s.we then Function.update s.mem s.adr s.datW else s.mem
  if i.reset then
    { counter := 0, overflow := false, adr := 0, datW := 0, we := false, mem := mem }
  else
    { adr := s.counter
      datW := word databits i
      we := received i
      overflow := if s.we ∧ s.counter = depth - 1 then true else s.overflow
      counter :=
        if s.we then
          if s.counter = depth - 1 then 0 else (s.counter + 1) % 2 ^ counterBits depth
        else s.counter
      mem := mem }

/-- The cycles that follow a cycle of reset. -/
def runReset (depth databits : Nat) (s : State) (before : List Phase) (phases : Nat → List Phase) (t : Nat) : State :=
  run (step depth databits) (step depth databits s ⟨true, before⟩) (fun u => ⟨false, phases u⟩) t

/-- A word is received in cycle `t`. -/
def Pulse (phases : Nat → List Phase) (t : Nat) : Prop := received ⟨false, phases t⟩ = true

instance (phases : Nat → List Phase) : DecidablePred (Pulse phases) :=
  fun t => inferInstanceAs (Decidable (received ⟨false, phases t⟩ = true))

/-- The number of words received before cycle `t`: the ordinal of a word received in it. -/
def ordinal (phases : Nat → List Phase) (t : Nat) : Nat := Nat.count (Pulse phases) t

/-- The word received in cycle `t`. -/
def wordAt (databits : Nat) (phases : Nat → List Phase) (t : Nat) : Nat := word databits ⟨false, phases t⟩

/-! ## The registers along a run -/

section Run
variable (depth databits : Nat) (s : State) (before : List Phase) (phases : Nat → List Phase)

theorem runReset_zero : (runReset depth databits s before phases 0).counter = 0 ∧
    (runReset depth databits s before phases 0).overflow = false ∧
    (runReset depth databits s before phases 0).we = false := by
  simp [runReset, step]

theorem runReset_succ (t : Nat) : runReset depth databits s before phases (t + 1) =
    step depth databits (runReset depth databits s before phases t) ⟨false, phases t⟩ := rfl

/-- The write port one cycle later: the word of the cycle, at the value of the counter. -/
theorem runReset_port (t : Nat) :
    ((runReset depth databits s before phases (t + 1)).we = true ↔ Pulse phases t) ∧
      (runReset depth databits s before phases (t + 1)).adr = (runReset depth databits s before phases t).counter ∧
      (runReset depth databits s before phases (t + 1)).datW = wordAt databits phases t := by
  rw [runReset_succ]
  simp [step, Pulse, wordAt]

/-- The memory after two cycles: the word of the first, at the value that the counter had in it. -/
theorem runReset_mem (t : Nat) : (runReset depth databits s before phases (t + 2)).mem =
    if Pulse phases t then
      Function.update (runReset depth databits s before phases (t + 1)).mem
        (runReset depth databits s before phases t).counter (wordAt databits phases t)
    else (runReset depth databits s before phases (t + 1)).mem := by
  obtain ⟨hwe, hadr, hdat⟩ := runReset_port depth databits s before phases t
  rw [runReset_succ _ _ _ _ _ (t + 1)]
  simp only [step, Bool.false_eq_true, if_false]
  rw [hadr, hdat]
  by_cases hp : Pulse phases t
  · rw [if_pos hp, if_pos (hwe.mpr hp)]
  · rw [if_neg hp, if_neg (fun hc => hp (hwe.mp hc))]

/-- The counter after two cycles moves with the word of the first. -/
theorem runReset_counter (t : Nat) : (runReset depth databits s before phases (t + 2)).counter =
    if Pulse phases t then
      if (runReset depth databits s before phases (t + 1)).counter = depth - 1 then 0
      else ((runReset depth databits s before phases (t + 1)).counter + 1) % 2 ^ counterBits depth
    else (runReset depth databits s before phases (t + 1)).counter := by
  obtain ⟨hwe, -, -⟩ := runReset_port depth databits s before phases t
  rw [runReset_succ _ _ _ _ _ (t + 1)]
  simp only [step, Bool.false_eq_true, if_false]
  by_cases hp : Pulse phases t
  · rw [if_pos hp, if_pos (hwe.mpr hp)]
  · rw [if_neg hp, if_neg (fun hc => hp (hwe.mp hc))]

theorem runReset_overflow (t : Nat) : (runReset depth databits s before phases (t + 2)).overflow =
    if Pulse phases t ∧ (runReset depth databits s before phases (t + 1)).counter = depth - 1 then true
    else (runReset depth databits s before phases (t + 1)).overflow := by
  obtain ⟨hwe, -, -⟩ := runReset_port depth databits s before phases t
  rw [runReset_succ _ _ _ _ _ (t + 1)]
  simp only [step, Bool.false_eq_true, if_false, hwe]

theorem runReset_one : (runReset depth databits s before phases 1).counter = 0 ∧
    (runReset depth databits s before phases 1).overflow = false := by
  obtain ⟨h1, h2, h3⟩ := runReset_zero depth databits s before phases
  rw [runReset_succ]
  simp [step, h1, h2, h3]

/-! ## The counter -/

theorem ordinal_succ (t : Nat) : ordinal phases (t + 1) = ordinal phases t + if Pulse phases t then 1 else 0 :=
  Nat.count_succ _ _

theorem ordinal_mono {t u : Nat} (h : t ≤ u) : ordinal phases t ≤ ordinal phases u := Nat.count_monotone _ h

theorem sub_one_le_two_pow_counterBits (depth : Nat) : depth - 1 ≤ 2 ^ counterBits depth := by
  have h := lt_two_pow_bitLength (depth - 1 - 1)
  unfold counterBits signalMax
  omega

/-- The counter cannot hold `depth - 1` exactly when that is a power of two. -/
theorem two_pow_counterBits_eq_iff {depth : Nat} (hd : 2 ≤ depth) :
    2 ^ counterBits depth = depth - 1 ↔ ∃ k, depth - 1 = 2 ^ k := by
  constructor
  · intro h
    exact ⟨_, h.symm⟩
  · rintro ⟨k, hk⟩
    have hpos := Nat.two_pow_pos k
    have hle : counterBits depth ≤ k := bitLength_le_of_lt (by omega)
    have hge := sub_one_le_two_pow_counterBits depth
    have hpow : 2 ^ counterBits depth ≤ 2 ^ k := Nat.pow_le_pow_right (by decide) hle
    omega

theorem succ_mod (n : Nat) {d : Nat} (hd : 0 < d) : (n + 1) % d = if n % d = d - 1 then 0 else n % d + 1 := by
  have hlt := Nat.mod_lt n hd
  rw [← Nat.mod_add_mod]
  by_cases h : n % d = d - 1
  · rw [if_pos h, h, Nat.sub_add_cancel hd, Nat.mod_self]
  · rw [if_neg h, Nat.mod_eq_of_lt (by omega)]

variable {depth phases}

/-- The counter holds the number of words that are stored already, modulo the depth. -/
theorem run_counter (hd : 2 ≤ depth) (t : Nat)
    (hfit : 2 ^ counterBits depth ≠ depth - 1 ∨ ordinal phases t < depth - 1) :
    (runReset depth databits s before phases (t + 1)).counter = ordinal phases t % depth ∧
      ((runReset depth databits s before phases (t + 1)).overflow = true ↔ depth ≤ ordinal phases t) := by
  induction t with
  | zero =>
    obtain ⟨h1, h2⟩ := runReset_one depth databits s before phases
    rw [h1, h2, ordinal, Nat.count_zero, Nat.zero_mod]
    refine ⟨rfl, ?_⟩
    simp only [Bool.false_eq_true, false_iff]
    omega
  | succ t ih =>
    obtain ⟨hc, ho⟩ := ih (hfit.imp_right fun h => lt_of_le_of_lt (ordinal_mono phases (Nat.le_succ t)) h)
    rw [runReset_counter, runReset_overflow, hc, ordinal_succ]
    rw [ordinal_succ] at hfit
    by_cases hp : Pulse phases t
    · rw [if_pos hp, if_pos hp]
      rw [if_pos hp] at hfit
      have hmod := succ_mod (ordinal phases t) (show 0 < depth by omega)
      have hle := Nat.mod_le (ordinal phases t) depth
      by_cases hlast : ordinal phases t % depth = depth - 1
      · -- the last address: back to 0
        rw [if_pos hlast] at hmod
        rw [if_pos hlast, if_pos ⟨hp, hlast⟩, hmod]
        refine ⟨rfl, ?_⟩
        simp only [true_iff]
        omega
      · rw [if_neg hlast] at hmod
        rw [if_neg hlast, if_neg (fun h => hlast h.2), ho, hmod]
        have hlt := Nat.mod_lt (ordinal phases t) (show 0 < depth by omega)
        have hwidth := sub_one_le_two_pow_counterBits depth
        refine ⟨Nat.mod_eq_of_lt (by omega), by omega, fun h => ?_⟩
        by_contra hlt'
        rw [Nat.mod_eq_of_lt (by omega)] at hlast
        omega
    · rw [if_neg hp, if_neg hp, if_neg (fun h => hp h.1)]
      exact ⟨rfl, ho⟩

/-- A counter that cannot hold `depth - 1` goes round one address too early and never overflows. -/
theorem run_counter_narrow (hd : 2 ≤ depth) (hbits : 2 ^ counterBits depth = depth - 1) (t : Nat) :
    (runReset depth databits s before phases (t + 1)).counter = ordinal phases t % (depth - 1) ∧
      (runReset depth databits s before phases (t + 1)).overflow = false := by
  induction t with
  | zero =>
    obtain ⟨h1, h2⟩ := runReset_one depth databits s before phases
    rw [h1, h2, ordinal, Nat.count_zero, Nat.zero_mod]
    exact ⟨rfl, rfl⟩
  | succ t ih =>
    obtain ⟨hc, ho⟩ := ih
    have hlt := Nat.mod_lt (ordinal phases t) (show 0 < depth - 1 by omega)
    have hlast : ordinal phases t % (depth - 1) ≠ depth - 1 := by omega
    rw [runReset_counter, runReset_overflow, hc, ordinal_succ, if_neg hlast, hbits]
    refine ⟨?_, by rw [if_neg (fun h => hlast h.2)]; exact ho⟩
    by_cases hp : Pulse phases t
    · rw [if_pos hp, if_pos hp, Nat.mod_add_mod]
    · rw [if_neg hp, if_neg hp, Nat.add_zero]

/-! ## The memory -/

/-- No two words in consecutive cycles before cycle `t`. -/
def Separated (phases : Nat → List Phase) (t : Nat) : Prop :=
  ∀ u, u + 1 < t → ¬ (Pulse phases u ∧ Pulse phases (u + 1))

/-- The word of cycle `t` is the last one before cycle `u` with its ordinal modulo the depth. -/
def IsLast (depth : Nat) (phases : Nat → List Phase) (t u : Nat) : Prop :=
  t < u ∧ Pulse phases t ∧
    ∀ v, t < v → v < u → Pulse phases v → ordinal phases v % depth ≠ ordinal phases t % depth

/-- The address that a word is stored at, when no word came in the cycle before it. -/
theorem run_address (hd : 2 ≤ depth) {t : Nat} (hp : Pulse phases t) (hsep : Separated phases (t + 1))
    (hfit : 2 ^ counterBits depth ≠ depth - 1 ∨ ordinal phases t < depth - 1) :
    (runReset depth databits s before phases t).counter = ordinal phases t % depth := by
  cases t with
  | zero =>
    rw [(runReset_zero depth databits s before phases).1, ordinal, Nat.count_zero, Nat.zero_mod]
  | succ t =>
    have hprev : ¬ Pulse phases t := fun h => hsep t (Nat.lt_succ_self _) ⟨h, hp⟩
    have heq : ordinal phases (t + 1) = ordinal phases t := by rw [ordinal_succ, if_neg hprev, Nat.add_zero]
    rw [heq] at hfit ⊢
    exact (run_counter databits s before hd t hfit).1

/-- Every word that is stored and not yet overwritten is found at its ordinal modulo the depth. -/
theorem run_mem (hd : 2 ≤ depth) (t : Nat) (hsep : Separated phases (t + 1))
    (hfit : 2 ^ counterBits depth ≠ depth - 1 ∨ ordinal phases t < depth - 1) {u : Nat}
    (hlast : IsLast depth phases u t) :
    (runReset depth databits s before phases (t + 1)).mem (ordinal phases u % depth) = wordAt databits phases u := by
  induction t with
  | zero => exact absurd hlast.1 (Nat.not_lt_zero _)
  | succ t ih =>
    obtain ⟨hut, hpu, hlater⟩ := hlast
    have hsep' : Separated phases (t + 1) := fun v hv => hsep v (by omega)
    have hfit' : 2 ^ counterBits depth ≠ depth - 1 ∨ ordinal phases t < depth - 1 :=
      hfit.imp_right fun h => lt_of_le_of_lt (ordinal_mono phases (Nat.le_succ t)) h
    rw [runReset_mem]
    by_cases hp : Pulse phases t
    · rw [if_pos hp, run_address databits s before hd hp hsep' hfit']
      by_cases htu : u = t
      · rw [htu, Function.update_self]
      · have hne := hlater t (by omega) (Nat.lt_succ_self t) hp
        rw [Function.update_of_ne (Ne.symm hne)]
        exact ih hsep' hfit' ⟨by omega, hpu, fun v hv hvt => hlater v hv (by omega)⟩
    · have htu : u ≠ t := fun h => hp (h ▸ hpu)
      rw [if_neg hp]
      exact ih hsep' hfit' ⟨by omega, hpu, fun v hv hvt => hlater v hv (by omega)⟩

theorem exists_ordinal (phases : Nat → List Phase) (t : Nat) {i : Nat} (hi : i < ordinal phases t) :
    ∃ u < t, Pulse phases u ∧ ordinal phases u = i := by
  induction t with
  | zero => exact absurd hi (by simp [ordinal])
  | succ t ih =>
    by_cases hlt : i < ordinal phases t
    · obtain ⟨u, hu, h⟩ := ih hlt
      exact ⟨u, by omega, h⟩
    · rw [ordinal_succ] at hi
      by_cases hp : Pulse phases t
      · rw [if_pos hp] at hi
        exact ⟨t, Nat.lt_succ_self t, hp, by omega⟩
      · rw [if_neg hp] at hi
        omega

/-- Every address below the number of words is that of some word, hence of a last one. -/
theorem exists_isLast (hd : 0 < depth) {t j : Nat} (hj : j < min (ordinal phases t) depth) :
    ∃ u, IsLast depth phases u t ∧ ordinal phases u % depth = j := by
  obtain ⟨hjn, hjd⟩ := lt_min_iff.mp hj
  obtain ⟨n, hn⟩ := Nat.exists_eq_add_of_lt hjn
  -- the last ordinal congruent to `j`
  have hdiv := Nat.div_add_mod n depth
  have hlt := Nat.mod_lt n hd
  obtain ⟨u, hut, hpu, hou⟩ := exists_ordinal phases t (i := j + depth * (n / depth)) (by omega)
  refine ⟨u, ⟨hut, hpu, fun v huv hvt hpv hmod => ?_⟩, ?_⟩
  · have h1 : ordinal phases u < ordinal phases v := Nat.count_strict_mono hpu huv
    have h2 : ordinal phases v < ordinal phases t := Nat.count_strict_mono hpv hvt
    rw [hou, Nat.add_mul_mod_self_left, Nat.mod_eq_of_lt hjd] at hmod
    have h3 := Nat.div_add_mod (ordinal phases v) depth
    rw [hmod] at h3
    have h4 : n / depth < ordinal phases v / depth := by
      by_contra hle
      have := Nat.mul_le_mul_left depth (Nat.not_lt.mp hle)
      omega
    have h5 : depth * (n / depth + 1) ≤ depth * (ordinal phases v / depth) := Nat.mul_le_mul_left depth h4
    rw [Nat.mul_add] at h5
    omega
  · rw [hou, Nat.add_mul_mod_self_left, Nat.mod_eq_of_lt hjd]

/-! ## What the scratchpad is for -/

/-- The registered write has reached the memory. -/
def Drained (phases : Nat → List Phase) (t : Nat) : Prop := ∀ u, u + 1 = t → ¬ Pulse phases u

/-- Every word received in the first `t` cycles was captured in order: the counter and the overflow flag tell how many
there were, each was stored at its ordinal modulo the depth, and the memory holds the last one of every address. -/
def Captured (depth databits : Nat) (s : State) (before : List Phase) (phases : Nat → List Phase) (t : Nat) : Prop :=
  (runReset depth databits s before phases t).counter = ordinal phases t % depth ∧
    ((runReset depth databits s before phases t).overflow = true ↔ depth ≤ ordinal phases t) ∧
    (∀ u < t, Pulse phases u → (runReset depth databits s before phases (u + 1)).we = true ∧
      (runReset depth databits s before phases (u + 1)).adr = ordinal phases u % depth ∧
      (runReset depth databits s before phases (u + 1)).datW = wordAt databits phases u) ∧
    ∀ j < min (ordinal phases t) depth, ∃ u, IsLast depth phases u t ∧ ordinal phases u % depth = j ∧
      (runReset depth databits s before phases t).mem j = wordAt databits phases u

/-- Two words in consecutive cycles are stored at one address. -/
theorem run_address_consecutive (hd : 2 ≤ depth) {t : Nat} (hp : Pulse phases t)
    (hfit : 2 ^ counterBits depth ≠ depth - 1 ∨ ordinal phases t < depth - 1) :
    (runReset depth databits s before phases (t + 1)).counter ≠ ordinal phases (t + 1) % depth := by
  rw [(run_counter databits s before hd t hfit).1, ordinal_succ, if_pos hp, succ_mod _ (by omega)]
  split <;> omega

/-- A counter too narrow for the memory is wrong once it had to reach the last address. -/
theorem fits_of_run (hd : 2 ≤ depth) {t : Nat}
    (hc : (runReset depth databits s before phases (t + 1)).counter = ordinal phases t % depth)
    (ho : (runReset depth databits s before phases (t + 1)).overflow = true ↔ depth ≤ ordinal phases t) :
    2 ^ counterBits depth ≠ depth - 1 ∨ ordinal phases t < depth - 1 := by
  by_contra hnot
  rw [not_or, not_not, not_lt] at hnot
  obtain ⟨hcounter, hoverflow⟩ := run_counter_narrow databits s before hd hnot.1 t
  rw [hoverflow] at ho
  have heq : ordinal phases t = depth - 1 := by
    have : ¬ depth ≤ ordinal phases t := fun h => absurd (ho.mpr h) (by decide)
    omega
  rw [hcounter, heq, Nat.mod_self, Nat.mod_eq_of_lt (by omega)] at hc
  omega

/-- **Capture.** After any reset, once the last write has drained, the scratchpad has captured the words it received
exactly when no two of them came in consecutive cycles and the counter could reach every address: `depth - 1` is no
power of two, or fewer words came. -/
theorem captured_iff (hd : 2 ≤ depth) {t : Nat} (hdrained : Drained phases t) :
    Captured depth databits s before phases t ↔
      Separated phases t ∧ ((∀ k, depth - 1 ≠ 2 ^ k) ∨ ordinal phases t < depth - 1) := by
  have hwide : (∀ k, depth - 1 ≠ 2 ^ k) ↔ 2 ^ counterBits depth ≠ depth - 1 := by
    rw [Ne, two_pow_counterBits_eq_iff hd, not_exists]
  rw [hwide]
  cases t with
  | zero =>
    obtain ⟨h1, h2, -⟩ := runReset_zero depth databits s before phases
    have h0 : ordinal phases 0 = 0 := Nat.count_zero _
    unfold Captured
    rw [h1, h2, h0]
    refine ⟨fun _ => ⟨fun u hu => absurd hu (by omega), Or.inr (by omega)⟩, fun _ => ⟨?_, ?_, ?_, ?_⟩⟩
    · rw [Nat.zero_mod]
    · simp only [Bool.false_eq_true, false_iff]
      omega
    · exact fun u hu => absurd hu (Nat.not_lt_zero _)
    · exact fun j hj => absurd hj (by omega)
  | succ t =>
    have hpt : ¬ Pulse phases t := hdrained t rfl
    have hord : ordinal phases (t + 1) = ordinal phases t := by rw [ordinal_succ, if_neg hpt, Nat.add_zero]
    rw [hord]
    constructor
    · rintro ⟨hc, ho, hst, -⟩
      rw [hord] at hc ho
      have hfit := fits_of_run databits s before hd hc ho
      refine ⟨fun u hu hpp => ?_, hfit⟩
      have hmono := ordinal_mono phases (show u ≤ t by omega)
      refine run_address_consecutive databits s before hd hpp.1 (hfit.imp_right fun h => by omega) ?_
      rw [← (hst (u + 1) hu hpp.2).2.1]
      exact (runReset_port depth databits s before phases (u + 1)).2.1.symm
    · rintro ⟨hsep, hfit⟩
      obtain ⟨hc, ho⟩ := run_counter databits s before hd t hfit
      refine ⟨by rw [hord]; exact hc, by rw [hord]; exact ho, fun u hu hpu => ?_, fun j hj => ?_⟩
      · have hut : ordinal phases u ≤ ordinal phases t := ordinal_mono phases (by omega)
        obtain ⟨hwe, hadr, hdat⟩ := runReset_port depth databits s before phases u
        refine ⟨hwe.mpr hpu, ?_, hdat⟩
        rw [hadr]
        exact run_address databits s before hd hpu (fun v hv => hsep v (by omega)) (hfit.imp_right fun h => by omega)
      · obtain ⟨u, hlast, hju⟩ := exists_isLast (by omega) hj
        obtain ⟨hut, hpu, hlater⟩ := hlast
        have hne : u ≠ t := fun h => hpt (h ▸ hpu)
        refine ⟨u, ⟨hut, hpu, hlater⟩, hju, ?_⟩
        rw [← hju]
        exact run_mem databits s before hd t hsep hfit ⟨by omega, hpu, fun v hv hvt => hlater v hv (by omega)⟩

end Run

/-- One phase of eight bits with a word in cycle 0 and one in cycle `gap`. -/
def twoWords (gap t : Nat) : List Phase :=
  if t = 0 then [⟨true, 1⟩] else if t = gap then [⟨true, 2⟩] else [⟨false, 0⟩]

/-- A scratchpad of zeros. -/
def blank : State := { counter := 0, overflow := false, adr := 0, datW := 0, we := false, mem := fun _ => 0 }

/-- With an idle cycle between them, as in the tests, both words are captured. -/
theorem captured_two_words : Drained (twoWords 2) 4 ∧ Captured 8 8 blank [] (twoWords 2) 4 := by
  have hdrained : Drained (twoWords 2) 4 := by
    intro u hu
    obtain rfl : u = 3 := by omega
    decide
  refine ⟨hdrained, (captured_iff 8 blank [] (by decide) hdrained).mpr ⟨?_, Or.inr (by decide)⟩⟩
  intro u hu
  have h : ∀ u < 3, ¬ (Pulse (twoWords 2) u ∧ Pulse (twoWords 2) (u + 1)) := by decide
  exact h u (by omega)

/-- Without it the second word overwrites the first and its own address keeps the old contents. -/
theorem consecutive_words_lost : Drained (twoWords 1) 3 ∧ ¬ Captured 8 8 blank [] (twoWords 1) 3 ∧
    (runReset 8 8 blank [] (twoWords 1) 3).counter = 2 ∧ (runReset 8 8 blank [] (twoWords 1) 3).mem 0 = 2 ∧
    (runReset 8 8 blank [] (twoWords 1) 3).mem 1 = 0 := by
  refine ⟨?_, ?_, by decide +kernel, by decide +kernel, by decide +kernel⟩
  · intro u hu
    obtain rfl : u = 2 := by omega
    decide
  · intro h
    have hadr := (h.2.2.1 1 (by decide) (by decide)).2.1
    exact absurd hadr (by decide +kernel)

end Scratchpad

end RowhammerTester.Gateware
