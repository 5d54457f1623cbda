import Mathlib.Order.Interval.Set.Nat
import Mathlib.Data.Nat.Count
import RowhammerTester.Hdl.Host

/-!
# `RowHammerDMA`

The module that reads two addresses in turns through a DMA for as long as it is enabled.

* `Access`, `State`, `step` : the CSRs of the module and its counter;
* `read` : the read that the DMA accepts in a cycle; `Traffic`, `device` : the module with all the reads accepted;
* `accepted env t n` : the number of cycles in which the DMA is ready (`exists_accepted`);
* `alternating a₁ a₂ n` : `n` reads in turns; `Hammering` : the module since it was enabled, edge by edge;
* `reads_in_turns` : any number of edges, whatever the DMA's stalls and also when the counter wraps around.
-/

namespace RowhammerTester.Gateware.RowHammerDma
open RowhammerTester.Hdl

variable {aw : Nat}

/-! ## The module -/

/-- The accesses to the CSRs. -/
inductive Access where
  | writeEnabled (v : Nat)
  | writeAddress1 (v : Nat)
  | writeAddress2 (v : Nat)
  | readCount
deriving DecidableEq, Repr

/-- The storages and the counter. -/
structure State (aw : Nat) where
  enabled : Bool
  address1 : BitVec aw
  address2 : BitVec aw
  counter : BitVec 32
deriving DecidableEq, Repr

section Step
variable (s : State aw) (ready : Bool) (a : Option Access)

/-- `dma.sink.address`, selected by the lowest bit of the counter. -/
def address : BitVec aw := if s.counter.getLsbD 0 then s.address2 else s.address1

/-- The address that the DMA takes in this cycle; `dma.sink.valid` is `enabled`. -/
def read : Option (BitVec aw) := if s.enabled && ready then some (address s) else none

/-- One clock edge. -/
def step : State aw where
  enabled := match a with
    | some (.writeEnabled v) => v % 2 == 1
    | _ => s.enabled
  address1 := match a with
    | some (.writeAddress1 v) => BitVec.ofNat aw v
    | _ => s.address1
  address2 := match a with
    | some (.writeAddress2 v) => BitVec.ofNat aw v
    | _ => s.address2
  counter :=
    if s.enabled then
      if s.enabled && ready then s.counter + 1 else s.counter
    else if a = some .readCount then 0  -- clear on read when not enabled
    else s.counter

end Step

/-! ## The module beside its DMA -/

/-- The module with the addresses that its DMA has taken, oldest first. -/
structure Traffic (aw : Nat) where
  module : State aw
  reads : List (BitVec aw)
deriving DecidableEq, Repr

namespace Traffic

def clock (d : Traffic aw) (ready : Bool) (a : Option Access) : Traffic aw :=
  ⟨step d.module ready a, d.reads ++ (read d.module ready).toList⟩

/-- What an access reads. -/
def answer (d : Traffic aw) : Access → Nat
  | .readCount => d.module.counter.toNat
  | _ => 0

end Traffic

/-- The module as a device on the bus; its input is `dma.sink.ready`. -/
def device : Device (Traffic aw) Bool Access Nat := ⟨Traffic.clock, Traffic.answer⟩

/-! ## Reads accepted in a span of time -/

section Accepted
variable (env : Nat → Bool)

/-- The cycles among the `n` from `t` on in which the DMA is ready. -/
def accepted (t n : Nat) : Nat := Nat.count (fun j => env (t + j) = true) n

theorem accepted_succ (t n : Nat) : accepted env t (n + 1) = accepted env t n + (env (t + n)).toNat := by
  unfold accepted
  rw [Nat.count_succ]
  cases env (t + n) <;> rfl

theorem accepted_add (t m n : Nat) : accepted env t (m + n) = accepted env t m + accepted env (t + m) n := by
  unfold accepted
  rw [Nat.count_add]
  simp only [Nat.add_assoc]

theorem accepted_le (t n : Nat) : accepted env t n ≤ n := Nat.count_le _

variable {env}

/-- A DMA that does not stall forever takes any number of reads. -/
theorem exists_accepted (hfair : ∀ t, ∃ u, t ≤ u ∧ env u = true) (t k : Nat) :
    ∃ x, ∀ n, x ≤ n → k ≤ accepted env t n := by
  induction k with
  | zero => exact ⟨0, fun _ _ => Nat.zero_le _⟩
  | succ k ih =>
    obtain ⟨x, hx⟩ := ih
    obtain ⟨u, hu, hready⟩ := hfair (t + x)
    obtain ⟨d, rfl⟩ := Nat.exists_eq_add_of_le hu
    refine ⟨x + d + 1, fun n hn => ?_⟩
    obtain ⟨e, rfl⟩ := Nat.exists_eq_add_of_le hn
    have hlast : accepted env t (x + d + 1) = accepted env t (x + d) + 1 := by
      rw [accepted_succ, ← Nat.add_assoc, hready]
      rfl
    rw [accepted_add, hlast]
    have hbefore := hx (x + d) (Nat.le_add_right x d)
    omega

end Accepted

/-! ## Hammering -/

/-- `n` reads of two addresses in turns. -/
def alternating {α : Type} (a₁ a₂ : α) (n : Nat) : List α :=
  (List.range n).map fun i => if i % 2 = 0 then a₁ else a₂

theorem alternating_succ {α : Type} (a₁ a₂ : α) (n : Nat) :
    alternating a₁ a₂ (n + 1) = alternating a₁ a₂ n ++ [if n % 2 = 0 then a₁ else a₂] := by
  unfold alternating
  rw [List.range_succ, List.map_append]
  rfl

theorem map_alternating {α β : Type} (f : α → β) (a₁ a₂ : α) (n : Nat) :
    (alternating a₁ a₂ n).map f = alternating (f a₁) (f a₂) n := by
  rw [alternating, alternating, List.map_map]
  apply List.map_congr_left
  intro i _
  exact apply_ite f ..

/-- The module is enabled on two addresses; after the reads `before` it has counted and done `n` reads. -/
structure Hammering (a₁ a₂ : BitVec aw) (before : List (BitVec aw)) (n : Nat) (d : Traffic aw) : Prop where
  enabled : d.module.enabled = true
  address1 : d.module.address1 = a₁
  address2 : d.module.address2 = a₂
  counter : d.module.counter = BitVec.ofNat 32 n
  reads : d.reads = before ++ alternating a₁ a₂ n

namespace Hammering
variable {a₁ a₂ : BitVec aw} {before : List (BitVec aw)} {n : Nat} {d : Traffic aw}

/-- The lowest bit of the counter keeps the turn, also when the counter wraps around. -/
theorem address_eq (h : Hammering a₁ a₂ before n d) : address d.module = if n % 2 = 0 then a₁ else a₂ := by
  have hbit : d.module.counter.getLsbD 0 = decide (n % 2 = 1) := by
    rw [h.counter, BitVec.getLsbD_ofNat, Nat.testBit_zero]
    rfl
  unfold address
  rw [hbit, h.address1, h.address2]
  obtain heven | hodd := Nat.mod_two_eq_zero_or_one n
  · rw [if_pos heven, heven]
    rfl
  · rw [if_neg (show ¬ n % 2 = 0 by omega), hodd]
    rfl

/-- An edge takes the next read if the DMA is ready; `dma.source` is always ready and holds nothing back. -/
theorem clock_reads (h : Hammering a₁ a₂ before n d) (ready : Bool) (a : Option Access) :
    (d.clock ready a).reads = before ++ alternating a₁ a₂ (n + ready.toNat) := by
  have hread : (d.clock ready a).reads = d.reads ++ (read d.module ready).toList := rfl
  rw [hread, h.reads, read, h.enabled]
  cases ready with
  | false => exact List.append_nil _
  | true =>
    rw [h.address_eq]
    apply Eq.trans (List.append_assoc ..)
    exact congrArg (before ++ ·) (alternating_succ a₁ a₂ n).symm

theorem clock_counter (h : Hammering a₁ a₂ before n d) (ready : Bool) (a : Option Access) :
    (d.clock ready a).module.counter = BitVec.ofNat 32 (n + ready.toNat) := by
  have hcounter : (d.clock ready a).module.counter = if ready then d.module.counter + 1 else d.module.counter := by
    unfold Traffic.clock step
    simp only [h.enabled, if_true, Bool.true_and]
  rw [hcounter, h.counter]
  cases ready with
  | false => rfl
  | true => exact (BitVec.ofNat_add n 1).symm

/-- An edge at which no storage is written, and the counter perhaps read. -/
theorem clock (h : Hammering a₁ a₂ before n d) (ready : Bool) {a : Option Access}
    (ha : a = none ∨ a = some .readCount) : Hammering a₁ a₂ before (n + ready.toNat) (d.clock ready a) where
  enabled := by
    obtain rfl | rfl := ha <;> exact h.enabled
  address1 := by
    obtain rfl | rfl := ha <;> exact h.address1
  address2 := by
    obtain rfl | rfl := ha <;> exact h.address2
  counter := h.clock_counter ready a
  reads := h.clock_reads ready a

/-- **Reads in turns.** Over any run, whatever the stalls and whenever the counter is read, the reads that the DMA takes
are of the one and of the other address in turns, and the counter counts them modulo `2 ^ 32`. -/
theorem reads_in_turns (h : Hammering a₁ a₂ before n d) (inp : Nat → Bool × Bool) (t : Nat) :
    Hammering a₁ a₂ before (n + Nat.count (fun j => (inp j).1 = true) t)
      (Hdl.run (fun d i => d.clock i.1 (if i.2 then some .readCount else none)) d inp t) := by
  induction t with
  | zero => exact h
  | succ t ih =>
    have hnext := ih.clock (inp t).1 (a := if (inp t).2 then some .readCount else none) (by
      cases (inp t).2
      · exact Or.inl rfl
      · exact Or.inr rfl)
    rw [run_succ, Nat.count_succ]
    have hcount : n + Nat.count (fun j => (inp j).1 = true) t + (inp t).1.toNat =
        n + (Nat.count (fun j => (inp j).1 = true) t + if (inp t).1 = true then 1 else 0) := by
      rw [Nat.add_assoc]
      cases (inp t).1 <;> rfl
    rwa [hcount] at hnext

/-- A module that has done `n` reads. -/
def afterReads (n : Nat) : Traffic 4 := ⟨⟨true, 1, 2, BitVec.ofNat 32 n⟩, alternating 1 2 n⟩

theorem hammering_afterReads (n : Nat) : Hammering 1 2 [] n (afterReads n) :=
  ⟨rfl, rfl, rfl, rfl, (List.nil_append _).symm⟩

/-- The turns go on when the counter starts again. -/
theorem reads_in_turns_wraps : Hammering 1 2 [] (2 ^ 32 - 1 + Nat.count (fun _ => true = true) 2)
    (Hdl.run (fun d i => d.clock i.1 (if i.2 then some .readCount else none)) (afterReads (2 ^ 32 - 1))
      (fun _ => (true, true)) 2) :=
  (hammering_afterReads _).reads_in_turns (fun _ => (true, true)) 2

theorem later {env : Nat → Bool} {c : At (Traffic aw)} (h : Hammering a₁ a₂ before n c.device) (m : Nat) :
    Hammering a₁ a₂ before (n + accepted env c.time m) (later device env c m).device := by
  induction m with
  | zero => exact h
  | succ m ih =>
    rw [later_succ_device, accepted_succ, ← Nat.add_assoc]
    exact ih.clock _ (Or.inl rfl)

end Hammering

/-! ## Disabled -/

/-- The module is disabled, and the reads up to now are `reads`. -/
structure Stopped (reads : List (BitVec aw)) (d : Traffic aw) : Prop where
  enabled : d.module.enabled = false
  reads : d.reads = reads

namespace Stopped
variable {reads : List (BitVec aw)} {d : Traffic aw}

theorem clock_reads (h : Stopped reads d) (ready : Bool) (a : Option Access) : (d.clock ready a).reads = reads := by
  have hread : (d.clock ready a).reads = d.reads ++ (read d.module ready).toList := rfl
  rw [hread, h.reads, read, h.enabled]
  exact List.append_nil reads

/-- Reading the counter clears it. -/
theorem clock_counter (h : Stopped reads d) (ready : Bool) (a : Option Access) :
    (d.clock ready a).module.counter = if a = some .readCount then 0 else d.module.counter := by
  unfold Traffic.clock step
  simp only [h.enabled, Bool.false_eq_true, if_false]

/-- Without a write to `enabled` the module stays off. -/
theorem clock (h : Stopped reads d) (ready : Bool) {a : Option Access} (ha : ∀ v, a ≠ some (.writeEnabled v)) :
    Stopped reads (d.clock ready a) where
  enabled := by
    apply Eq.trans _ h.enabled
    cases a with
    | none => rfl
    | some a => cases a with
      | writeEnabled v => exact absurd rfl (ha v)
      | writeAddress1 v => rfl
      | writeAddress2 v => rfl
      | readCount => rfl
  reads := h.clock_reads ready a

end Stopped

end RowhammerTester.Gateware.RowHammerDma
