import Mathlib.Logic.Function.Basic
import RowhammerTester.Gateware.Bist.Writer
import RowhammerTester.Gateware.Bist.ReaderProgress

/-!
# The BIST `Writer` followed by the `Reader`

* `store mem W` : a DRAM after the writes `W`; `store_writes` : what it holds at the addresses of a transfer;
* `mismatch_store` : the Reader finds what it expects iff it takes the pattern word that the Writer took;
* `errorCount_eq_zero_iff` : when a Reader with the settings of the Writer finds no error.
-/

namespace RowhammerTester.Gateware.Bist
open RowhammerTester.Hdl

variable {aw w k rb : Nat}

/-- A DRAM that stores faithfully. -/
def store (mem : BitVec aw → BitVec w) (W : List (BitVec aw × BitVec w)) : BitVec aw → BitVec w :=
  W.foldl (fun m x => Function.update m x.1 x.2) mem

/-- A DRAM answers every command with the word at its address. -/
def answers (mem : BitVec aw → BitVec w) : Nat → BitVec aw → BitVec w := fun _ a => mem a

section RoundTrip
variable (cfg : Settings w k rb)

/-- A DRAM after the first `T` cycles of the Writer. -/
def written (mem : BitVec aw → BitVec w) (s : Writer.State aw w k rb) (inp : Nat → Writer.Input) (T : Nat) :
    BitVec aw → BitVec w :=
  store mem (events (Writer.step cfg) s inp Writer.write T)

/-- The transfers have pairwise distinct addresses. -/
def Distinct (aw : Nat) : Prop :=
  ∀ i < cfg.count.toNat, ∀ j < cfg.count.toNat, cfg.address aw i = cfg.address aw j → i = j

instance : Decidable (Distinct cfg aw) :=
  inferInstanceAs (Decidable
    (∀ i < cfg.count.toNat, ∀ j < cfg.count.toNat, cfg.address aw i = cfg.address aw j → i = j))

/-- The words of the pattern that a transfer uses in modulo mode are all the same. -/
def Uniform : Prop := ∀ i < cfg.count.toNat, i ≤ cfg.dataDiv.toNat → cfg.dataMem (BitVec.ofNat k i) = cfg.dataMem 0

variable {cfg}

theorem store_writes (mem : BitVec aw → BitVec w) {n : Nat} (hn : n ≤ cfg.count.toNat) (hdist : Distinct cfg aw)
    {j : Nat} (hj : j < n) : store mem (Writer.writes cfg aw n) (cfg.address aw j) = (Writer.writeAt cfg aw j).2 := by
  induction n with
  | zero => exact absurd hj (Nat.not_lt_zero j)
  | succ n ih =>
    have hsplit : store mem (Writer.writes cfg aw (n + 1)) =
        Function.update (store mem (Writer.writes cfg aw n)) (cfg.address aw n) (Writer.writeAt cfg aw n).2 := by
      rw [Writer.writes_succ, store, List.foldl_append]
      rfl
    rw [hsplit]
    by_cases hjn : j = n
    · rw [hjn, Function.update_self]
    · rw [Function.update_of_ne]
      · exact ih (by omega) (by omega)
      · intro heq
        exact hjn (hdist j (by omega) n (by omega) heq)

theorem dataAt_inj (a : BitVec aw) {d d' : BitVec w} : cfg.dataAt a d = cfg.dataAt a d' ↔ d = d' := by
  unfold Settings.dataAt
  split
  · exact BitVec.not_inj
  · exact Iff.rfl

/-- When the Writer and the Reader take the same pattern words. -/
theorem readIndex_eq_iff : (∀ j < cfg.count.toNat, cfg.dataMem (cfg.index j) = cfg.dataMem (cfg.readIndex j)) ↔
    cfg.modulo = false ∨ Uniform cfg := by
  cases hmode : cfg.modulo with
  | false =>
    simp only [Settings.index, Settings.readIndex, hmode, Bool.false_eq_true, if_false, implies_true, true_or]
  | true =>
    have hindex : ∀ j, cfg.index j = BitVec.ofNat k (j % (cfg.dataDiv.toNat + 1)) := by
      intro j
      rw [Settings.index, if_pos hmode]
    simp only [Settings.readIndex, if_pos hmode, hindex, Bool.true_eq_false, false_or]
    constructor
    · intro h i hi hdiv
      have heq := h i hi
      rwa [Nat.mod_eq_of_lt (by omega)] at heq
    · intro h j hj
      have hlt := Nat.mod_lt j (show 0 < cfg.dataDiv.toNat + 1 by omega)
      exact h _ (Nat.lt_of_le_of_lt (Nat.mod_le _ _) hj) (by omega)

variable {F : Fifo (BitVec aw)} {G : Fifo (Reader.ErrorRecord w)}

/-- The Reader finds what it expects at the `j`-th address iff it takes the pattern word that the Writer took. -/
theorem mismatch_store (mem : BitVec aw → BitVec w) (hdist : Distinct cfg aw) (r : Nat) {j : Nat}
    (hj : j < cfg.count.toNat) :
    Reader.mismatch cfg (answers (store mem (Writer.writes cfg aw cfg.count.toNat))) r j = false ↔
      cfg.dataMem (cfg.index j) = cfg.dataMem (cfg.readIndex j) := by
  rw [Reader.mismatch, bne_eq_false_iff_eq, Reader.dataRead, answers, store_writes mem (Nat.le_refl _) hdist hj]
  exact dataAt_inj _

theorem errors_length_eq_zero_iff (word : Nat → BitVec aw → BitVec w) (r n : Nat) :
    (Reader.errors cfg word r n).length = 0 ↔ ∀ j < n, Reader.mismatch cfg word r j = false := by
  rw [Reader.errors, List.length_map, List.length_eq_zero_iff, List.filter_eq_nil_iff]
  simp only [List.mem_range, Bool.not_eq_true]

/-- **Write and read back.** The Writer runs to completion, then the Reader with the same settings: the Reader finds no
error iff the mode is mask mode or the words that the pattern uses are all the same. -/
theorem errorCount_eq_zero_iff (cfg : Settings w k rb) (mem : BitVec aw → BitVec w) (hdist : Distinct cfg aw)
    (sw : Writer.State aw w k rb) (winp : Nat → Writer.Input) (hwready : Writer.ready sw = true)
    (hwstart : (winp 0).start = true) (hwfair : ∀ t, ∃ u, t ≤ u ∧ (winp u).dmaReady = true)
    (sr : Reader.State F G k rb) (rinp : Nat → Reader.Input) (hidle : Reader.Idle sr) (hrinp : Reader.OneStart rinp)
    (hrfair : Reader.Fair rinp) :
    ∃ Tw, 1 ≤ Tw ∧ Writer.BusyUntil cfg sw winp Tw ∧ Writer.ready (run (Writer.step cfg) sw winp Tw) = true ∧
      (∃ Tr, 1 ≤ Tr ∧
        Reader.ready (run (Reader.step cfg (answers (written cfg mem sw winp Tw))) sr rinp Tr) = true) ∧
      ∀ Tr, 1 ≤ Tr → Reader.ready (run (Reader.step cfg (answers (written cfg mem sw winp Tw))) sr rinp Tr) = true →
        (Reader.errorCount (run (Reader.step cfg (answers (written cfg mem sw winp Tw))) sr rinp Tr) = 0 ↔
          cfg.modulo = false ∨ Uniform cfg) := by
  have hf : sw.fsm = .READY := beq_iff_eq.mp hwready
  obtain ⟨Tw, hTw, hbusy, hend⟩ := Writer.exists_ready hf hwstart hwfair
  refine ⟨Tw, hTw, hbusy, hend, ?_, fun Tr hTr hready => ?_⟩
  · obtain ⟨Tr, hTr, hdrained⟩ := Reader.exists_drained hidle hrinp hrfair
    exact ⟨Tr, hTr, (hdrained Tr (Nat.le_refl Tr)).1⟩
  · obtain ⟨-, -, -, hcount⟩ := Reader.run_ready hidle hrinp hTr hready
    have hdram : written cfg mem sw winp Tw = store mem (Writer.writes cfg aw cfg.count.toNat) := by
      rw [written, (Writer.run_complete hf hwstart hTw hbusy hend).1]
    rw [← readIndex_eq_iff, ← BitVec.toNat_inj, hcount, hdram]
    refine (errors_length_eq_zero_iff _ _ _).trans ?_
    exact forall₂_congr fun j hj => mismatch_store mem hdist _ hj

theorem twoWords_distinct (modulo : Bool) : Distinct (Settings.twoWords modulo) 4 := by
  cases modulo <;> decide

theorem errorCount_eq_zero_iff_twoWords :
    ∃ Tw Tr, Reader.errorCount (run (Reader.step (Settings.twoWords false)
      (answers (written (Settings.twoWords false) (fun _ => 0)
        (Writer.reset : Writer.State 4 8 1 1) Writer.stalled Tw)))
      Reader.reset Reader.stalled Tr) = 0 := by
  obtain ⟨Tw, -, -, -, ⟨Tr, hTr, hready⟩, hiff⟩ := errorCount_eq_zero_iff (Settings.twoWords false) (fun _ => 0)
    (twoWords_distinct false) (Writer.reset : Writer.State 4 8 1 1) Writer.stalled rfl rfl
    (fun t => ⟨2 * t, by omega, by simp [Writer.stalled]⟩) Reader.reset Reader.stalled Reader.reset_idle
    ⟨rfl, fun t => rfl⟩ Reader.stalled_fair
  exact ⟨Tw, Tr, (hiff Tr hTr hready).mpr (Or.inl rfl)⟩

/-- In modulo mode the Reader compares the second word with the first one of the pattern. -/
theorem modulo_error :
    Distinct (Settings.twoWords true) 4 ∧
      Writer.ready (run (Writer.step (Settings.twoWords true))
        (Writer.reset : Writer.State 4 8 1 1) Writer.stalled 18) = true ∧
      let sys := Reader.step (Settings.twoWords true) (answers (written (Settings.twoWords true) (fun _ => 0)
        (Writer.reset : Writer.State 4 8 1 1) Writer.stalled 18)) (F := .fallThrough 3) (G := .buffered 1)
      Reader.ready (run sys Reader.reset Reader.stalled 18) = true ∧
        Reader.errorCount (run sys Reader.reset Reader.stalled 18) = 1 := by
  refine ⟨twoWords_distinct true, ?_, ?_, ?_⟩ <;> decide +kernel

end RoundTrip

end RowhammerTester.Gateware.Bist
