import RowhammerTester.Python
import Mathlib.Tactic.Ring

/-!
# Reading, writing and checking over the bus

The scripts read and write a range of 32-bit words in transfers of at most `burst` words.

* `wbRead` : a transfer; `memread`, `memcheck` : the functions of `utils`;
* `memread_eq`, `memcheck_eq` : the transfers together are the range;
* `wbWrite`, `memwrite`, `memfill`, `memtest` : the same for writing; `readTransfers`, `writeTransfers` : the transfers;
* `wbWrite_append`, `memwrite_eq` : they together write the range, and nothing else (`wbWrite_of_outside`);
* `fill_and_check` : what is found behind a fill is what has been changed.
-/

namespace RowhammerTester.Scripts

/-- The 32-bit word at every bus address. -/
abbrev BusMemory := Int → Nat

/-- `wb.read(addr, length)`. -/
def wbRead (mem : BusMemory) (addr : Int) (length : Nat) : List Nat :=
  (List.range length).map fun j : Nat => mem (addr + 4 * j)

/-- `range(0, n, step)`. -/
def rangeStep (n step : Nat) : Py (List Nat) := do
  Py.check (step ≠ 0) (.valueError "range() arg 3 must not be zero")
  return (List.range ((n + step - 1) / step)).map (· * step)

def memread (mem : BusMemory) (n : Nat) (base : Int) (burst : Nat) : Py (List Nat) := do
  let starts ← rangeStep n burst
  return starts.flatMap fun i : Nat => wbRead mem (base + 4 * i) (min burst (n - i))

def memcheck (mem : BusMemory) (n pattern : Nat) (base : Int) (burst : Nat) : Py (List (Nat × Nat)) := do
  let data ← memread mem n base burst
  return (data.zipIdx.filter fun p => p.1 ≠ pattern).map fun p => (p.2, p.1)

/-- All words are in the transfers. -/
theorem transfers_cover {n burst : Nat} (h : 0 < burst) : n ≤ (n + burst - 1) / burst * burst := by
  have hdiv := Nat.div_add_mod' (n + burst - 1) burst
  have hmod := Nat.mod_lt (n + burst - 1) h
  omega

/-- The first `k` transfers read the first `k * burst` words, as far as there are so many. -/
theorem flatMap_wbRead (mem : BusMemory) (n : Nat) (base : Int) (burst k : Nat) :
    ((List.range k).map (· * burst)).flatMap (fun i : Nat => wbRead mem (base + 4 * i) (min burst (n - i))) =
      wbRead mem base (min n (k * burst)) := by
  induction k with
  | zero => simp [wbRead]
  | succ k ih =>
    rw [List.range_succ, List.map_append, List.flatMap_append, ih]
    unfold wbRead
    have hnext : min n ((k + 1) * burst) = min n (k * burst) + min burst (n - k * burst) := by
      rw [Nat.succ_mul]
      omega
    rw [hnext, List.range_add, List.map_append, List.map_map]
    congr 1
    rw [List.map_singleton, List.flatMap_singleton]
    rcases Nat.le_total n (k * burst) with hle | hle
    · rw [Nat.sub_eq_zero_of_le hle, Nat.min_zero]
      rfl
    · rw [min_eq_right hle]
      apply List.map_congr_left
      intro j _
      simp only [Function.comp_apply, Nat.cast_add]
      congr 1
      ring

theorem memread_eq (mem : BusMemory) (n : Nat) (base : Int) {burst : Nat} (h : 0 < burst) :
    memread mem n base burst = .ok (wbRead mem base n) := by
  unfold memread rangeStep
  rw [Py.check_of_pos (by omega)]
  refine congrArg Except.ok ?_
  rw [flatMap_wbRead, min_eq_left (transfers_cover h)]

theorem filter_zipIdx_range {β : Type} (f : Nat → β) (p : β → Bool) (n k : Nat) :
    ((((List.range n).map fun j => f (k + j)).zipIdx k).filter fun q => p q.1).map (fun q => (q.2, q.1)) =
      (((List.range n).map (k + ·)).filter fun j => p (f j)).map fun j => (j, f j) := by
  induction n generalizing k with
  | zero => rfl
  | succ n ih =>
    have hnext := ih (k + 1)
    simp only [Nat.add_assoc, Nat.add_comm 1] at hnext
    rw [List.range_succ_eq_map, List.map_cons, List.map_cons, List.map_map, List.map_map, List.zipIdx_cons]
    simp only [Nat.add_zero]
    cases h : p (f k) with
    | true =>
      rw [List.filter_cons_of_pos (by simpa using h), List.filter_cons_of_pos (by simpa using h), List.map_cons,
        List.map_cons]
      exact congrArg _ hnext
    | false =>
      rw [List.filter_cons_of_neg (by simp [h]), List.filter_cons_of_neg (by simp [h])]
      exact hnext

/-- `memcheck` finds the words that are not the pattern. -/
theorem memcheck_eq (mem : BusMemory) (n pattern : Nat) (base : Int) {burst : Nat} (h : 0 < burst) :
    memcheck mem n pattern base burst =
      .ok (((List.range n).filter fun i : Nat => mem (base + 4 * i) ≠ pattern).map fun i =>
        (i, mem (base + 4 * i))) := by
  unfold memcheck
  rw [memread_eq mem n base h]
  refine congrArg Except.ok ?_
  have hfilter := filter_zipIdx_range (fun j : Nat => mem (base + 4 * j)) (fun w => decide (w ≠ pattern)) n 0
  simp only [Nat.zero_add] at hfilter
  rw [wbRead]
  simpa using hfilter

/-! ## Writing -/

/-- `wb.write(addr, words)`. -/
def wbWrite : BusMemory → Int → List Nat → BusMemory
  | mem, _, [] => mem
  | mem, addr, w :: words => wbWrite (Function.update mem addr w) (addr + 4) words

/-- The transfers of `memwrite`, as addresses and words. -/
def writeTransfers (data : List Nat) (base : Int) (burst : Nat) : Py (List (Int × List Nat)) := do
  let starts ← rangeStep data.length burst
  return starts.map fun i : Nat => (base + 4 * i, Py.slice data i (min (i + burst) data.length))

def memwrite (mem : BusMemory) (data : List Nat) (base : Int) (burst : Nat) : Py BusMemory := do
  let transfers ← writeTransfers data base burst
  return transfers.foldl (fun mem (addr, words) => wbWrite mem addr words) mem

def memfill (mem : BusMemory) (n pattern : Nat) (base : Int) (burst : Nat) : Py BusMemory :=
  memwrite mem (List.replicate n pattern) base burst

/-- The transfers of `memread`, as addresses and numbers of words. -/
def readTransfers (n : Nat) (base : Int) (burst : Nat) : Py (List (Int × Nat)) := do
  let starts ← rangeStep n burst
  return starts.map fun i : Nat => (base + 4 * i, min burst (n - i))

/-- The errors of `memtest`, with the words of its generator. -/
def memtest (mem : BusMemory) (refdata : List Nat) (base : Int) (burst : Nat) : Py Nat := do
  let mem ← memwrite mem refdata base burst
  let data ← memread mem refdata.length base burst
  Py.check (refdata.length = data.length) (.assertionError "")
  return (data.zip refdata).countP fun (val, ref) => val ≠ ref

section Write
variable (mem : BusMemory) (addr : Int)

theorem wbWrite_append (xs ys : List Nat) :
    wbWrite mem addr (xs ++ ys) = wbWrite (wbWrite mem addr xs) (addr + 4 * xs.length) ys := by
  induction xs generalizing mem addr with
  | nil => simp [wbWrite]
  | cons x xs ih =>
    rw [List.cons_append, wbWrite, ih, wbWrite, List.length_cons]
    congr 1
    push_cast
    ring

/-- A write changes nothing before its first word or behind its last one. -/
theorem wbWrite_of_outside {a : Int} (words : List Nat) (h : a < addr ∨ addr + 4 * words.length ≤ a) :
    wbWrite mem addr words a = mem a := by
  induction words generalizing mem addr with
  | nil => rfl
  | cons w words ih =>
    rw [List.length_cons] at h
    rw [wbWrite, ih _ _ (by omega), Function.update_of_ne (by omega)]

theorem wbWrite_apply (words : List Nat) {i : Nat} (h : i < words.length) :
    wbWrite mem addr words (addr + 4 * i) = words[i] := by
  induction words generalizing mem addr i with
  | nil => exact absurd h (Nat.not_lt_zero i)
  | cons w words ih =>
    rw [wbWrite]
    cases i with
    | zero =>
      rw [wbWrite_of_outside _ _ _ (.inl (by omega))]
      simp
    | succ i =>
      have hnext : addr + 4 * ((i + 1 : Nat) : Int) = addr + 4 + 4 * i := by
        push_cast
        ring
      rw [hnext, ih _ _ (Nat.lt_of_succ_lt_succ h), List.getElem_cons_succ]

theorem wbRead_wbWrite (words : List Nat) : wbRead (wbWrite mem addr words) addr words.length = words := by
  apply List.ext_getElem
  · simp [wbRead]
  · intro i hi hwords
    simp only [wbRead, List.getElem_map, List.getElem_range]
    exact wbWrite_apply mem addr words hwords

end Write

section Transfers
variable (mem : BusMemory) (data : List Nat) (base : Int) (burst : Nat)

theorem slice_eq (i : Nat) : Py.slice data i (min (i + burst) data.length) = (data.drop i).take burst := by
  rw [Py.slice, if_neg (by omega), Int.toNat_natCast, List.drop_take, List.take_eq_take_iff, List.length_drop]
  omega

/-- The first `k` transfers write the first `k * burst` words, as far as there are so many. -/
theorem foldl_wbWrite (k : Nat) :
    ((List.range k).map (· * burst)).foldl (fun mem i => wbWrite mem (base + 4 * (i : Nat)) ((data.drop i).take burst))
      mem = wbWrite mem base (data.take (k * burst)) := by
  induction k with
  | zero => simp [wbWrite]
  | succ k ih =>
    rw [List.range_succ, List.map_append, List.foldl_append, ih, List.map_singleton, List.foldl_cons, List.foldl_nil,
      Nat.succ_mul, List.take_add, wbWrite_append]
    rcases Nat.le_total data.length (k * burst) with hle | hle
    · rw [List.drop_eq_nil_of_le hle, List.take_nil]
      rfl
    · rw [List.length_take_of_le hle]

theorem memwrite_eq {burst : Nat} (h : 0 < burst) : memwrite mem data base burst = .ok (wbWrite mem base data) := by
  unfold memwrite writeTransfers rangeStep
  rw [Py.check_of_pos (by omega)]
  refine congrArg Except.ok ?_
  rw [List.foldl_map]
  simp only [slice_eq]
  rw [foldl_wbWrite, List.take_of_length_le (transfers_cover h)]

/-- No transfer writes more than a burst. -/
theorem writeTransfers_le {burst : Nat} (h : 0 < burst) :
    ∃ transfers, writeTransfers data base burst = .ok transfers ∧ ∀ t ∈ transfers, t.2.length ≤ burst := by
  unfold writeTransfers rangeStep
  rw [Py.check_of_pos (by omega)]
  refine ⟨_, rfl, ?_⟩
  intro t ht
  obtain ⟨i, -, rfl⟩ := List.mem_map.mp ht
  dsimp only
  rw [slice_eq]
  exact List.length_take_le _ _

/-- No transfer reads more than a burst, and `memread` is its transfers. -/
theorem readTransfers_le (n : Nat) {burst : Nat} (h : 0 < burst) :
    ∃ transfers, readTransfers n base burst = .ok transfers ∧ (∀ t ∈ transfers, t.2 ≤ burst) ∧
      ∀ mem, memread mem n base burst = .ok (transfers.flatMap fun t => wbRead mem t.1 t.2) := by
  unfold readTransfers memread rangeStep
  rw [Py.check_of_pos (by omega)]
  refine ⟨_, rfl, ?_, ?_⟩
  · intro t ht
    obtain ⟨i, -, rfl⟩ := List.mem_map.mp ht
    exact Nat.min_le_left _ _
  · intro mem
    rw [List.flatMap_map]
    rfl

/-- A memory that keeps what is written passes the test. -/
theorem memtest_eq_zero {burst : Nat} (h : 0 < burst) : memtest mem data base burst = .ok 0 := by
  unfold memtest
  rw [memwrite_eq mem data base h, Py.ok_bind, memread_eq _ _ _ h, Py.ok_bind, wbRead_wbWrite, Py.check_of_pos rfl]
  refine congrArg Except.ok ?_
  rw [List.zip_eq_zipWith, List.zipWith_self, List.countP_map, List.countP_eq_zero]
  intro w _
  simp

end Transfers

/-- **Filling and checking.** After a fill and any change of the memory, `memcheck` returns the changed words with their
indices, in order, for all sizes of the bursts; the fill changes nothing outside of its words; no transfer is longer
than its burst; and what `memwrite` has written is read back. -/
theorem fill_and_check (mem : BusMemory) (n pattern : Nat) (base : Int) (data : List Nat) {b₁ b₂ : Nat} (h₁ : 0 < b₁)
    (h₂ : 0 < b₂) : ∃ filled written, memfill mem n pattern base b₁ = .ok filled ∧
      memwrite mem data base b₁ = .ok written ∧
      (∀ i < n, filled (base + 4 * (i : Nat)) = pattern) ∧
      (∀ a, a < base ∨ base + 4 * n ≤ a → filled a = mem a) ∧
      (∀ modify : BusMemory → BusMemory, memcheck (modify filled) n pattern base b₂ =
        .ok (((List.range n).filter fun i : Nat => modify filled (base + 4 * i) ≠ pattern).map fun i =>
          (i, modify filled (base + 4 * i)))) ∧
      memread written data.length base b₂ = .ok data ∧
      (∃ transfers, writeTransfers (List.replicate n pattern) base b₁ = .ok transfers ∧
        ∀ t ∈ transfers, t.2.length ≤ b₁) ∧
      (∃ transfers, writeTransfers data base b₁ = .ok transfers ∧ ∀ t ∈ transfers, t.2.length ≤ b₁) ∧
      (∀ m, ∃ transfers, readTransfers m base b₂ = .ok transfers ∧ (∀ t ∈ transfers, t.2 ≤ b₂) ∧
        ∀ mem, memread mem m base b₂ = .ok (transfers.flatMap fun t => wbRead mem t.1 t.2)) := by
  have hlen : (List.replicate n pattern).length = n := List.length_replicate
  refine ⟨_, _, memwrite_eq mem _ base h₁, memwrite_eq mem data base h₁, ?_, ?_, ?_, ?_,
    writeTransfers_le _ base h₁, writeTransfers_le data base h₁, fun m => readTransfers_le base m h₂⟩
  · intro i hi
    rw [wbWrite_apply mem base _ (by rwa [hlen]), List.getElem_replicate]
  · intro a ha
    apply wbWrite_of_outside
    rwa [hlen]
  · intro modify
    exact memcheck_eq _ n pattern base h₂
  · rw [memread_eq _ _ _ h₂, wbRead_wbWrite]

/-- Three words, filled two at a time; the second is changed. -/
theorem fill_and_check_second : ∃ filled, memfill (fun _ => 0) 3 0xaaaaaaaa 0x40000000 2 = .ok filled ∧
    memcheck (Function.update filled 0x40000004 7) 3 0xaaaaaaaa 0x40000000 255 = .ok [(1, 7)] := by
  obtain ⟨filled, -, hfill, -, hpattern, -, hcheck, -⟩ := fill_and_check (fun _ => 0) 3 0xaaaaaaaa 0x40000000 []
    (show 0 < 2 by decide) (show 0 < 255 by decide)
  have hfirst := hpattern 0 (by decide)
  have hlast := hpattern 2 (by decide)
  refine ⟨filled, hfill, ?_⟩
  rw [hcheck fun mem => Function.update mem 0x40000004 7]
  norm_num at hfirst hlast
  simp [List.range_succ, hfirst, hlast]

end RowhammerTester.Scripts
