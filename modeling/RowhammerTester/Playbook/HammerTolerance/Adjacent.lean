import RowhammerTester.Playbook.HammerTolerance.Generator
import Mathlib.Data.Int.ConditionallyCompleteOrder
import Mathlib.Order.ConditionallyCompleteLattice.Basic

/-!
# The rows of a victim

The payload, the filled range, the tested range and the accounting compute their rows separately, each from the
iteration and the index of the row in the group. The modulus of an index is `nr_rows` less the index, in place of
`nr_rows`.

* `group` : the rows of the group of a victim; `Adjacent` : all four use the rows of this group;
* `getRowForIter_eq` : index `i` is in its place if `2 * i` rows fit behind the first row of the group;
* `adjacent_iff` : the rows are adjacent exactly if `4 * distance` rows fit behind the first row, although the group has
  only `2 * distance`.
-/

namespace RowhammerTester.Playbook.HammerTolerance
open RowhammerTester.Scripts DramAddressConverter

/-- `iteration // iters_per_row`, the first row of the group. -/
def victimGroup (cfg : Config) (st : State) : Nat := st.iteration / cfg.itersPerRow

/-- The physical row of an index of the group. -/
def groupRow (cfg : Config) (st : State) (rowIdx : Nat) : Nat :=
  cfg.rowMapping.logicalToPhysical (victimGroup cfg st + rowIdx)

/-- The physical rows of the group. -/
def group (cfg : Config) (st : State) : List Nat := (List.range (1 + 2 * cfg.distance)).map (groupRow cfg st)

/-- The logical row that a payload hammers first: that of the group, in a baseline run the dummy row. -/
def firstHammered (cfg : Config) (st : State) : Option Nat :=
  if st.runBaseline then cfg.firstDummyRow else some (victimGroup cfg st)

/-- The module has a port of `2 ^ a` bits that is no narrower than the bus and whose words have at least
`2 ^ address_align` bytes. -/
def Supported (settings : Settings) (c : DramAddressConverter) : Prop :=
  settings.load = .ok c ∧ ∃ a, c.dramPortWidth = 2 ^ a ∧ 5 ≤ a ∧ c.addressAlign ≤ a - 3

/-- The rows of an iteration are those of the group. -/
structure Adjacent (cfg : Config) (st : State) : Prop where
  /-- The rows are consecutive. -/
  consecutive : ∀ i ≤ 2 * cfg.distance,
    getRowForIter cfg st i = .ok (((victimGroup cfg st + i : Nat) : Int), (groupRow cfg st i : Int))
  /-- The hammered rows are the outer two. -/
  hammered : ∀ (row : Nat) (timings : Timings) (bankbits bank payloadMemSize : Nat), firstHammered cfg st = some row →
    ∃ request, payloadRequest cfg st timings bankbits bank payloadMemSize = .ok request ∧
      request.rowSequence = [(cfg.rowMapping.logicalToPhysical row : Int),
        (cfg.rowMapping.logicalToPhysical (row + 2 * cfg.distance) : Int)]
  /-- The range tested is that of the middle row. -/
  tested : ∀ (settings : Settings) (mainRamBase : Int) (mainRamSize : Nat),
    getMemtestRange cfg st settings mainRamBase mainRamSize =
      getRangeFromRows settings mainRamBase mainRamSize [groupRow cfg st cfg.distance]
  /-- The errors accounted for are those of the middle row. -/
  examined : ∀ step, stepOf cfg st = .ok step → ∀ rowErrors : RowErrors, processErrors cfg st rowErrors =
    account cfg step st.runBaseline (nextRun cfg st) (rowErrors.lookup (groupRow cfg st cfg.distance))
  /-- The range filled is that of the group. -/
  filled : cfg.fillLocal = true → ∀ (settings : Settings) (mainRamBase : Int) (mainRamSize : Nat),
    getMemsetRange cfg st settings mainRamBase mainRamSize =
      getRangeFromRows settings mainRamBase mainRamSize (group cfg st)
  /-- The range filled contains the rows of the group. -/
  contained : ∀ (settings : Settings) (c : DramAddressConverter), Supported settings c →
    (∀ row ∈ group cfg st, row < 2 ^ c.rowbits) →
    ∃ offset size : Int, getMemsetRange cfg st settings 0x40000000 (moduleSize c) = .ok (offset, size) ∧
      ∀ row ∈ group cfg st, rowsSpan c [row] ⊆ Set.Ico (0x40000000 + offset) (0x40000000 + offset + size)

/-! ## Indices -/

section Rows
variable {cfg : Config} {st : State} (hiters : cfg.itersPerRow ≠ 0)
include hiters

theorem floordiv_iters : Py.floordiv st.iteration cfg.itersPerRow = .ok (victimGroup cfg st : Int) := by
  have hne : (cfg.itersPerRow : Int) ≠ 0 := Int.natCast_ne_zero.mpr hiters
  have hdiv : ((st.iteration : Int)).fdiv cfg.itersPerRow = (victimGroup cfg st : Int) := by
    rw [Int.fdiv_eq_ediv_of_nonneg _ (Int.natCast_nonneg _), victimGroup, Int.natCast_div]
  exact Py.floordiv_eq_ok.mpr ⟨hne, hdiv.symm⟩

/-- The row of an index, as long as there are more rows than the index. -/
theorem getRowForIter_mod {i : Nat} (hi : i ≤ 2 * cfg.distance) (hlt : i < cfg.nrRows) :
    getRowForIter cfg st i = .ok (((victimGroup cfg st + i) % (cfg.nrRows - i) : Nat),
      (cfg.rowMapping.logicalToPhysical ((victimGroup cfg st + i) % (cfg.nrRows - i)) : Nat)) := by
  have hsub : (cfg.nrRows : Int) - (i : Int) = ((cfg.nrRows - i : Nat) : Int) := by omega
  have hmod : Py.mod ((victimGroup cfg st : Int) + i) (cfg.nrRows - i) =
      .ok (((victimGroup cfg st + i) % (cfg.nrRows - i) : Nat) : Int) := by
    apply Py.mod_eq_ok.mpr
    rw [hsub, ← Nat.cast_add, Int.fmod_eq_emod_of_nonneg _ (Int.natCast_nonneg _), Int.natCast_mod]
    exact ⟨by omega, rfl⟩
  unfold getRowForIter
  rw [Py.check_of_pos (by omega), Py.ok_bind, floordiv_iters hiters, Py.ok_bind, hmod, Py.ok_bind,
    RowMapping.logicalToPhysicalInt_natCast]
  rfl

/-- An index is in its place if twice the index fits. -/
theorem getRowForIter_eq {i : Nat} (hi : i ≤ 2 * cfg.distance) (hfits : victimGroup cfg st + 2 * i < cfg.nrRows) :
    getRowForIter cfg st i = .ok (((victimGroup cfg st + i : Nat) : Int), (groupRow cfg st i : Int)) := by
  rw [getRowForIter_mod hiters hi (by omega), Nat.mod_eq_of_lt (by omega)]
  rfl

/-- An index is in its place only if twice the index fits. -/
theorem fits_of_getRowForIter {i : Nat} {row : Int} (hi : i ≤ 2 * cfg.distance)
    (hlt : i < cfg.nrRows) (h : getRowForIter cfg st i = .ok (((victimGroup cfg st + i : Nat) : Int), row)) :
    victimGroup cfg st + 2 * i < cfg.nrRows := by
  rw [getRowForIter_mod hiters hi hlt] at h
  have hrow := Int.natCast_inj.mp (congrArg Prod.fst (Except.ok.inj h))
  have hmod := Nat.mod_lt (victimGroup cfg st + i) (show 0 < cfg.nrRows - i by omega)
  omega

end Rows

/-! ## Payload, ranges and accounting -/

theorem rangeOfRows_natCast (settings : Settings) (mainRamBase : Int) (mainRamSize : Nat) (rowNums : List Nat) :
    rangeOfRows settings mainRamBase mainRamSize (rowNums.map Nat.cast) =
      getRangeFromRows settings mainRamBase mainRamSize rowNums := by
  have hnonneg : ∀ row ∈ rowNums.map (Nat.cast : Nat → Int), 0 ≤ row := by
    intro row hrow
    obtain ⟨n, -, rfl⟩ := List.mem_map.mp hrow
    exact Int.natCast_nonneg n
  have hmap : (rowNums.map (Nat.cast : Nat → Int)).map Int.toNat = rowNums := by
    rw [List.map_map]
    exact List.map_id'' Int.toNat_natCast rowNums
  rw [rangeOfRows, if_pos hnonneg, hmap]

theorem errorsOf_natCast (rowErrors : RowErrors) (row : Nat) :
    errorsOf rowErrors (row : Int) = rowErrors.lookup row := by
  rw [errorsOf, if_pos (Int.natCast_nonneg row), Int.toNat_natCast]

section Group
variable {cfg : Config} {st : State} (hiters : cfg.itersPerRow ≠ 0)
include hiters

theorem hammeredRow_eq (hfits : victimGroup cfg st < cfg.nrRows) {row : Nat} (hrow : firstHammered cfg st = some row) :
    hammeredRow cfg st = .ok (row : Int) := by
  unfold hammeredRow firstHammered at *
  cases hrun : st.runBaseline with
  | false =>
    rw [hrun] at hrow
    cases hrow
    rw [getRowForIter_eq hiters (Nat.zero_le _) hfits]
    rfl
  | true =>
    rw [hrun, if_pos rfl] at hrow
    rw [hrow]
    rfl

theorem payloadRequest_rows (hfits : victimGroup cfg st < cfg.nrRows) {row : Nat}
    (hrow : firstHammered cfg st = some row) (timings : Timings) (bankbits bank payloadMemSize : Nat) :
    ∃ request, payloadRequest cfg st timings bankbits bank payloadMemSize = .ok request ∧
      request.rowSequence = [(cfg.rowMapping.logicalToPhysical row : Int),
        (cfg.rowMapping.logicalToPhysical (row + 2 * cfg.distance) : Int)] := by
  have hne : (cfg.itersPerRow : Int) ≠ 0 := Int.natCast_ne_zero.mpr hiters
  have hstep : Py.mod st.iteration cfg.itersPerRow = .ok _ := Py.mod_eq_ok.mpr ⟨hne, rfl⟩
  have hlast : (row : Int) + 2 * cfg.distance = ((row + 2 * cfg.distance : Nat) : Int) := by push_cast; rfl
  unfold payloadRequest
  rw [hammeredRow_eq hiters hfits hrow, Py.ok_bind, hstep, Py.ok_bind]
  refine ⟨_, rfl, ?_⟩
  dsimp only
  rw [hlast, RowMapping.logicalToPhysicalInt_natCast, RowMapping.logicalToPhysicalInt_natCast]

theorem getMemtestRange_eq (hfits : victimGroup cfg st + 2 * cfg.distance < cfg.nrRows) (settings : Settings)
    (mainRamBase : Int) (mainRamSize : Nat) : getMemtestRange cfg st settings mainRamBase mainRamSize =
      getRangeFromRows settings mainRamBase mainRamSize [groupRow cfg st cfg.distance] := by
  unfold getMemtestRange
  rw [getRowForIter_eq hiters (by omega) hfits]
  exact rangeOfRows_natCast settings mainRamBase mainRamSize [groupRow cfg st cfg.distance]

theorem processErrors_eq (hfits : victimGroup cfg st + 2 * cfg.distance < cfg.nrRows) {step : Int}
    (hstep : stepOf cfg st = .ok step) (rowErrors : RowErrors) : processErrors cfg st rowErrors =
      account cfg step st.runBaseline (nextRun cfg st) (rowErrors.lookup (groupRow cfg st cfg.distance)) := by
  unfold processErrors
  rw [hstep, Py.ok_bind, getRowForIter_eq hiters (by omega) hfits, Py.ok_bind]
  dsimp only
  rw [errorsOf_natCast]

theorem getMemsetRange_eq (hfits : victimGroup cfg st + 4 * cfg.distance < cfg.nrRows) (hfill : cfg.fillLocal = true)
    (settings : Settings) (mainRamBase : Int) (mainRamSize : Nat) :
    getMemsetRange cfg st settings mainRamBase mainRamSize =
      getRangeFromRows settings mainRamBase mainRamSize (group cfg st) := by
  have hrows : (List.range (1 + 2 * cfg.distance)).mapM (getRowForIter cfg st) =
      .ok ((List.range (1 + 2 * cfg.distance)).map fun i =>
        (((victimGroup cfg st + i : Nat) : Int), (groupRow cfg st i : Int))) := by
    apply Py.mapM_eq_ok
    intro i hi
    have hlt := List.mem_range.mp hi
    exact getRowForIter_eq hiters (by omega) (by omega)
  unfold getMemsetRange
  rw [hfill, hrows, if_neg (by decide), Py.ok_bind, ← rangeOfRows_natCast, group, List.map_map, List.map_map]
  rfl

end Group

/-- The range of the group contains each of its rows. -/
theorem rowsSpan_subset_range {settings : Settings} {c : DramAddressConverter} (hs : Supported settings c)
    {rowNums : List Nat} (hne : rowNums ≠ []) (hrows : ∀ row ∈ rowNums, row < 2 ^ c.rowbits) :
    ∃ offset size : Int, getRangeFromRows settings 0x40000000 (moduleSize c) rowNums = .ok (offset, size) ∧
      ∀ row ∈ rowNums, rowsSpan c [row] ⊆ Set.Ico (0x40000000 + offset) (0x40000000 + offset + size) := by
  obtain ⟨hload, a, hport, ha, hbytes⟩ := hs
  obtain ⟨s, hs⟩ := Nat.exists_eq_add_of_le hbytes
  obtain ⟨low, high, hrange, hspan⟩ := exists_range hload hport ha (show a = 3 + c.addressAlign + s by omega) hne hrows
  refine ⟨_, _, hrange, fun row hrow => ?_⟩
  have hstop : (0x40000000 + ((rowBytes c s * low : Nat) : Int) + (((rowBytes c s * (high + 1) : Nat) : Int) -
      (rowBytes c s * low : Nat)) : Int) = 0x40000000 + ((rowBytes c s * (high + 1) : Nat) : Int) := by omega
  rw [hstop, hspan]
  exact rowsSpan_mono c (List.cons_subset.mpr ⟨hrow, List.nil_subset _⟩)

/-- The whole module contains every row. -/
theorem rowsSpan_subset_module (c : DramAddressConverter) (rowNums : List Nat) :
    rowsSpan c rowNums ⊆ Set.Ico (0x40000000 + 0) (0x40000000 + 0 + (moduleSize c : Int)) := by
  intro address haddress
  have hge := haddress.1
  have hlt := haddress.2.1
  exact ⟨by omega, by omega⟩

/-! ## The result -/

/-- **The rows of a victim.** For every configuration, and every iteration whose group fits into `nr_rows`, in a
baseline run or not: the rows are adjacent exactly if another `2 * distance` rows follow the group. -/
theorem adjacent_iff (cfg : Config) (st : State) (hiters : cfg.itersPerRow ≠ 0)
    (hfits : st.iteration / cfg.itersPerRow + 2 * cfg.distance < cfg.nrRows) :
    Adjacent cfg st ↔ st.iteration / cfg.itersPerRow + 4 * cfg.distance < cfg.nrRows := by
  have hgroup : victimGroup cfg st + 2 * cfg.distance < cfg.nrRows := hfits
  constructor
  · intro h
    have htwice := fits_of_getRowForIter hiters le_rfl (by omega) (h.consecutive (2 * cfg.distance) le_rfl)
    unfold victimGroup at htwice
    omega
  · intro h
    have htwice : victimGroup cfg st + 4 * cfg.distance < cfg.nrRows := h
    refine ⟨fun i hi => ?_, fun row timings bankbits bank size hrow => ?_, fun settings base size => ?_,
      fun step hstep rowErrors => ?_, fun hfill settings base size => ?_, fun settings c hs hrows => ?_⟩
    · exact getRowForIter_eq hiters hi (by omega)
    · exact payloadRequest_rows hiters (by omega) hrow timings bankbits bank size
    · exact getMemtestRange_eq hiters hgroup settings base size
    · exact processErrors_eq hiters hgroup hstep rowErrors
    · exact getMemsetRange_eq hiters htwice hfill settings base size
    · cases hfill : cfg.fillLocal with
      | true =>
        rw [getMemsetRange_eq hiters htwice hfill]
        exact rowsSpan_subset_range hs (by simp [group]) hrows
      | false =>
        refine ⟨0, moduleSize c, ?_, fun row _ => rowsSpan_subset_module c [row]⟩
        rw [getMemsetRange, hfill]
        rfl

/-- The minimal example: 32 victims between 34 rows, ten hammer counts each. -/
def minimalConfig : Config :=
  { rowMapping := .TypeARowMapping, nrRows := 34, readCountStep := 10, itersPerRow := 10, maxIteration := 320,
    nrChips := 4, fillLocal := true }

/-- The first victim. -/
theorem adjacent_iff_first : Adjacent minimalConfig (initialState minimalConfig) :=
  (adjacent_iff minimalConfig (initialState minimalConfig) (by decide) (by decide)).mpr (by decide)

/-- The last victim but one. -/
def lateState : State := { iteration := 300, runBaseline := false }

/-- The rows are 30, 31 and 0 in place of 30, 31 and 32, physically 24, 25 and 0. The hammered rows are 30 and 32, and
the filled range ends with row 25. -/
theorem last_group_wraps :
    lateState.iteration / minimalConfig.itersPerRow + 2 * minimalConfig.distance < minimalConfig.nrRows ∧
    lateState.iteration < minimalConfig.maxIteration ∧
    getRowForIter minimalConfig lateState 0 = .ok (30, 24) ∧ getRowForIter minimalConfig lateState 1 = .ok (31, 25) ∧
    getRowForIter minimalConfig lateState 2 = .ok (0, 0) ∧
    (payloadRequest minimalConfig lateState ⟨5, 3, 40, 10⟩ 3 0 1024).map (·.rowSequence) = .ok [24, 32] ∧
    getMemsetRange minimalConfig lateState ddr3Settings 0x40000000 (moduleSize ddr3Converter) =
      getRangeFromRows ddr3Settings 0x40000000 (moduleSize ddr3Converter) [24, 25, 0] ∧
    ¬ Adjacent minimalConfig lateState := by
  have hwrap : getRowForIter minimalConfig lateState 2 = .ok (0, 0) := by decide +kernel
  refine ⟨by decide, by decide, by decide +kernel, by decide +kernel, hwrap, by decide +kernel, by decide +kernel,
    fun h => ?_⟩
  have hrow := h.consecutive 2 (by decide)
  rw [hwrap] at hrow
  exact absurd (congrArg Prod.fst (Except.ok.inj hrow)) (by decide)

end RowhammerTester.Playbook.HammerTolerance
