import RowhammerTester.Playbook.HalfDouble.Phases

/-!
# The rows of a half-double attack

* `RowGenerator.attackRow` : an attack row, relative to the iteration and modulo some number of rows;
* `RowGenerator.generateRows` : the rows to hammer; only the single-sided attack reads an attribute that is missing;
* `aggressors` : what a double-sided attack hammers around its victim;
* `generateRows_eq` : the rows are these as long as the iteration is one of the analysis.
-/

namespace RowhammerTester.Playbook.HalfDouble
open Py

namespace RowGenerator

/-! ## The row generator -/

section Rows
variable (g : RowGenerator) (iteration : Nat)

/-- `attack_rows_start + (iteration + offset) % (max_attack_row_idx - less)`. -/
def attackRow (offset : Nat) (less : Int) : Py Int := do
  let r ← Py.mod (iteration + offset) (g.maxAttackRowIdx - less)
  return g.attackRowsStart + r

/-- The row `i` before those at distance one. -/
def distanceTwoRow (i : Nat) : Py Int :=
  if !g.doubleSided && i % 2 == 0 then .error (.attributeError "decoy_row_start")
  else if g.distanceTwo then
    if i % 2 != 0 && g.doubleSided then attackRow g iteration 4 0
    else attackRow g iteration 0 4
  else if !g.doubleSided || i % 2 == 0 then .ok (g.decoyRowsStart + 1)
  else .ok (g.decoyRowsStart + 2)

/-- The rows next to the victim. -/
def distanceOneRows : Py (List Int) := do
  if !g.distanceOne then return []
  let row ← attackRow g iteration 1 3
  if !g.doubleSided then return [row]
  let row' ← attackRow g iteration 3 1
  return [row, row']

def generateRows (mapping : RowMapping) : Py (List Int) := do
  let distanceTwoRows := g.nrRows - if g.doubleSided then 2 else 1
  let rows ← (List.range distanceTwoRows.toNat).mapM (distanceTwoRow g iteration)
  let rows' ← distanceOneRows g iteration
  return (rows ++ rows').map mapping.logicalToPhysicalInt

end Rows

/-- No attack row wraps around that is below its modulus. -/
theorem attackRow_eq (g : RowGenerator) {iteration offset : Nat} {less : Int}
    (h : (iteration : Int) + offset < g.maxAttackRowIdx - less) :
    g.attackRow iteration offset less = .ok (g.attackRowsStart + iteration + offset) := by
  have hmod : Py.mod ((iteration : Int) + offset) (g.maxAttackRowIdx - less) = .ok (iteration + offset) := by
    rw [Py.mod_eq_ok, Int.fmod_eq_emod_of_nonneg _ (by omega), Int.emod_eq_of_lt (by omega) h]
    exact ⟨by omega, rfl⟩
  unfold attackRow
  rw [hmod, ok_bind, ← Int.add_assoc]
  rfl

end RowGenerator

/-! ## A double-sided attack -/

/-- Two rows in turns, the first one first. -/
def alternate (a b : Int) (n : Nat) : List Int := (List.range n).map fun i => if i % 2 = 0 then a else b

section DoubleSided
variable (g : RowGenerator) (victim : Int)

/-- The rows that a double-sided attack hammers. -/
def aggressors : List Int :=
  (if g.distanceTwo then alternate (victim - 2) (victim + 2) (g.nrRows - 2).toNat
    else alternate (g.decoyRowsStart + 1) (g.decoyRowsStart + 2) (g.nrRows - 2).toNat) ++
  if g.distanceOne then [victim - 1, victim + 1] else []

/-- The decoys of a double-sided attack are not among the attack rows. -/
def DecoysOutside : Prop :=
  ∀ decoy ∈ [g.decoyRowsStart + 1, g.decoyRowsStart + 2],
    decoy < g.attackRowsStart ∨ g.attackRowsStart + g.maxAttackRowIdx ≤ decoy

variable {g victim}

theorem mem_alternate {a b row : Int} {n : Nat} (h : row ∈ alternate a b n) : row = a ∨ row = b := by
  obtain ⟨i, -, rfl⟩ := List.mem_map.mp h
  split
  · exact .inl rfl
  · exact .inr rfl

theorem length_alternate (a b : Int) (n : Nat) : (alternate a b n).length = n := by
  rw [alternate, List.length_map, List.length_range]

theorem length_aggressors (hrows : 2 ≤ g.nrRows) (victim : Int) :
    ((aggressors g victim).length : Int) = g.nrRows - 2 + if g.distanceOne then 2 else 0 := by
  unfold aggressors
  rw [List.length_append, Nat.cast_add, apply_ite List.length, length_alternate, length_alternate, ite_self,
    Int.toNat_of_nonneg (by omega)]
  cases g.distanceOne with
  | true => rfl
  | false => rfl

/-- The victim is not hammered. -/
theorem victim_not_mem_aggressors
    (hvictim : g.attackRowsStart ≤ victim ∧ victim < g.attackRowsStart + g.maxAttackRowIdx)
    (hdecoys : DecoysOutside g) : victim ∉ aggressors g victim := by
  have hdecoy : ∀ decoy ∈ [g.decoyRowsStart + 1, g.decoyRowsStart + 2], victim ≠ decoy := by
    intro decoy hmem
    have hout := hdecoys decoy hmem
    omega
  have hfar : victim ∉ if g.distanceTwo then alternate (victim - 2) (victim + 2) (g.nrRows - 2).toNat
      else alternate (g.decoyRowsStart + 1) (g.decoyRowsStart + 2) (g.nrRows - 2).toNat := by
    intro hmem
    split at hmem
    · rcases mem_alternate hmem with h | h <;> omega
    · rcases mem_alternate hmem with h | h
      · exact hdecoy _ (by simp) h
      · exact hdecoy _ (by simp) h
  have hnear : victim ∉ if g.distanceOne then [victim - 1, victim + 1] else [] := by
    intro hmem
    split at hmem
    · simp only [List.mem_cons, List.not_mem_nil, or_false] at hmem
      omega
    · exact List.not_mem_nil hmem
  intro hmem
  exact (List.mem_append.mp hmem).elim hfar hnear

variable (hsided : g.doubleSided = true) {iteration : Nat} (hiter : (iteration : Int) < g.maxAttackRowIdx - 4)
include hsided hiter

/-- The rows in turns. -/
theorem mapM_distanceTwoRow (n : Nat) :
    (List.range n).mapM (g.distanceTwoRow iteration) = .ok (if g.distanceTwo then
      alternate (g.attackRowsStart + iteration) (g.attackRowsStart + iteration + 4) n
    else alternate (g.decoyRowsStart + 1) (g.decoyRowsStart + 2) n) := by
  have hbefore : g.attackRow iteration 0 4 = .ok (g.attackRowsStart + iteration + 0) :=
    g.attackRow_eq (by omega)
  have hbehind : g.attackRow iteration 4 0 = .ok (g.attackRowsStart + iteration + 4) :=
    g.attackRow_eq (by omega)
  have hrow : ∀ i, g.distanceTwoRow iteration i = .ok (
      if g.distanceTwo then if i % 2 = 0 then g.attackRowsStart + iteration else g.attackRowsStart + iteration + 4
      else if i % 2 = 0 then g.decoyRowsStart + 1 else g.decoyRowsStart + 2) := by
    intro i
    unfold RowGenerator.distanceTwoRow
    rw [hsided, hbefore, hbehind, Int.add_zero]
    by_cases heven : i % 2 = 0
    · cases g.distanceTwo with
      | true => simp [heven]
      | false => simp [heven]
    · cases g.distanceTwo with
      | true => simp [heven]
      | false => simp [heven]
  rw [mapM_eq_ok fun i _ => hrow i]
  cases g.distanceTwo with
  | true => rfl
  | false => rfl

theorem distanceOneRows_eq : g.distanceOneRows iteration = .ok (
    if g.distanceOne then [g.attackRowsStart + iteration + 1, g.attackRowsStart + iteration + 3] else []) := by
  have hbefore : g.attackRow iteration 1 3 = .ok (g.attackRowsStart + iteration + 1) :=
    g.attackRow_eq (by omega)
  have hbehind : g.attackRow iteration 3 1 = .ok (g.attackRowsStart + iteration + 3) :=
    g.attackRow_eq (by omega)
  unfold RowGenerator.distanceOneRows
  rw [hsided, hbefore, hbehind]
  cases g.distanceOne with
  | true => rfl
  | false => rfl

end DoubleSided

/-- **The geometry of the attack.** For every double-sided configuration with at least two rows and decoys outside of
the attack rows, every mapping and every iteration of the analysis: the victim is the row two behind the start and the
iteration, the rows are those two before and two behind it in turns, or else the decoys, and then those next to it, as
the flags say, all of them mapped; and the victim is none of them. -/
theorem generateRows_eq (g : RowGenerator) (mapping : RowMapping) (hsided : g.doubleSided = true) (hrows : 2 ≤ g.nrRows)
    (hdecoys : DecoysOutside g) (iteration : Nat) (hiter : (iteration : Int) < g.maxAttackRowIdx - 4) :
    ∃ victim, g.getLogicalVictim iteration = .ok victim ∧ victim = g.attackRowsStart + iteration + 2 ∧
      g.generateRows iteration mapping = .ok ((aggressors g victim).map mapping.logicalToPhysicalInt) ∧
      ((aggressors g victim).length : Int) = g.nrRows - 2 + (if g.distanceOne then 2 else 0) ∧
      mapping.logicalToPhysicalInt victim ∉ (aggressors g victim).map mapping.logicalToPhysicalInt := by
  have hvictim : g.attackRow iteration 2 2 = .ok (g.attackRowsStart + iteration + 2) := g.attackRow_eq (by omega)
  refine ⟨_, hvictim, rfl, ?_, length_aggressors hrows _, ?_⟩
  · have hbefore : g.attackRowsStart + iteration + 2 - 2 = g.attackRowsStart + iteration := by omega
    have hbehind : g.attackRowsStart + iteration + 2 + 2 = g.attackRowsStart + iteration + 4 := by omega
    have hnear : g.attackRowsStart + iteration + 2 - 1 = g.attackRowsStart + iteration + 1 := by omega
    have hnear' : g.attackRowsStart + iteration + 2 + 1 = g.attackRowsStart + iteration + 3 := by omega
    unfold RowGenerator.generateRows aggressors
    rw [hsided, if_pos rfl]
    dsimp only
    rw [mapM_distanceTwoRow hsided hiter, ok_bind, distanceOneRows_eq hsided hiter, hbefore, hbehind, hnear, hnear']
    rfl
  · rw [List.mem_map_of_injective mapping.logicalToPhysicalInt_injective]
    exact victim_not_mem_aggressors ⟨by omega, by omega⟩ hdecoys

/-- The last victim of the analysis of 32 victims. -/
def exampleGenerator : RowGenerator := ⟨116, true, true, true, 0, 36, 36⟩

theorem generateRows_eq_last : exampleGenerator.doubleSided = true ∧ 2 ≤ exampleGenerator.nrRows ∧
    DecoysOutside exampleGenerator ∧ ((31 : Nat) : Int) < exampleGenerator.maxAttackRowIdx - 4 ∧
    ∃ victim, exampleGenerator.getLogicalVictim 31 = .ok victim ∧
      victim = exampleGenerator.attackRowsStart + (31 : Nat) + 2 ∧
      exampleGenerator.generateRows 31 .TypeARowMapping =
        .ok ((aggressors exampleGenerator victim).map RowMapping.TypeARowMapping.logicalToPhysicalInt) ∧
      ((aggressors exampleGenerator victim).length : Int) =
        exampleGenerator.nrRows - 2 + (if exampleGenerator.distanceOne then 2 else 0) ∧
      RowMapping.TypeARowMapping.logicalToPhysicalInt victim ∉
        (aggressors exampleGenerator victim).map RowMapping.TypeARowMapping.logicalToPhysicalInt := by
  have hdecoys : DecoysOutside exampleGenerator := by
    unfold DecoysOutside
    decide
  exact ⟨rfl, by decide, hdecoys, by decide,
    generateRows_eq exampleGenerator .TypeARowMapping rfl (by decide) hdecoys 31 (by decide)⟩

end RowhammerTester.Playbook.HalfDouble
