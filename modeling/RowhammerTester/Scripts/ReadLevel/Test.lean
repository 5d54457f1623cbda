import Mathlib.Data.List.Basic
import Mathlib.Data.Nat.Bitwise

/-!
# The test of read leveling

`read_level_test` writes a random pattern, reads it back and compares two bytes of each phase.

* `dataPattern`, `perPhase`, `getByte`, `readLevelTest` : the script, with the words that are read as an argument;
* `wrong i` : the phases in which byte `i` is read back differently; `readLevelTest_eq` : which bytes are compared;
* `getByte_word_above` : the byte behind a phase word, which a pattern value of 256 reaches;
* `readLevelTest_iff` : when the errors of a module are counted.
-/

namespace RowhammerTester.Scripts.ReadLevel

/-! ## The script -/

def getByte (i data : Nat) : Nat := (data &&& (0xff <<< (8 * i))) >>> (8 * i)

/-- The settings that the test reads, with the width and the number of the CSRs of `wrdata`. -/
structure Settings where
  nmodules : Nat
  nphases : Nat
  dataWidth : Nat
  length : Nat

namespace Settings
variable (s : Settings)

def phaseBytes : Nat := s.dataWidth * s.length / 8

/-- The pattern, from the numbers that `rng.randint(0, 256)` gives in turn. -/
def dataPattern (randint : Nat → Nat) : List Nat :=
  (List.range s.nphases).flatMap fun p => (List.range s.phaseBytes).map fun b => randint (p * s.phaseBytes + b)

/-- The bytes of each phase in one word. -/
def perPhase (data : List Nat) : List Nat :=
  (List.range s.nphases).map fun p =>
    (List.range s.phaseBytes).foldl (fun val b => (val <<< 8) ||| data.getD (p * s.phaseBytes + b) 0) 0

/-- The errors of a phase, added to those counted so far. -/
def comparePhase (module errors : Nat) (rdata wdata : Nat) : Nat :=
  [1, 2].foldl (fun errors i =>
    if getByte (i * s.nmodules + module) rdata ≠ getByte (i * s.nmodules + module) wdata then errors + 1
    else errors) errors

/-- The errors of a module; `rdatas` : what `dfii_read` returns for the phases. -/
def readLevelTest (module : Nat) (randint : Nat → Nat) (rdatas : List Nat) : Nat :=
  (rdatas.zip (s.perPhase (s.dataPattern randint))).foldl (fun errors (rdata, wdata) =>
    s.comparePhase module errors rdata wdata) 0

end Settings

/-! ## Bytes -/

section Bytes

theorem getByte_eq (i data : Nat) : getByte i data = (data >>> (8 * i)) % 256 := by
  rw [getByte, Nat.shiftRight_and_distrib, Nat.shiftLeft_shiftRight]
  exact Nat.and_two_pow_sub_one_eq_mod _ 8

theorem getByte_of_lt {i m data : Nat} (h : data < 256 ^ m) (hi : m ≤ i) : getByte i data = 0 := by
  have hpow : 256 ^ m ≤ 2 ^ (8 * i) := by
    rw [Nat.pow_mul]
    exact Nat.pow_le_pow_right (by decide) hi
  rw [getByte_eq, Nat.shiftRight_eq_div_pow, Nat.div_eq_of_lt (lt_of_lt_of_le h hpow)]

/-- What stands above the bytes is kept, but for the lowest bit: a value of 256 reaches it. -/
theorem foldl_shiftRight {d : Nat → Nat} (hd : ∀ b, d b ≤ 256) (l : List Nat) : ∀ (v : Nat) {j : Nat}, 0 < j →
    (l.foldl (fun val b => (val <<< 8) ||| d b) v) >>> (8 * l.length + j) = v >>> j := by
  induction l with
  | nil =>
    intro v j _
    rw [List.foldl_nil, List.length_nil, Nat.mul_zero, Nat.zero_add]
  | cons b l ih =>
    intro v j hj
    have hlow : d b >>> (8 + j) = 0 := by
      have hpow : 2 ^ 9 ≤ 2 ^ (8 + j) := Nat.pow_le_pow_right (by decide) (by omega)
      have hb := hd b
      rw [Nat.shiftRight_eq_div_pow, Nat.div_eq_of_lt (by omega)]
    have hlen : 8 * (b :: l).length + j = 8 * l.length + (8 + j) := by
      rw [List.length_cons]
      omega
    rw [List.foldl_cons, hlen, ih _ (by omega), Nat.shiftRight_or_distrib, hlow, Nat.or_zero, Nat.shiftRight_add,
      Nat.shiftLeft_shiftRight]

end Bytes

/-! ## The words of the phases -/

namespace Settings
variable (s : Settings) (randint : Nat → Nat)

/-- The word of a phase. -/
def word (p : Nat) : Nat :=
  (List.range s.phaseBytes).foldl (fun val b => (val <<< 8) ||| randint (p * s.phaseBytes + b)) 0

theorem flatMap_range_eq (n m : Nat) :
    ((List.range n).flatMap fun p => (List.range m).map fun b => randint (p * m + b)) =
      (List.range (n * m)).map randint := by
  induction n with
  | zero => rw [Nat.zero_mul]; rfl
  | succ n ih =>
    rw [List.range_succ, List.flatMap_append, ih, Nat.succ_mul, List.range_add, List.map_append, List.map_map,
      List.flatMap_singleton]
    rfl

theorem perPhase_dataPattern : s.perPhase (s.dataPattern randint) = (List.range s.nphases).map (s.word randint) := by
  unfold perPhase dataPattern
  rw [flatMap_range_eq]
  apply List.map_congr_left
  intro p hp
  unfold word
  apply List.foldl_ext
  intro val b hb
  have hlt : p * s.phaseBytes + b < s.nphases * s.phaseBytes := by
    rw [List.mem_range] at hp hb
    calc p * s.phaseBytes + b < p * s.phaseBytes + s.phaseBytes := Nat.add_lt_add_left hb _
      _ = (p + 1) * s.phaseBytes := (Nat.succ_mul p _).symm
      _ ≤ s.nphases * s.phaseBytes := Nat.mul_le_mul_right _ hp
  rw [List.getD_eq_getElem _ _ (by rwa [List.length_map, List.length_range]), List.getElem_map, List.getElem_range]

/-- Behind the bytes of a phase there is what its first value has above a byte. -/
theorem getByte_word_above (hrand : ∀ k, randint k ≤ 256) (hpos : 0 < s.phaseBytes) (p m : Nat) :
    getByte (s.phaseBytes + m) (s.word randint p) = if m = 0 then randint (p * s.phaseBytes) / 256 else 0 := by
  unfold word
  generalize s.phaseBytes = bytes at hpos
  obtain ⟨k, rfl⟩ : ∃ k, bytes = k + 1 := ⟨bytes - 1, by omega⟩
  have hfirst := hrand (p * (k + 1))
  have hshift := foldl_shiftRight (d := fun b => randint (p * (k + 1) + (b + 1))) (fun b => hrand _) (List.range k)
    (randint (p * (k + 1))) (j := 8 + 8 * m) (by omega)
  have hword : (List.range (k + 1)).foldl (fun val b => (val <<< 8) ||| randint (p * (k + 1) + b)) 0 =
      (List.range k).foldl (fun val b => (val <<< 8) ||| randint (p * (k + 1) + (b + 1))) (randint (p * (k + 1))) := by
    rw [List.range_succ_eq_map, List.foldl_cons, List.foldl_map, Nat.zero_shiftLeft, Nat.zero_or]
    rfl
  have hlen : 8 * (k + 1 + m) = 8 * k + (8 + 8 * m) := by omega
  rw [List.length_range] at hshift
  rw [getByte_eq, hword, hlen, hshift, Nat.shiftRight_eq_div_pow]
  split
  · next hm =>
    rw [hm, Nat.mod_eq_of_lt]
    have hdiv := Nat.div_le_div_right (c := 2 ^ (8 + 8 * 0)) hfirst
    omega
  · next hm =>
    have hpow : 2 ^ 16 ≤ 2 ^ (8 + 8 * m) := Nat.pow_le_pow_right (by decide) (by omega)
    rw [Nat.div_eq_of_lt (by omega)]

end Settings

/-! ## The errors of a module -/

/-- The phases in which byte `i` is read back differently, for pairs of a word that is read and one that is written. -/
def wrong (i : Nat) (phases : List (Nat × Nat)) : Nat := phases.countP fun (rdata, wdata) =>
  getByte i rdata ≠ getByte i wdata

theorem wrong_cons (i rdata wdata : Nat) (phases : List (Nat × Nat)) : wrong i ((rdata, wdata) :: phases) =
    wrong i phases + if getByte i rdata ≠ getByte i wdata then 1 else 0 := by
  unfold wrong
  rw [List.countP_cons]
  simp only [decide_eq_true_eq]

namespace Settings
variable (s : Settings)

/-- The words that are read and written in each phase. -/
def phases (randint : Nat → Nat) (rdatas : List Nat) : List (Nat × Nat) :=
  rdatas.zip (s.perPhase (s.dataPattern randint))

/-- The errors in the lane of a module: in each phase the bytes `module` and `nmodules + module`. -/
def laneErrors (module : Nat) (randint : Nat → Nat) (rdatas : List Nat) : Nat :=
  ((List.range 2).map fun beat => wrong (beat * s.nmodules + module) (s.phases randint rdatas)).sum

theorem foldl_comparePhase (module : Nat) (phases : List (Nat × Nat)) : ∀ errors : Nat,
    phases.foldl (fun errors (rdata, wdata) => s.comparePhase module errors rdata wdata) errors =
      errors + (wrong (s.nmodules + module) phases + wrong (2 * s.nmodules + module) phases) := by
  induction phases with
  | nil => intro errors; rfl
  | cons phase phases ih =>
    intro errors
    obtain ⟨rdata, wdata⟩ := phase
    rw [List.foldl_cons, ih, wrong_cons, wrong_cons]
    change s.comparePhase module errors rdata wdata + _ = _
    rw [comparePhase, List.foldl_cons, List.foldl_cons, List.foldl_nil, Nat.one_mul]
    split <;> split <;> omega

/-- **The bytes that are compared**: those behind byte `module`, one and two times the modules further. -/
theorem readLevelTest_eq (module : Nat) (randint : Nat → Nat) (rdatas : List Nat) :
    s.readLevelTest module randint rdatas = wrong (s.nmodules + module) (s.phases randint rdatas) +
      wrong (2 * s.nmodules + module) (s.phases randint rdatas) := by
  unfold readLevelTest
  rw [foldl_comparePhase, Nat.zero_add]
  rfl

theorem laneErrors_eq (module : Nat) (randint : Nat → Nat) (rdatas : List Nat) :
    s.laneErrors module randint rdatas = wrong module (s.phases randint rdatas) +
      wrong (s.nmodules + module) (s.phases randint rdatas) := by
  simp [laneErrors, List.range_succ]

/-- Words of the width of a phase do not differ behind it, but for a first value of 256. -/
theorem wrong_above (module : Nat) {randint : Nat → Nat} (hrand : ∀ k, randint k ≤ 256) {rdatas : List Nat}
    (hpos : 0 < s.phaseBytes) (hread : ∀ r ∈ rdatas, r < 256 ^ s.phaseBytes) (hlen : rdatas.length = s.nphases) :
    wrong (s.phaseBytes + module) (s.phases randint rdatas) =
      (List.range s.nphases).countP fun p => module = 0 ∧ randint (p * s.phaseBytes) = 256 := by
  have hsnd : (rdatas.zip (List.range s.nphases)).map Prod.snd = List.range s.nphases := by
    apply List.map_snd_zip
    rw [List.length_range, hlen]
  rw [wrong, phases, perPhase_dataPattern, List.zip_map_right, List.countP_map, ← hsnd, List.countP_map, hsnd]
  apply List.countP_congr
  rintro ⟨r, p⟩ hmem
  have hr := hread r (List.of_mem_zip hmem).1
  have hfirst := hrand (p * s.phaseBytes)
  have hdiff : getByte (s.phaseBytes + module) r ≠ getByte (s.phaseBytes + module) (s.word randint p) ↔
      module = 0 ∧ randint (p * s.phaseBytes) = 256 := by
    rw [getByte_of_lt hr (Nat.le_add_right _ _), s.getByte_word_above randint hrand hpos]
    split <;> omega
  simpa using hdiff

end Settings

/-- **When the errors of a module are counted.** With words of `2 * nmodules` bytes the errors in the lane of a module
are counted exactly if byte `module` is read back differently in no phase; for module 0, in as many phases as have 256
for their first value. -/
theorem readLevelTest_iff (s : Settings) (hbytes : s.phaseBytes = 2 * s.nmodules) {module : Nat}
    (hmodule : module < s.nmodules) {randint : Nat → Nat} (hrand : ∀ k, randint k ≤ 256) {rdatas : List Nat}
    (hlen : rdatas.length = s.nphases) (hread : ∀ r ∈ rdatas, r < 256 ^ s.phaseBytes) :
    s.readLevelTest module randint rdatas = s.laneErrors module randint rdatas ↔
      wrong module (s.phases randint rdatas) =
        (List.range s.nphases).countP fun p => module = 0 ∧ randint (p * s.phaseBytes) = 256 := by
  have habove := s.wrong_above module hrand (by omega) hread hlen
  rw [s.readLevelTest_eq, s.laneErrors_eq, ← habove, ← hbytes]
  omega

/-- One module and one phase, with the bytes 5 and 7. -/
def oneModule : Settings := ⟨1, 1, 16, 1⟩

def fiveSeven (k : Nat) : Nat := if k = 0 then 5 else 7

/-- A difference in byte 1 is counted, -/
theorem readLevelTest_iff_oneModule :
    oneModule.readLevelTest 0 fiveSeven [0x0607] = oneModule.laneErrors 0 fiveSeven [0x0607] :=
  (readLevelTest_iff oneModule rfl (by decide) (fun k => by unfold fiveSeven; split <;> decide) rfl
    (by decide)).mpr (by decide)

/-- one in byte 0 is not. -/
theorem byte_zero_not_tested :
    oneModule.readLevelTest 0 fiveSeven [0x0506] = 0 ∧ oneModule.laneErrors 0 fiveSeven [0x0506] = 1 := by
  decide

end RowhammerTester.Scripts.ReadLevel
