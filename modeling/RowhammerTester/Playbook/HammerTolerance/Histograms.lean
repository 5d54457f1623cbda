import RowhammerTester.Playbook.HammerTolerance.Generator
import RowhammerTester.Hdl.Ones
import RowhammerTester.Tally

/-!
# The histograms of `gather_full_stats`

The flips of a word are counted in the text of its bits, once by beats, once by the chips of every beat and once by the
chips of the whole word.

* `Found` : what errors add to the histograms; `wordFound` : what a word adds, as numbers of ones;
* `gatherFullStats_eq_ok` : the call adds what the words add, if no word is too wide and no beat differs in all bits.
-/

namespace RowhammerTester.Playbook.HammerTolerance
open RowhammerTester.Hdl RowhammerTester.Scripts.RowHammer Finset Py

/-! ## What is found -/

/-- The keys that errors add to the histograms of a step, and the number of flips. -/
structure Found where
  beats : List Nat := []
  chipBeats : List (Nat × Nat) := []
  chipsOfBeats : List Nat := []
  chipReads : List (Nat × Nat) := []
  bits : Nat := 0

namespace Found

def append (f g : Found) : Found :=
  ⟨f.beats ++ g.beats, f.chipBeats ++ g.chipBeats, f.chipsOfBeats ++ g.chipsOfBeats, f.chipReads ++ g.chipReads,
    f.bits + g.bits⟩

/-- One after the other. -/
def concat : List Found → Found
  | [] => {}
  | f :: l => f.append (concat l)

variable (l : List Found)

theorem beats_concat : (concat l).beats = l.flatMap Found.beats := by
  induction l with
  | nil => rfl
  | cons f l ih => rw [concat, append, ih, List.flatMap_cons]

theorem chipBeats_concat : (concat l).chipBeats = l.flatMap Found.chipBeats := by
  induction l with
  | nil => rfl
  | cons f l ih => rw [concat, append, ih, List.flatMap_cons]

theorem chipsOfBeats_concat : (concat l).chipsOfBeats = l.flatMap Found.chipsOfBeats := by
  induction l with
  | nil => rfl
  | cons f l ih => rw [concat, append, ih, List.flatMap_cons]

theorem chipReads_concat : (concat l).chipReads = l.flatMap Found.chipReads := by
  induction l with
  | nil => rfl
  | cons f l ih => rw [concat, append, ih, List.flatMap_cons]

theorem bits_concat : (concat l).bits = (l.map Found.bits).sum := by
  induction l with
  | nil => rfl
  | cons f l ih => rw [concat, append, ih, List.map_cons, List.sum_cons]

end Found

/-- The histograms with what has been found. -/
def Stats.add (s : Stats) (step : Int) (f : Found) : Stats :=
  { s with
    bitErrors := increase s.bitErrors step f.bits
    beatErrors := tally s.beatErrors (f.beats.map (step, ·))
    chipErrorsPerRead := tally s.chipErrorsPerRead (f.chipReads.map (step, ·))
    chipErrorsPerBeat := tally s.chipErrorsPerBeat (f.chipBeats.map (step, ·))
    chipsWithErrorsPerBeat := tally s.chipsWithErrorsPerBeat (f.chipsOfBeats.map (step, ·)) }

section Add
variable {κ : Type} [DecidableEq κ] (d : κ → Nat) (key : κ)

theorem increase_zero : increase d key 0 = d := Function.update_eq_self key d

theorem increase_one : increase d key 1 = tally d [key] := update_eq_tally d key

theorem increase_apply_of_ne {key' : κ} (h : key' ≠ key) (n : Nat) : increase d key n key' = d key' :=
  Function.update_of_ne h _ d

theorem increase_increase (m n : Nat) : increase (increase d key m) key n = increase d key (m + n) := by
  unfold increase
  rw [Function.update_self, Function.update_idem, Nat.add_assoc]

variable (s : Stats) (step : Int)

theorem Stats.add_empty : s.add step {} = s := by
  unfold Stats.add
  simp only [List.map_nil, tally_nil, increase_zero]

theorem Stats.add_add (f g : Found) : (s.add step f).add step g = s.add step (f.append g) := by
  unfold Stats.add Found.append
  simp only [tally_tally, increase_increase, List.map_append]

end Add

/-- The chips with ones, `dqBits` bits each from bit `lo` on, by the number of their ones. -/
def chipKeys (nrChips : Nat) (count : Nat → Nat) : List (Nat × Nat) :=
  ((List.range nrChips).map fun chip => (chip, count chip)).filter (·.2 ≠ 0)

section Words
variable (nrChips dqBits x : Nat)

/-- What a beat adds. -/
def beatFound (bits : Nat) : Found :=
  if ones x (bits * 64) 64 = 0 then {}
  else
    { beats := [ones x (bits * 64) 64]
      chipBeats := chipKeys nrChips fun chip => ones x (bits * 64 + chip * dqBits) dqBits
      chipsOfBeats := if nrChips > 0 then [nrChips] else [] }

/-- The ones of a chip in all beats. -/
def chipOnes (chip : Nat) : Nat := ∑ beat ∈ range 8, ones x (chip * dqBits + beat * 64) dqBits

/-- What a word of differences adds. -/
def wordFound : Found :=
  (Found.concat ((List.range 8).map (beatFound nrChips dqBits x))).append
    { chipReads := chipKeys nrChips (chipOnes dqBits x), bits := ones x 0 512 }

/-- The assertions hold for the word: it has 512 bits, and no beat of it has only ones. -/
structure Countable : Prop where
  lt : x < 2 ^ 512
  beat : ∀ beat < 8, ones x (beat * 64) 64 < 64

end Words

/-- What errors add. -/
def errorsFound (nrChips dqBits : Nat) (errors : List RowError) : Found :=
  Found.concat (errors.map fun e => wordFound nrChips dqBits (e.value ^^^ e.expected))

/-! ## The text of the bits -/

section Text
variable {x : Nat}

/-- The character for a bit: a digit, or padding. -/
def bitChar (x i : Nat) : Char := if i < max 1 (bitLength x) then digit (x.testBit i) else ' '

theorem bitChar_eq_one (x i : Nat) : (bitChar x i == '1') = x.testBit i := by
  unfold bitChar
  split
  · cases x.testBit i with
    | false => rfl
    | true => rfl
  · next h => rw [testBit_of_bitLength_le (by omega)]; rfl

theorem length_flipsText (x : Nat) : (flipsText x).length = max 512 (max 1 (bitLength x)) := by
  rw [flipsText, List.length_reverse, List.length_leftpad, length_binDigits]

theorem length_flipsText_iff : (flipsText x).length = 512 ↔ x < 2 ^ 512 := by
  rw [length_flipsText, ← bitLength_le_iff]
  omega

theorem flipsText_eq (h : x < 2 ^ 512) : flipsText x = (List.range' 0 512).map (bitChar x) := by
  have hle := bitLength_le_of_lt h
  apply List.ext_getElem
  · rw [length_flipsText_iff.mpr h, List.length_map, List.length_range']
  · intro i hi _
    have hdigits : ∀ j (hj : j < (binDigits x).reverse.length), (binDigits x).reverse[j] = digit (x.testBit j) := by
      intro j hj
      have hrev : (binDigits x).reverse = (List.range (max 1 (bitLength x))).map fun b => digit (x.testBit b) := by
        rw [binDigits_eq, ← List.map_reverse, List.reverse_reverse]
      simp only [hrev, List.getElem_map, List.getElem_range]
    have htext : flipsText x = (binDigits x).reverse ++ List.replicate (512 - (binDigits x).length) ' ' := by
      rw [flipsText, List.leftpad, List.reverse_append, List.reverse_replicate]
    simp only [htext, List.getElem_map, List.getElem_range', Nat.zero_add, Nat.one_mul]
    unfold bitChar
    split
    · next hlt =>
      have hlen : i < (binDigits x).reverse.length := by rw [List.length_reverse, length_binDigits]; exact hlt
      rw [List.getElem_append_left hlen, hdigits i hlen]
    · next hge =>
      have hlen : (binDigits x).reverse.length ≤ i := by rw [List.length_reverse, length_binDigits]; omega
      rw [List.getElem_append_right hlen, List.getElem_replicate]

/-- The ones of a slice of the text. -/
theorem count_slice (h : x < 2 ^ 512) {lo len : Nat} (hle : lo + len ≤ 512) :
    (((flipsText x).drop lo).take len).count '1' = ones x lo len := by
  have hslice : ((List.range' 0 512).drop lo).take len = List.range' lo len := by
    apply List.ext_getElem
    · rw [List.length_take, List.length_drop, List.length_range', List.length_range']
      omega
    · intro i _ _
      rw [List.getElem_take, List.getElem_drop, List.getElem_range', List.getElem_range']
      omega
  rw [flipsText_eq h, ← List.map_drop, ← List.map_take, hslice, ones, ← count_map_range' x.testBit, List.count,
    List.count, List.countP_map, List.countP_map]
  apply List.countP_congr
  intro i _
  rw [Function.comp_apply, Function.comp_apply, bitChar_eq_one, beq_iff_eq]

end Text

/-! ## What the loops count -/

theorem sum_map_range (f : Nat → Nat) (n : Nat) : ((List.range n).map f).sum = ∑ i ∈ range n, f i := by
  induction n with
  | zero => rfl
  | succ n ih => rw [List.range_succ, List.map_append, List.sum_append, ih, sum_range_succ, List.map_singleton,
      List.sum_singleton]

theorem chipKeys_succ (n : Nat) (count : Nat → Nat) :
    chipKeys (n + 1) count = chipKeys n count ++ if count n ≠ 0 then [(n, count n)] else [] := by
  unfold chipKeys
  rw [List.range_succ, List.map_append, List.filter_append, List.map_singleton, List.filter_singleton]
  simp

theorem chipKeys_congr {n : Nat} {count count' : Nat → Nat} (h : ∀ chip < n, count chip = count' chip) :
    chipKeys n count = chipKeys n count' := by
  unfold chipKeys
  congr 1
  apply List.map_congr_left
  intro chip hchip
  rw [h chip (List.mem_range.mp hchip)]

section Loops
variable (dqBits : Nat) (step : Int)

/-- The loop over the chips of a beat counts the chips, with and without flips. -/
theorem foldl_gatherChip (beatFlips : List Char) (s : Stats) (c n : Nat) :
    (List.range n).foldl (gatherChip dqBits step beatFlips) (s, c) =
      ({ s with
          chipErrorsPerBeat := tally s.chipErrorsPerBeat
            ((chipKeys n fun chip => ((beatFlips.drop (chip * dqBits)).take dqBits).count '1').map (step, ·)) },
        c + n) := by
  induction n with
  | zero => rfl
  | succ n ih =>
    rw [List.range_succ, List.foldl_append, ih, List.foldl_cons, List.foldl_nil, gatherChip, chipKeys_succ]
    dsimp only
    split
    · rw [List.map_append, ← tally_tally, increase_one]
      rfl
    · rw [List.append_nil]
      rfl

theorem foldl_gatherRead (flipsBin : List Char) (s : Stats) (n : Nat) :
    (List.range n).foldl (gatherRead dqBits step flipsBin) s =
      { s with
        chipErrorsPerRead := tally s.chipErrorsPerRead
          ((chipKeys n fun chip => (extractBits flipsBin (chip * dqBits) 64 dqBits 8).count '1').map (step, ·)) } := by
  induction n with
  | zero => rfl
  | succ n ih =>
    rw [List.range_succ, List.foldl_append, ih, List.foldl_cons, List.foldl_nil, gatherRead, chipKeys_succ]
    split
    · rw [List.map_append, ← tally_tally, increase_one]
      rfl
    · rw [List.append_nil]

theorem chip_le {n chip : Nat} (hn : n * dqBits ≤ 64) (hchip : chip < n) : chip * dqBits + dqBits ≤ 64 := by
  rw [← Nat.succ_mul]
  exact Nat.le_trans (Nat.mul_le_mul_right dqBits hchip) hn

/-- A beat is counted if it has a zero. -/
theorem gatherBeat_eq_ok {x n bits : Nat} (hx : x < 2 ^ 512) (hn : n * dqBits ≤ 64) (hbits : bits < 8)
    {v r : Stats × Nat} : gatherBeat n dqBits step (flipsText x) v bits = .ok r ↔
      ones x (bits * 64) 64 < 64 ∧
        r = (v.1.add step (beatFound n dqBits x bits), v.2 + ones x (bits * 64) 64) := by
  obtain ⟨s, t⟩ := v
  have hbeat : (((flipsText x).drop (bits * 64)).take 64).count '1' = ones x (bits * 64) 64 :=
    count_slice hx (by omega)
  have hchips : (chipKeys n fun chip =>
      (((((flipsText x).drop (bits * 64)).take 64).drop (chip * dqBits)).take dqBits).count '1') =
        chipKeys n fun chip => ones x (bits * 64 + chip * dqBits) dqBits := by
    apply chipKeys_congr
    intro chip hchip
    have hle := chip_le dqBits hn hchip
    rw [List.drop_take, List.take_take, List.drop_drop, min_eq_left (by omega), count_slice hx (by omega)]
  unfold gatherBeat
  dsimp only
  rw [hbeat, bind_eq_ok]
  simp only [check_eq_ok, exists_and_left, exists_const]
  apply and_congr_right
  intro _
  unfold beatFound
  split
  · next h =>
    rw [h, Stats.add_empty, Nat.add_zero]
    exact pure_eq_ok
  · next h =>
    rw [foldl_gatherChip, hchips, Nat.zero_add]
    dsimp only
    unfold Stats.add
    by_cases hpos : n > 0
    · simp only [if_pos hpos, List.map_singleton, List.map_nil, tally_nil, increase_one, increase_zero, pure_eq_ok]
    · simp only [if_neg hpos, List.map_singleton, List.map_nil, tally_nil, increase_one, increase_zero, pure_eq_ok]

theorem foldl_add {α : Type} (F : α → Found) (l : List α) (s : Stats) :
    l.foldl (fun s a => s.add step (F a)) s = s.add step (Found.concat (l.map F)) := by
  induction l generalizing s with
  | nil => exact (s.add_empty step).symm
  | cons a l ih => rw [List.foldl_cons, ih, Stats.add_add, List.map_cons, Found.concat]

theorem foldl_beats (n x : Nat) (l : List Nat) (s : Stats) (t : Nat) :
    l.foldl (fun v beat => (v.1.add step (beatFound n dqBits x beat), v.2 + ones x (beat * 64) 64)) (s, t) =
      (s.add step (Found.concat (l.map (beatFound n dqBits x))),
        t + (l.map fun beat => ones x (beat * 64) 64).sum) := by
  induction l generalizing s t with
  | nil =>
    rw [List.foldl_nil, List.map_nil, Found.concat, Stats.add_empty]
    rfl
  | cons beat l ih =>
    rw [List.foldl_cons, ih, Stats.add_add, List.map_cons, Found.concat, List.map_cons, List.sum_cons, Nat.add_assoc]

theorem gatherBeats_eq_ok {x n : Nat} (hx : x < 2 ^ 512) (hn : n * dqBits ≤ 64) {s : Stats} {r : Stats × Nat} :
    (List.range 8).foldlM (gatherBeat n dqBits step (flipsText x)) (s, 0) = .ok r ↔
      (∀ beat < 8, ones x (beat * 64) 64 < 64) ∧
        r = (s.add step (Found.concat ((List.range 8).map (beatFound n dqBits x))), ones x 0 512) := by
  have hsum : ((List.range 8).map fun beat => ones x (beat * 64) 64).sum = ones x 0 512 := by
    rw [sum_map_range, show 512 = 8 * 64 from rfl, ones_mul]
    simp only [Nat.zero_add]
  rw [foldlM_eq_ok fun beat hbeat v r => gatherBeat_eq_ok dqBits step hx hn (List.mem_range.mp hbeat), foldl_beats,
    hsum, Nat.zero_add]
  simp only [List.mem_range]

theorem chipKeys_extractBits {x n : Nat} (hx : x < 2 ^ 512) (hn : n * dqBits ≤ 64) :
    (chipKeys n fun chip => (extractBits (flipsText x) (chip * dqBits) 64 dqBits 8).count '1') =
      chipKeys n (chipOnes dqBits x) := by
  apply chipKeys_congr
  intro chip hchip
  have hle := chip_le dqBits hn hchip
  rw [extractBits, List.count_flatMap, sum_map_range, chipOnes]
  apply sum_congr rfl
  intro beat hbeat
  have hlt := mem_range.mp hbeat
  rw [Function.comp_apply, count_slice hx (by omega)]

/-- The differences of an error are counted if there are as many bits and a zero in every beat. -/
theorem gatherError_eq_ok {n : Nat} (hn : n * dqBits ≤ 64) {s s' : Stats} {e : RowError} :
    gatherError n dqBits step s e = .ok s' ↔
      Countable (e.value ^^^ e.expected) ∧ s' = s.add step (wordFound n dqBits (e.value ^^^ e.expected)) := by
  obtain ⟨addr, value, expected⟩ := e
  unfold gatherError
  dsimp only
  generalize value ^^^ expected = x
  have hsplit : Countable x ↔ x < 2 ^ 512 ∧ ∀ beat < 8, ones x (beat * 64) 64 < 64 :=
    ⟨fun h => ⟨h.lt, h.beat⟩, fun h => ⟨h.1, h.2⟩⟩
  rw [bind_eq_ok]
  simp only [check_eq_ok, length_flipsText_iff, exists_and_left, exists_const]
  rw [hsplit, and_assoc]
  apply and_congr_right
  intro hx
  rw [bind_eq_ok]
  simp only [gatherBeats_eq_ok dqBits step hx hn, and_assoc, exists_and_left]
  apply and_congr_right
  intro _
  rw [exists_eq_left, foldl_gatherRead, chipKeys_extractBits dqBits hx hn, pure_eq_ok, wordFound, ← Stats.add_add]
  generalize s.add step (Found.concat ((List.range 8).map (beatFound n dqBits x))) = counted
  unfold Stats.add
  simp only [List.map_nil, tally_nil]

end Loops

theorem mul_dqBits_le (nrChips : Nat) : nrChips * (64 / nrChips) ≤ 64 := Nat.mul_div_le 64 nrChips

/-- The call adds what the words add. -/
theorem gatherFullStats_eq_ok (cfg : Config) (step : Int) (errors : List RowError) (s s' : Stats) :
    gatherFullStats cfg step errors s = .ok s' ↔
      cfg.nrChips ≠ 0 ∧ (∀ e ∈ errors, Countable (e.value ^^^ e.expected)) ∧
        s' = s.add step (errorsFound cfg.nrChips (64 / cfg.nrChips) errors) := by
  unfold gatherFullStats errorsFound
  rw [bind_eq_ok]
  simp only [check_eq_ok, exists_and_left, exists_const]
  apply and_congr_right
  intro _
  have hround : ∀ e ∈ errors, ∀ s s', gatherError cfg.nrChips (64 / cfg.nrChips) step s e = .ok s' ↔
      Countable (e.value ^^^ e.expected) ∧
        s' = s.add step (wordFound cfg.nrChips (64 / cfg.nrChips) (e.value ^^^ e.expected)) :=
    fun e _ s s' => gatherError_eq_ok _ step (mul_dqBits_le cfg.nrChips)
  rw [foldlM_eq_ok (P := fun e => Countable (e.value ^^^ e.expected)) (g := fun s e => s.add step
    (wordFound cfg.nrChips (64 / cfg.nrChips) (e.value ^^^ e.expected))) hround, foldl_add]

end RowhammerTester.Playbook.HammerTolerance
