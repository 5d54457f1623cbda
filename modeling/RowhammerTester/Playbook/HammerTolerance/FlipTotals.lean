import RowhammerTester.Playbook.HammerTolerance.Histograms

/-!
# The histograms and the flips

* `Balanced` : the histograms of beats and chips weigh as much as there are flips; what errors add is balanced;
* `flips_conserved` : bit errors, beats and chips grow by the same number of flips;
* `chipHistogram_iff` : the histogram of the chips with flips is right exactly if all chips of a beat fail together.
-/

namespace RowhammerTester.Playbook.HammerTolerance
open RowhammerTester.Hdl RowhammerTester.Scripts.RowHammer Finset Py

/-! ## Weights -/

/-- The flips of the entries of a histogram of chips. -/
def chipWeight (keys : List (Nat × Nat)) : Nat := (keys.map Prod.snd).sum

theorem chipWeight_append (l l' : List (Nat × Nat)) : chipWeight (l ++ l') = chipWeight l + chipWeight l' := by
  unfold chipWeight
  rw [List.map_append, List.sum_append]

theorem chipWeight_flatMap {α : Type} (f : α → List (Nat × Nat)) (l : List α) :
    chipWeight (l.flatMap f) = (l.map fun a => chipWeight (f a)).sum := by
  induction l with
  | nil => rfl
  | cons a l ih => rw [List.flatMap_cons, chipWeight_append, ih, List.map_cons, List.sum_cons]

theorem chipWeight_chipKeys (n : Nat) (count : Nat → Nat) :
    chipWeight (chipKeys n count) = ∑ chip ∈ range n, count chip := by
  induction n with
  | zero => rfl
  | succ n ih =>
    rw [chipKeys_succ, chipWeight_append, ih, sum_range_succ]
    congr 1
    split
    · exact Nat.add_zero _
    · next h => exact (not_not.mp h).symm

/-- The entries are for up to 512 flips in one of the chips, and every histogram counts the flips. -/
structure Found.Balanced (f : Found) (chips : Nat) : Prop where
  beats_eq : f.beats.sum = f.bits
  chipBeats_eq : chipWeight f.chipBeats = f.bits
  chipReads_eq : chipWeight f.chipReads = f.bits
  beats_le : ∀ k ∈ f.beats, k ≤ 512
  chipBeats_le : ∀ p ∈ f.chipBeats, p.1 < chips ∧ p.2 ≤ 512
  chipReads_le : ∀ p ∈ f.chipReads, p.1 < chips ∧ p.2 ≤ 512

namespace Found.Balanced
variable {chips : Nat}

theorem append {f g : Found} (hf : f.Balanced chips) (hg : g.Balanced chips) : (f.append g).Balanced chips where
  beats_eq := by rw [Found.append, List.sum_append, hf.beats_eq, hg.beats_eq]
  chipBeats_eq := by rw [Found.append, chipWeight_append, hf.chipBeats_eq, hg.chipBeats_eq]
  chipReads_eq := by rw [Found.append, chipWeight_append, hf.chipReads_eq, hg.chipReads_eq]
  beats_le := fun k hk => (List.mem_append.mp hk).elim (hf.beats_le k) (hg.beats_le k)
  chipBeats_le := fun p hp => (List.mem_append.mp hp).elim (hf.chipBeats_le p) (hg.chipBeats_le p)
  chipReads_le := fun p hp => (List.mem_append.mp hp).elim (hf.chipReads_le p) (hg.chipReads_le p)

theorem concat {l : List Found} (h : ∀ f ∈ l, f.Balanced chips) : (Found.concat l).Balanced chips := by
  induction l with
  | nil => exact ⟨rfl, rfl, rfl, by simp [Found.concat], by simp [Found.concat], by simp [Found.concat]⟩
  | cons f l ih =>
    rw [List.forall_mem_cons] at h
    exact h.1.append (ih h.2)

end Found.Balanced

/-! ## A word -/

section Word
variable {nrChips dqBits : Nat} (x : Nat)

theorem mem_chipKeys {n : Nat} {count : Nat → Nat} {p : Nat × Nat} (h : p ∈ chipKeys n count) :
    p.1 < n ∧ p.2 = count p.1 := by
  unfold chipKeys at h
  obtain ⟨hmem, -⟩ := List.mem_filter.mp h
  obtain ⟨chip, hchip, rfl⟩ := List.mem_map.mp hmem
  exact ⟨List.mem_range.mp hchip, rfl⟩

theorem beats_beatFound (bits : Nat) : (beatFound nrChips dqBits x bits).beats.sum = ones x (bits * 64) 64 := by
  unfold beatFound
  split
  · next h => exact h.symm
  · exact Nat.add_zero _

theorem chipBeats_beatFound (h : nrChips * dqBits = 64) (bits : Nat) :
    chipWeight (beatFound nrChips dqBits x bits).chipBeats = ones x (bits * 64) 64 := by
  unfold beatFound
  split
  · next h => exact h.symm
  · rw [chipWeight_chipKeys, ← ones_mul, h]

theorem bits_beatFound (bits : Nat) : (beatFound nrChips dqBits x bits).bits = 0 := by
  unfold beatFound
  split
  · rfl
  · rfl

theorem chipReads_beatFound (bits : Nat) : (beatFound nrChips dqBits x bits).chipReads = [] := by
  unfold beatFound
  split
  · rfl
  · rfl

/-- The chips of the word, each with its bits of all beats, have the ones of the word. -/
theorem sum_chipOnes (h : nrChips * dqBits = 64) : ∑ chip ∈ range nrChips, chipOnes dqBits x chip = ones x 0 512 := by
  calc ∑ chip ∈ range nrChips, chipOnes dqBits x chip
      = ∑ chip ∈ range nrChips, ∑ beat ∈ range 8, ones x (0 + chip * dqBits + beat * (nrChips * dqBits)) dqBits := by
        simp only [chipOnes, h, Nat.zero_add]
    _ = ones x 0 (8 * (nrChips * dqBits)) := ones_strided x 0 8 nrChips dqBits
    _ = ones x 0 512 := by rw [h]

theorem ones_zero_512 : ones x 0 512 = ∑ bits ∈ range 8, ones x (bits * 64) 64 := by
  rw [show 512 = 8 * 64 from rfl, ones_mul]
  simp only [Nat.zero_add]

theorem chipOnes_le (h : nrChips * dqBits = 64) {chip : Nat} (hchip : chip < nrChips) :
    chipOnes dqBits x chip ≤ 512 := by
  calc chipOnes dqBits x chip ≤ ∑ chip ∈ range nrChips, chipOnes dqBits x chip :=
        single_le_sum (fun _ _ => Nat.zero_le _) (mem_range.mpr hchip)
    _ = ones x 0 512 := sum_chipOnes x h
    _ ≤ 512 := ones_le x 0 512

theorem beatFound_le (h : nrChips * dqBits = 64) (bits : Nat) :
    (∀ k ∈ (beatFound nrChips dqBits x bits).beats, k ≤ 512) ∧
      ∀ p ∈ (beatFound nrChips dqBits x bits).chipBeats, p.1 < nrChips ∧ p.2 ≤ 512 := by
  unfold beatFound
  split
  · exact ⟨fun k hk => absurd hk List.not_mem_nil, fun p hp => absurd hp List.not_mem_nil⟩
  · refine ⟨fun k hk => ?_, fun p hp => ?_⟩
    · rw [List.mem_singleton.mp hk]
      exact Nat.le_trans (ones_le x _ 64) (by decide)
    · obtain ⟨hchip, hcount⟩ := mem_chipKeys hp
      have hdq : dqBits ≤ 64 := by
        rw [← h]
        exact Nat.le_mul_of_pos_left _ (by omega)
      rw [hcount]
      exact ⟨hchip, Nat.le_trans (ones_le x _ dqBits) (by omega)⟩

theorem beats_wordFound : (wordFound nrChips dqBits x).beats =
    (List.range 8).flatMap fun bits => (beatFound nrChips dqBits x bits).beats := by
  simp only [wordFound, Found.append, List.append_nil, Found.beats_concat, List.flatMap_map]

theorem chipBeats_wordFound : (wordFound nrChips dqBits x).chipBeats =
    (List.range 8).flatMap fun bits => (beatFound nrChips dqBits x bits).chipBeats := by
  simp only [wordFound, Found.append, List.append_nil, Found.chipBeats_concat, List.flatMap_map]

theorem chipsOfBeats_wordFound : (wordFound nrChips dqBits x).chipsOfBeats =
    (List.range 8).flatMap fun bits => (beatFound nrChips dqBits x bits).chipsOfBeats := by
  simp only [wordFound, Found.append, List.append_nil, Found.chipsOfBeats_concat, List.flatMap_map]

theorem chipReads_wordFound : (wordFound nrChips dqBits x).chipReads = chipKeys nrChips (chipOnes dqBits x) := by
  have hbeats : ((List.range 8).flatMap fun bits => (beatFound nrChips dqBits x bits).chipReads) = [] :=
    List.flatMap_eq_nil_iff.mpr fun bits _ => chipReads_beatFound x bits
  simp only [wordFound, Found.append, Found.chipReads_concat, List.flatMap_map, hbeats, List.nil_append]

theorem bits_wordFound : (wordFound nrChips dqBits x).bits = ones x 0 512 := by
  have hbeats : ((List.range 8).map fun bits => (beatFound nrChips dqBits x bits).bits).sum = 0 := by
    simp only [bits_beatFound]
    rfl
  simp only [wordFound, Found.append, Found.bits_concat, List.map_map, Function.comp_def, hbeats, Nat.zero_add]

/-- What a word adds is balanced if the chips have all bits of a beat. -/
theorem balanced_wordFound (h : nrChips * dqBits = 64) : (wordFound nrChips dqBits x).Balanced nrChips where
  beats_eq := by
    rw [bits_wordFound, ones_zero_512, ← sum_map_range, beats_wordFound, List.flatMap, List.sum_flatten, List.map_map]
    simp only [Function.comp_def, beats_beatFound]
  chipBeats_eq := by
    rw [bits_wordFound, ones_zero_512, ← sum_map_range, chipBeats_wordFound, chipWeight_flatMap]
    simp only [chipBeats_beatFound x h]
  chipReads_eq := by
    rw [bits_wordFound, chipReads_wordFound, chipWeight_chipKeys, sum_chipOnes x h]
  beats_le := by
    intro k hk
    rw [beats_wordFound] at hk
    obtain ⟨bits, -, hk⟩ := List.mem_flatMap.mp hk
    exact (beatFound_le x h bits).1 k hk
  chipBeats_le := by
    intro p hp
    rw [chipBeats_wordFound] at hp
    obtain ⟨bits, -, hp⟩ := List.mem_flatMap.mp hp
    exact (beatFound_le x h bits).2 p hp
  chipReads_le := by
    intro p hp
    rw [chipReads_wordFound] at hp
    obtain ⟨hchip, hcount⟩ := mem_chipKeys hp
    rw [hcount]
    exact ⟨hchip, chipOnes_le x h hchip⟩

end Word

/-! ## All errors -/

theorem ones_eq_bitflips {value expected : Nat} (h : value ^^^ expected < 2 ^ 512) :
    ones (value ^^^ expected) 0 512 = bitflips value expected := by
  generalize hx : value ^^^ expected = x at h
  rw [bitflips, hx, bitcount, bits_eq, List.range_eq_range', count_map_range',
    ones_eq_of_lt (lt_two_pow_bitLength x) (bitLength_le_of_lt h), ones]

/-- An error that the assertions accept: words of 512 bits of which no beat differs in all bits. -/
structure Maskable (e : RowError) : Prop where
  value_lt : e.value < 2 ^ 512
  expected_lt : e.expected < 2 ^ 512
  beat : ∀ beat < 8, ∃ i < 64, e.value.testBit (beat * 64 + i) = e.expected.testBit (beat * 64 + i)

theorem Maskable.countable {e : RowError} (h : Maskable e) : Countable (e.value ^^^ e.expected) where
  lt := bitLength_le_iff.mp ((bitLength_xor_le _ _).trans
    (max_le (bitLength_le_of_lt h.value_lt) (bitLength_le_of_lt h.expected_lt)))
  beat := by
    intro beat hbeat
    obtain ⟨i, hi, heq⟩ := h.beat beat hbeat
    apply ones_lt _ _ hi
    rw [Nat.testBit_xor, heq, Bool.xor_self]

section Errors
variable {nrChips dqBits : Nat} {errors : List RowError}

theorem balanced_errorsFound (h : nrChips * dqBits = 64) (errors : List RowError) :
    (errorsFound nrChips dqBits errors).Balanced nrChips := by
  unfold errorsFound
  apply Found.Balanced.concat
  intro f hf
  obtain ⟨e, -, rfl⟩ := List.mem_map.mp hf
  exact balanced_wordFound _ h

theorem bits_errorsFound (h : ∀ e ∈ errors, Countable (e.value ^^^ e.expected)) :
    (errorsFound nrChips dqBits errors).bits = flips errors := by
  rw [errorsFound, Found.bits_concat, List.map_map, flips]
  apply congrArg List.sum
  apply List.map_congr_left
  intro e he
  rw [Function.comp_apply, bits_wordFound, ones_eq_bitflips (h e he).lt]

end Errors

/-! ## Conservation -/

/-- The flips of the entries for beats, with up to `N - 1` flips. -/
def beatTotal (d : Int × Nat → Nat) (step : Int) (N : Nat) : Nat := ∑ k ∈ range N, k * d (step, k)

/-- The flips of the entries for the first chips, with up to `N - 1` flips. -/
def chipTotal (d : Int × Nat × Nat → Nat) (step : Int) (chips N : Nat) : Nat :=
  ∑ p ∈ range chips ×ˢ range N, p.2 * d (step, p)

theorem beatTotal_tally (d : Int × Nat → Nat) (step : Int) {keys : List Nat} {N : Nat} (h : ∀ k ∈ keys, k < N) :
    beatTotal (tally d (keys.map (step, ·))) step N = beatTotal d step N + keys.sum := by
  have hsum := sum_tally d (Prod.mk_right_injective step) id (s := range N) (l := keys)
    fun k hk => mem_range.mpr (h k hk)
  rw [List.map_id] at hsum
  exact hsum

theorem chipTotal_tally (d : Int × Nat × Nat → Nat) (step : Int) {keys : List (Nat × Nat)} {chips N : Nat}
    (h : ∀ p ∈ keys, p.1 < chips ∧ p.2 < N) :
    chipTotal (tally d (keys.map (step, ·))) step chips N = chipTotal d step chips N + chipWeight keys :=
  sum_tally d (Prod.mk_right_injective step) Prod.snd fun p hp =>
    mem_product.mpr ⟨mem_range.mpr (h p hp).1, mem_range.mpr (h p hp).2⟩

/-- What the call adds to the histograms of a step: for each of them the same number of flips. -/
structure Grows (cfg : Config) (step : Int) (s s' : Stats) (n : Nat) : Prop where
  bitErrors : s'.bitErrors step = s.bitErrors step + n
  beatErrors : ∀ N > 512, beatTotal s'.beatErrors step N = beatTotal s.beatErrors step N + n
  chipErrorsPerBeat : ∀ chips ≥ cfg.nrChips, ∀ N > 512,
    chipTotal s'.chipErrorsPerBeat step chips N = chipTotal s.chipErrorsPerBeat step chips N + n
  chipErrorsPerRead : ∀ chips ≥ cfg.nrChips, ∀ N > 512,
    chipTotal s'.chipErrorsPerRead step chips N = chipTotal s.chipErrorsPerRead step chips N + n

theorem Found.Balanced.grows {cfg : Config} {f : Found} (hf : f.Balanced cfg.nrChips) (step : Int) (s : Stats) :
    Grows cfg step s (s.add step f) f.bits where
  bitErrors := Function.update_self step _ _
  beatErrors := by
    intro N hN
    rw [← hf.beats_eq]
    exact beatTotal_tally _ step fun k hk => lt_of_le_of_lt (hf.beats_le k hk) hN
  chipErrorsPerBeat := by
    intro chips hchips N hN
    rw [← hf.chipBeats_eq]
    exact chipTotal_tally _ step fun p hp =>
      ⟨lt_of_lt_of_le (hf.chipBeats_le p hp).1 hchips, lt_of_le_of_lt (hf.chipBeats_le p hp).2 hN⟩
  chipErrorsPerRead := by
    intro chips hchips N hN
    rw [← hf.chipReads_eq]
    exact chipTotal_tally _ step fun p hp =>
      ⟨lt_of_lt_of_le (hf.chipReads_le p hp).1 hchips, lt_of_le_of_lt (hf.chipReads_le p hp).2 hN⟩

/-- **Conservation.** For every number of chips that divides 64, the call gets through a list of errors with words of
512 bits of which no beat differs in all bits, and the histograms of the step grow by the flips of the errors: the
entries of any number of flips together, as there are none above 512. -/
theorem flips_conserved (cfg : Config) (hdvd : cfg.nrChips ∣ 64) (step : Int) (errors : List RowError)
    (h : ∀ e ∈ errors, Maskable e) (s : Stats) :
    ∃ s', gatherFullStats cfg step errors s = .ok s' ∧ Grows cfg step s s' (flips errors) := by
  have hcount : ∀ e ∈ errors, Countable (e.value ^^^ e.expected) := fun e he => (h e he).countable
  have hchips : cfg.nrChips ≠ 0 := fun hzero => by rw [hzero] at hdvd; revert hdvd; decide
  refine ⟨_, (gatherFullStats_eq_ok cfg step errors s _).mpr ⟨hchips, hcount, rfl⟩, ?_⟩
  rw [← bits_errorsFound hcount]
  exact (balanced_errorsFound (Nat.mul_div_cancel' hdvd) errors).grows step s

/-- Three flips in two beats of a word. -/
def threeFlips : List RowError := [⟨0, 2 ^ 64 + 5, 0⟩]

theorem maskable_threeFlips : ∀ e ∈ threeFlips, Maskable e := by
  intro e he
  rw [List.mem_singleton.mp he]
  have hlt : 2 ^ 64 + 5 < 2 ^ 512 := by
    rw [← bitLength_le_iff]
    decide
  refine ⟨hlt, Nat.zero_lt_of_lt hlt, fun beat hbeat => ⟨63, by decide, ?_⟩⟩
  revert beat
  decide

/-- A module of four chips. -/
def fourChips : Config :=
  { rowMapping := .TrivialRowMapping, nrRows := 34, readCountStep := 10, itersPerRow := 10, maxIteration := 320,
    nrChips := 4 }

theorem flips_conserved_threeFlips : fourChips.nrChips ∣ 64 ∧ flips threeFlips = 3 ∧
    ∃ s', gatherFullStats fourChips 10 threeFlips {} = .ok s' ∧ Grows fourChips 10 {} s' (flips threeFlips) :=
  ⟨by decide, by decide, flips_conserved fourChips (by decide) 10 threeFlips maskable_threeFlips {}⟩

/-! ## Chips with flips -/

/-- The beat has a flip in the chip. -/
abbrev ChipFlipped (nrChips x beat chip : Nat) : Prop := 0 < ones x (beat * 64 + chip * (64 / nrChips)) (64 / nrChips)

/-- The chips with flips in a beat. -/
def flippedChips (nrChips x beat : Nat) : Finset Nat := (range nrChips).filter (ChipFlipped nrChips x beat)

/-- The beats with flips in `k` chips. -/
def beatsWithChips (nrChips x k : Nat) : Finset Nat :=
  (range 8).filter fun beat => (flippedChips nrChips x beat).card = k

/-- The beats with flips. -/
def flippedBeats (x : Nat) : Finset Nat := (range 8).filter fun beat => 0 < ones x (beat * 64) 64

section Chips
variable {nrChips : Nat} {x : Nat}

/-- A beat has flips if one of its chips has. -/
theorem flippedChips_nonempty (h : nrChips ∣ 64) (beat : Nat) :
    0 < ones x (beat * 64) 64 ↔ 0 < (flippedChips nrChips x beat).card := by
  have hsum := ones_mul x (beat * 64) nrChips (64 / nrChips)
  rw [Nat.mul_div_cancel' h] at hsum
  rw [hsum, sum_pos_iff, card_pos]
  simp only [flippedChips, filter_nonempty_iff]

/-- What the loops count: every beat with flips under the number of all chips. -/
theorem count_chipsOfBeats (hpos : 0 < nrChips) (k : Nat) :
    (wordFound nrChips (64 / nrChips) x).chipsOfBeats.count k = if k = nrChips then (flippedBeats x).card else 0 := by
  have hbeat : ∀ beat, (beatFound nrChips (64 / nrChips) x beat).chipsOfBeats =
      if 0 < ones x (beat * 64) 64 then [nrChips] else [] := by
    intro beat
    unfold beatFound
    rw [if_pos hpos]
    split
    · next h => rw [h, if_neg (Nat.lt_irrefl 0)]
    · next h => rw [if_pos (Nat.pos_of_ne_zero h)]
  rw [chipsOfBeats_wordFound, List.count_flatMap, sum_map_range, flippedBeats, card_filter]
  simp only [Function.comp_def, hbeat]
  split
  · next h =>
    subst h
    apply sum_congr rfl
    intro beat _
    split
    · exact List.count_singleton_self
    · exact List.count_nil
  · next h =>
    apply sum_eq_zero
    intro beat _
    split
    · exact List.count_eq_zero_of_not_mem (by simpa using h)
    · exact List.count_nil

theorem mem_beatsWithChips {k beat : Nat} :
    beat ∈ beatsWithChips nrChips x k ↔ beat < 8 ∧ (flippedChips nrChips x beat).card = k := by
  rw [beatsWithChips, mem_filter, mem_range]

theorem beatsWithChips_subset (h : nrChips ∣ 64) {k : Nat} (hk : 1 ≤ k) :
    beatsWithChips nrChips x k ⊆ flippedBeats x := by
  intro beat hbeat
  obtain ⟨hlt, hcard⟩ := mem_beatsWithChips.mp hbeat
  rw [flippedBeats, mem_filter, mem_range]
  exact ⟨hlt, (flippedChips_nonempty h beat).mpr (by omega)⟩

/-- All chips of a beat are flipped. -/
theorem card_flippedChips_eq_iff (beat : Nat) :
    (flippedChips nrChips x beat).card = nrChips ↔ ∀ chip < nrChips, ChipFlipped nrChips x beat chip := by
  have hcard := card_filter_eq_iff (s := range nrChips) (p := ChipFlipped nrChips x beat)
  rw [card_range] at hcard
  rw [flippedChips, hcard]
  simp only [mem_range]

theorem flipped_of_card_eq (h : nrChips ∣ 64) (hpos : 0 < nrChips)
    (hcard : (beatsWithChips nrChips x nrChips).card = (flippedBeats x).card) {beat : Nat} (hbeat : beat < 8)
    (hflip : 0 < ones x (beat * 64) 64) : ∀ chip < nrChips, ChipFlipped nrChips x beat chip := by
  have hsets := eq_of_subset_of_card_le (beatsWithChips_subset (x := x) h hpos) hcard.ge
  have hmem : beat ∈ flippedBeats x := mem_filter.mpr ⟨mem_range.mpr hbeat, hflip⟩
  rw [← hsets] at hmem
  exact (card_flippedChips_eq_iff beat).mp (mem_beatsWithChips.mp hmem).2

/-- Where a flip is in all chips, the beats are counted as they are. -/
theorem card_beatsWithChips (h : nrChips ∣ 64)
    (hall : ∀ beat < 8, 0 < ones x (beat * 64) 64 → ∀ chip < nrChips, ChipFlipped nrChips x beat chip) {k : Nat}
    (hk : 1 ≤ k) : (beatsWithChips nrChips x k).card = if k = nrChips then (flippedBeats x).card else 0 := by
  have hcard : ∀ beat ∈ flippedBeats x, (flippedChips nrChips x beat).card = nrChips := by
    intro beat hbeat
    obtain ⟨hlt, hflip⟩ := mem_filter.mp hbeat
    exact (card_flippedChips_eq_iff beat).mpr (hall beat (mem_range.mp hlt) hflip)
  split
  · next heq =>
    subst heq
    apply congrArg card
    apply Subset.antisymm (beatsWithChips_subset h hk)
    intro beat hbeat
    exact mem_beatsWithChips.mpr ⟨mem_range.mp (mem_filter.mp hbeat).1, hcard beat hbeat⟩
  · next hne =>
    rw [card_eq_zero, eq_empty_iff_forall_notMem]
    intro beat hbeat
    exact hne ((mem_beatsWithChips.mp hbeat).2.symm.trans (hcard beat (beatsWithChips_subset h hk hbeat)))

end Chips

/-- The counts of a list that are below others and have the same sum are the others. -/
theorem sum_map_eq_iff {α : Type} {f g : α → Nat} {l : List α} (h : ∀ a ∈ l, f a ≤ g a) :
    (l.map f).sum = (l.map g).sum ↔ ∀ a ∈ l, f a = g a := by
  induction l with
  | nil => simp
  | cons a l ih =>
    rw [List.forall_mem_cons] at h ⊢
    have hle : (l.map f).sum ≤ (l.map g).sum := List.sum_le_sum h.2
    rw [← ih h.2, List.map_cons, List.map_cons, List.sum_cons, List.sum_cons]
    have ha := h.1
    omega

section Histogram
variable (cfg : Config) (step : Int) (errors : List RowError) (s : Stats)

variable {cfg step errors s} in
theorem chipsWithErrors_add (hpos : 0 < cfg.nrChips) (k : Nat) :
    (s.add step (errorsFound cfg.nrChips (64 / cfg.nrChips) errors)).chipsWithErrorsPerBeat (step, k) =
      s.chipsWithErrorsPerBeat (step, k) + (errors.map fun e =>
        if k = cfg.nrChips then (flippedBeats (e.value ^^^ e.expected)).card else 0).sum := by
  unfold Stats.add
  dsimp only
  rw [tally_map_apply _ (Prod.mk_right_injective step), errorsFound, Found.chipsOfBeats_concat, List.flatMap_map,
    List.count_flatMap]
  simp only [Function.comp_def, count_chipsOfBeats hpos]

/-- The histogram of the step grows by the beats with `k` flipped chips, for every `k`. -/
def ChipsCounted (s' : Stats) : Prop :=
  ∀ k ≥ 1, s'.chipsWithErrorsPerBeat (step, k) = s.chipsWithErrorsPerBeat (step, k) +
    (errors.map fun e => (beatsWithChips cfg.nrChips (e.value ^^^ e.expected) k).card).sum

/-- In every beat with a flip, all chips have one. -/
def AllChipsFlipped : Prop :=
  ∀ e ∈ errors, ∀ beat < 8, 0 < ones (e.value ^^^ e.expected) (beat * 64) 64 →
    ∀ chip < cfg.nrChips, ChipFlipped cfg.nrChips (e.value ^^^ e.expected) beat chip

/-- **The histogram of chips.** For every number of chips that divides 64, the call gets through errors of which no
beat differs in all bits, and whenever it gets through, the entries of the step grow by the numbers of beats with one,
two, ... flipped chips exactly if no beat with a flip has a chip without: the loop counts the chips of a beat with a
flip, not those that have one. -/
theorem chipHistogram_iff (hdvd : cfg.nrChips ∣ 64) :
    ((∀ e ∈ errors, Maskable e) → ∃ s', gatherFullStats cfg step errors s = .ok s') ∧
      ∀ s', gatherFullStats cfg step errors s = .ok s' →
        (ChipsCounted cfg step errors s s' ↔ AllChipsFlipped cfg errors) := by
  have hchips : cfg.nrChips ≠ 0 := fun hzero => by rw [hzero] at hdvd; revert hdvd; decide
  refine ⟨fun h => ⟨_, (gatherFullStats_eq_ok cfg step errors s _).mpr ⟨hchips, fun e he => (h e he).countable, rfl⟩⟩,
    fun s' hok => ?_⟩
  obtain ⟨-, -, rfl⟩ := (gatherFullStats_eq_ok cfg step errors s s').mp hok
  unfold ChipsCounted
  simp only [chipsWithErrors_add (Nat.pos_of_ne_zero hchips), Nat.add_left_cancel_iff]
  have hpos := Nat.pos_of_ne_zero hchips
  constructor
  · intro heq e he beat hbeat hflip
    have hall := heq cfg.nrChips hpos
    simp only [if_true] at hall
    have hcards := (sum_map_eq_iff fun e _ => card_le_card (beatsWithChips_subset hdvd hpos)).mp hall.symm e he
    exact flipped_of_card_eq hdvd hpos hcards hbeat hflip
  · intro hall k hk
    apply congrArg List.sum
    apply List.map_congr_left
    intro e he
    exact (card_beatsWithChips hdvd (hall e he) hk).symm

theorem chipHistogram_iff_threeFlips : fourChips.nrChips ∣ 64 ∧
    ((∀ e ∈ threeFlips, Maskable e) → ∃ s', gatherFullStats fourChips 10 threeFlips {} = .ok s') ∧
      ∀ s', gatherFullStats fourChips 10 threeFlips {} = .ok s' →
        (ChipsCounted fourChips 10 threeFlips {} s' ↔ AllChipsFlipped fourChips threeFlips) :=
  ⟨by decide, chipHistogram_iff fourChips 10 threeFlips {} (by decide)⟩

/-- Both beats have one flipped chip, and are counted as beats with four. -/
theorem one_chip_counted_as_four : (∀ e ∈ threeFlips, Maskable e) ∧
    ∃ s', gatherFullStats fourChips 10 threeFlips {} = .ok s' ∧
      s'.chipsWithErrorsPerBeat (10, 1) = 0 ∧ s'.chipsWithErrorsPerBeat (10, 4) = 2 ∧
      (beatsWithChips 4 (2 ^ 64 + 5) 1).card = 2 ∧ ¬ ChipsCounted fourChips 10 threeFlips {} s' := by
  have hcount : ∀ e ∈ threeFlips, Countable (e.value ^^^ e.expected) := fun e he => (maskable_threeFlips e he).countable
  have hone : (beatsWithChips 4 (2 ^ 64 + 5) 1).card = 2 := by decide +kernel
  have hfour : (flippedBeats (2 ^ 64 + 5)).card = 2 := by decide +kernel
  refine ⟨maskable_threeFlips, _, (gatherFullStats_eq_ok fourChips 10 threeFlips {} _).mpr ⟨by decide, hcount, rfl⟩, ?_,
    ?_, hone, fun h => ?_⟩
  · rw [chipsWithErrors_add (by decide)]
    rfl
  · rw [chipsWithErrors_add (by decide)]
    exact congrArg (0 + ·) hfour
  · have hk := h 1 le_rfl
    rw [chipsWithErrors_add (by decide)] at hk
    have hsum : (0 : Nat) + 0 = 0 + (2 + 0) := by
      rw [← hone]
      exact hk
    exact absurd hsum (by decide)

end Histogram

end RowhammerTester.Playbook.HammerTolerance
