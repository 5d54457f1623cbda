import RowhammerTester.Gateware.Codec
import RowhammerTester.Gateware.Interp

/-!
# Programs made of loops around straight-line code

* `Decoder.ofSpec g spec` : what the decoder makes of an encoded specification;
* `Loop` : a body and the count of the LOOP behind it; `Loop.code` its instructions, `Loop.unroll` what it executes;
* `Loads mem words` : a payload memory that holds `words` from address 0 on; `Executes g mem tr` : running it visits
  `tr`;
* `steps_loops` : a sequence of loops runs through its unrolled instructions.
-/

namespace RowhammerTester.Gateware
open RowhammerTester.Hdl Encoder Interp

/-- The decoded word of a specification. -/
def Decoder.ofSpec (g : Geometry) (spec : I) : Decoder := Decoder.decode g (word spec)

/-- The instruction has the op code `op`. -/
def Decoder.Is (op : OpCode) (i : Decoder) : Prop := i.opCode = op.value

instance (op : OpCode) (i : Decoder) : Decidable (i.Is op) := inferInstanceAs (Decidable (_ = _))

theorem not_is_of_is {op op' : OpCode} (hne : op ≠ op') {i : Decoder} (h : i.Is op) : ¬ i.Is op' := by
  unfold Decoder.Is at h ⊢
  rw [h, OpCode.value_inj]
  exact hne

theorem command_of_is {op : OpCode} (hop : isDfi op) {i : Decoder} (h : i.Is op) : i.IsCommand := by
  unfold Decoder.Is at h
  unfold Decoder.IsCommand
  rw [h]
  cases op <;> first | exact absurd hop (by decide) | decide

section OfSpec
variable (g : Geometry)

theorem is_loop (count jump : Nat) : (Decoder.ofSpec g (I.loop count jump)).Is .LOOP := (decode_loop g count jump).1

theorem is_noop (timeslice : Nat) : (Decoder.ofSpec g (I.noop timeslice)).Is .NOOP := (decode_noop g timeslice).1

theorem is_dfi {op : OpCode} (hop : isDfi op) (timeslice : Nat) (address : Option Nat) :
    (Decoder.ofSpec g (I.dfi op timeslice address)).Is op := (decode_dfi g hop timeslice address).1

theorem cycles_loop (count jump : Nat) : (Decoder.ofSpec g (I.loop count jump)).cycles = 1 :=
  if_pos (is_loop g count jump)

theorem cycles_noop (timeslice : Nat) :
    (Decoder.ofSpec g (I.noop timeslice)).cycles = max 1 (timeslice % 2 ^ 29) := by
  have hl : ¬ (Decoder.ofSpec g (I.noop timeslice)).IsLoop := not_is_of_is (by decide) (is_noop g timeslice)
  rw [Decoder.cycles, if_neg hl, Decoder.ofSpec, (decode_noop g timeslice).2.1]

theorem not_isLoop_dfi {op : OpCode} (hop : isDfi op) (timeslice : Nat) (address : Option Nat) :
    ¬ (Decoder.ofSpec g (I.dfi op timeslice address)).IsLoop := by
  refine not_is_of_is ?_ (is_dfi g hop timeslice address)
  rintro rfl
  exact absurd hop (by decide)

theorem cycles_dfi {op : OpCode} (hop : isDfi op) (timeslice : Nat) (address : Option Nat) :
    (Decoder.ofSpec g (I.dfi op timeslice address)).cycles = max 1 (timeslice % 2 ^ 5) := by
  rw [Decoder.cycles, if_neg (not_isLoop_dfi g hop timeslice address), Decoder.ofSpec,
    (decode_dfi g hop timeslice address).2.1]

theorem plain_dfi {op : OpCode} (hop : isDfi op) (timeslice : Nat) (address : Option Nat) :
    Plain (Decoder.ofSpec g (I.dfi op timeslice address)) :=
  ⟨not_isLoop_dfi g hop timeslice address, (decode_dfi g hop timeslice address).2.2.2⟩

theorem plain_noop {timeslice : Nat} (h : timeslice % 2 ^ 29 ≠ 0) : Plain (Decoder.ofSpec g (I.noop timeslice)) := by
  refine ⟨?_, ?_⟩
  · exact not_is_of_is (by decide) (is_noop g timeslice)
  · rw [Decoder.ofSpec, (decode_noop g timeslice).2.2]
    exact decide_eq_false h

theorem stop_noop {timeslice : Nat} (h : timeslice % 2 ^ 29 = 0) :
    (Decoder.ofSpec g (I.noop timeslice)).stop = true := by
  rw [Decoder.ofSpec, (decode_noop g timeslice).2.2]
  exact decide_eq_true h

end OfSpec

/-! ## Loops -/

structure Loop where
  body : List I
  count : Nat

namespace Loop

/-- The LOOP instruction, which jumps back over the body. -/
def jump (l : Loop) : I := I.loop l.count l.body.length

/-- The instructions of a loop. -/
def code (l : Loop) : List I := l.body ++ [l.jump]

/-- What a loop executes. -/
def unroll (l : Loop) : List I := (List.replicate (l.count + 1) l.code).flatten

/-- The passes through loops one after the other. -/
def passes (loops : List Loop) : List (List I) := loops.flatMap fun l => List.replicate (l.count + 1) l.code

theorem flatMap_unroll (loops : List Loop) : loops.flatMap unroll = (passes loops).flatten := by
  unfold passes
  induction loops with
  | nil => rfl
  | cons l loops ih => rw [List.flatMap_cons, List.flatMap_cons, List.flatten_append, ih, unroll]

/-- A LOOP in the code of loops is the one of a loop, and stands behind its body. -/
theorem exists_of_jump {loops : List Loop} (hbody : ∀ l ∈ loops, ∀ i ∈ l.body, i.opCode ≠ .LOOP) : ∀ {k : Nat} {i : I},
    (loops.flatMap code)[k]? = some i → i.opCode = .LOOP →
    ∃ pre l post, loops = pre ++ l :: post ∧ k = (pre.flatMap code).length + l.body.length ∧ i = l.jump := by
  induction loops with
  | nil =>
    intro k i hk
    cases hk
  | cons l loops ih =>
    intro k i hk hi
    obtain ⟨hl, hloops⟩ := List.forall_mem_cons.mp hbody
    have hlen : l.code.length = l.body.length + 1 := List.length_append
    rw [List.flatMap_cons] at hk
    rcases Nat.lt_trichotomy k l.body.length with hlt | rfl | hgt
    · rw [List.getElem?_append_left (by omega), code, List.getElem?_append_left hlt] at hk
      exact absurd hi (hl i (List.mem_of_getElem? hk))
    · rw [List.getElem?_append_left (by omega), code, List.getElem?_concat_length] at hk
      exact ⟨[], l, loops, rfl, (Nat.zero_add _).symm, (Option.some.inj hk).symm⟩
    · rw [List.getElem?_append_right (by omega)] at hk
      obtain ⟨pre, l', post, rfl, hk', hjump⟩ := ih hloops hk hi
      refine ⟨l :: pre, l', post, rfl, ?_, hjump⟩
      rw [List.flatMap_cons, List.length_append]
      omega

/-- The loop is straight-line code that its LOOP can jump over. -/
structure Ok (g : Geometry) (l : Loop) : Prop where
  plain : ∀ i ∈ l.body, Plain (Decoder.ofSpec g i)
  count_lt : l.count < 2 ^ 12
  length_lt : l.body.length < 2 ^ 17

end Loop

/-- A loop runs through its unrolled instructions. -/
theorem steps_unroll {g : Geometry} {fetch : Nat → Decoder} {l : Loop} (hl : l.Ok g) {base : Nat}
    (hc : CodeAt fetch base (l.code.map (Decoder.ofSpec g))) :
    ∃ tr, Steps fetch ⟨base, 0⟩ tr ⟨base + l.code.length, 0⟩ ∧
      tr.map Visit.instr = l.unroll.map (Decoder.ofSpec g) := by
  obtain ⟨hop, hcount, hjump, hstop⟩ := decode_loop g l.count l.body.length
  rw [Nat.mod_eq_of_lt hl.count_lt] at hcount
  rw [Nat.mod_eq_of_lt hl.length_lt] at hjump
  rw [Loop.code, List.map_append, List.map_singleton] at hc
  have hplain : ∀ i ∈ l.body.map (Decoder.ofSpec g), Plain i := by
    intro i hi
    obtain ⟨spec, hspec, rfl⟩ := List.mem_map.mp hi
    exact hl.plain spec hspec
  obtain ⟨tr, htr, hmap⟩ := steps_loop hplain hop hstop (by rw [List.length_map]; exact hjump) hc
  refine ⟨tr, ?_, ?_⟩
  · rw [List.length_map] at htr
    rw [Loop.code, List.length_append, List.length_singleton]
    exact htr
  · rw [hmap, Loop.unroll, List.map_flatten, List.map_replicate, Loop.code, List.map_append, List.map_singleton]
    rw [Loop.jump, Decoder.ofSpec, hcount]

/-- Loops one after the other. -/
theorem steps_loops {g : Geometry} {fetch : Nat → Decoder} {loops : List Loop} (hl : ∀ l ∈ loops, l.Ok g) :
    ∀ {base : Nat}, CodeAt fetch base ((loops.flatMap Loop.code).map (Decoder.ofSpec g)) →
    ∃ tr, Steps fetch ⟨base, 0⟩ tr ⟨base + (loops.flatMap Loop.code).length, 0⟩ ∧
      tr.map Visit.instr = (loops.flatMap Loop.unroll).map (Decoder.ofSpec g) := by
  induction loops with
  | nil => intro base _; exact ⟨[], Steps.refl _, rfl⟩
  | cons l loops ih =>
    intro base hc
    rw [List.flatMap_cons, List.map_append] at hc
    obtain ⟨tr, htr, hmap⟩ := steps_unroll (hl l (List.mem_cons_self ..)) hc.left
    obtain ⟨tr', htr', hmap'⟩ := ih (fun l' h => hl l' (List.mem_cons_of_mem _ h)) hc.right
    rw [List.length_map] at htr'
    refine ⟨tr ++ tr', ?_, ?_⟩
    · rw [List.flatMap_cons, List.length_append, ← Nat.add_assoc]
      exact htr.trans htr'
    · rw [List.map_append, hmap, hmap', List.flatMap_cons, List.map_append]

/-! ## Loaded programs -/

/-- The payload memory holds `words` from address 0 on. -/
def Loads (mem : Nat → BitVec 32) (words : List Nat) : Prop :=
  ∀ k (h : k < words.length), mem k = BitVec.ofNat 32 words[k]

/-- A payload memory with `words` at its start and zeros behind them. -/
def loadWords (words : List Nat) (k : Nat) : BitVec 32 := BitVec.ofNat 32 (words.getD k 0)

theorem loads_loadWords (words : List Nat) : Loads (loadWords words) words := by
  intro k hk
  rw [loadWords, List.getD_eq_getElem _ _ hk]

/-- The decoded words of a payload memory. -/
def fetch (g : Geometry) (mem : Nat → BitVec 32) (k : Nat) : Decoder := Decoder.decode g (mem k)

theorem Loads.codeAt {mem : Nat → BitVec 32} {specs : List I} (h : Loads mem (encodePayload specs)) (g : Geometry) :
    CodeAt (fetch g mem) 0 (specs.map (Decoder.ofSpec g)) := by
  intro k hk
  rw [List.length_map] at hk
  have := h k (by rw [encodePayload, List.length_map]; exact hk)
  simp only [fetch, Nat.zero_add, List.getElem_map, this, encodePayload, Decoder.ofSpec, word]

/-- Running the payload memory from address 0 reaches a STOP through the instructions `tr`. -/
def Executes (g : Geometry) (mem : Nat → BitVec 32) (tr : List Visit) : Prop :=
  ∃ fuel, Interp.run (fetch g mem) fuel ⟨0, 0⟩ = some tr

theorem Executes.unique {g : Geometry} {mem : Nat → BitVec 32} {tr tr' : List Visit} (h : Executes g mem tr)
    (h' : Executes g mem tr') : tr = tr' := by
  obtain ⟨_, h⟩ := h
  obtain ⟨_, h'⟩ := h'
  exact run_unique h h'

end RowhammerTester.Gateware
