import RowhammerTester.Playbook.Execution

/-!
# The hammer count of a generated payload

* `filter_longLoop` : what a long loop executes, seen through a filter that drops the LOOP instructions;
* `filter_act`, `followed_rows` : the activations of a loop body, each followed by a precharge of all banks;
* `activations_eq` : the payload activates the row sequence `read_count` times.
-/

namespace RowhammerTester.Gateware

/-- `i'` precharges all banks of the rank of `i`. -/
def Decoder.PrechargesAll (i i' : Decoder) : Prop :=
  i'.Is .PRE ∧ i'.dfiAddress.testBit 10 = true ∧ i'.dfiRank = i.dfiRank

/-- The rank, bank and row of an activation. -/
def Decoder.target (i : Decoder) : Nat × Nat × Nat := (i.dfiRank, i.dfiBank, i.dfiAddress)

end RowhammerTester.Gateware

namespace RowhammerTester.Playbook
open RowhammerTester.Hdl RowhammerTester.Gateware Encoder Interp

/-! ## Repeated lists -/

theorem flatten_replicate_flatten {α : Type*} (m n : Nat) (xs : List α) :
    (List.replicate m (List.replicate n xs).flatten).flatten = (List.replicate (m * n) xs).flatten := by
  induction m with
  | zero => simp
  | succ m ih => rw [List.replicate_succ, List.flatten_cons, ih, Nat.succ_mul, Nat.add_comm, List.replicate_add,
      List.flatten_append]

theorem map_flatten_replicate {α β : Type*} (f : α → β) (n : Nat) (xs : List α) :
    (List.replicate n xs).flatten.map f = (List.replicate n (xs.map f)).flatten := by
  rw [List.map_flatten, List.map_replicate]

/-! ## Filtered loops -/

section Filter
variable {g : Geometry} {a : LoopArgs}

/-- The decoded instructions that satisfy `p`. -/
def kept (g : Geometry) (p : Decoder → Bool) (is : List I) : List Decoder := (is.map (Decoder.ofSpec g)).filter p

theorem kept_append (p : Decoder → Bool) (is js : List I) : kept g p (is ++ js) = kept g p is ++ kept g p js := by
  simp [kept]

theorem kept_cons (p : Decoder → Bool) (i : I) (is : List I) :
    kept g p (i :: is) = (if p (Decoder.ofSpec g i) then [Decoder.ofSpec g i] else []) ++ kept g p is := by
  unfold kept
  rw [List.map_cons, List.filter_cons]
  split <;> rfl

theorem kept_unroll {p : Decoder → Bool} (hp : ∀ count jump, p (Decoder.ofSpec g (I.loop count jump)) = false)
    (l : Loop) : kept g p l.unroll = (List.replicate (l.count + 1) (kept g p l.body)).flatten := by
  have hcode : kept g p l.code = kept g p l.body := by
    rw [Loop.code, kept_append, kept_cons, Loop.jump, hp]
    simp [kept]
  rw [Loop.unroll, ← hcode]
  unfold kept
  rw [List.map_flatten, List.map_replicate, List.filter_flatten, List.map_replicate]

/-- A long loop runs its body `iterations rolled n` times. -/
theorem kept_longLoop {p : Decoder → Bool} (hp : ∀ count jump, p (Decoder.ofSpec g (I.loop count jump)) = false)
    (unrolled rolled n : Nat) : kept g p ((longLoop a unrolled rolled n).flatMap Loop.unroll) =
      (List.replicate (iterations rolled n) (kept g p (loopBody a unrolled))).flatten := by
  unfold longLoop iterations
  induction List.range n with
  | nil => rfl
  | cons i idxs ih =>
    rw [List.map_cons, List.flatMap_cons, kept_append, ih, kept_unroll hp, List.map_cons, List.sum_cons,
      ← List.flatten_append, ← List.replicate_add]

end Filter

/-! ## Activations and precharges -/

section Body
variable {g : Geometry} {a : LoopArgs}

theorem not_command_loop (count jump : Nat) : ¬ (Decoder.ofSpec g (I.loop count jump)).IsCommand :=
  fun h => h.2 (is_loop g count jump)

theorem not_command_noop (timeslice : Nat) : ¬ (Decoder.ofSpec g (I.noop timeslice)).IsCommand :=
  fun h => h.1 (is_noop g timeslice)

theorem refresh_not_act {op : OpCode} (h : op = .NOOP ∨ op = .REF) (timeslice : Nat) :
    ¬ (Decoder.ofSpec g (refreshI op timeslice)).Is .ACT := by
  apply not_is_of_is _ (is_refresh h timeslice)
  rcases h with rfl | rfl <;> decide

theorem followed_refresh {B : Decoder → Decoder → Prop} {op : OpCode} (h : op = .NOOP ∨ op = .REF) (timeslice : Nat) :
    Followed (Decoder.Is .ACT) B (kept g (fun i => decide i.IsCommand) [refreshI op timeslice]) := by
  rw [kept_cons]
  split
  · exact followed_of_not (refresh_not_act h timeslice)
  · exact followed_nil

/-- The activations of a loop body. -/
theorem kept_act (hop : a.refreshOp = .NOOP ∨ a.refreshOp = .REF) (rows : List Nat) : ∀ accum : Nat,
    kept g (fun i => decide (i.Is .ACT)) (rowsCode a accum rows) = rows.map fun row =>
      Decoder.ofSpec g (a.act row) := by
  have href : ¬ (Decoder.ofSpec g a.ref).Is .ACT := refresh_not_act hop _
  have hpre : ¬ (Decoder.ofSpec g a.pre).Is .ACT := not_is_of_is (by decide) is_pre
  induction rows with
  | nil => intro accum; rfl
  | cons row rows ih =>
    intro accum
    have hlead : kept g (fun i => decide (i.Is .ACT)) (if a.timings.Due accum then [a.ref] else []) = [] := by
      split
      · rw [kept_cons, decide_eq_false href]
        rfl
      · rfl
    rw [rowsCode, kept_append, hlead, kept_cons, kept_cons, ih, decide_eq_true (is_act row), decide_eq_false hpre]
    rfl

/-- Every activation of a loop body is followed by its precharge. -/
theorem followed_rows {B : Decoder → Decoder → Prop} (hop : a.refreshOp = .NOOP ∨ a.refreshOp = .REF) (rows : List Nat)
    (hB : ∀ row ∈ rows, B (Decoder.ofSpec g (a.act row)) (Decoder.ofSpec g a.pre)) : ∀ accum : Nat,
    Followed (Decoder.Is .ACT) B (kept g (fun i => decide i.IsCommand) (rowsCode a accum rows)) := by
  induction rows with
  | nil => intro accum; exact followed_nil
  | cons row rows ih =>
    intro accum
    rw [rowsCode, kept_append]
    apply followed_append
    · split
      · exact followed_refresh hop _
      · exact followed_nil
    · rw [kept_cons, kept_cons, decide_eq_true (command_of_is rfl (is_act row)),
        decide_eq_true (command_of_is rfl is_pre), ← List.append_assoc]
      apply followed_append
      · exact followed_pair (hB row (List.mem_cons_self ..)) (not_is_of_is (by decide) is_pre)
      · exact ih (fun r hr => hB r (List.mem_cons_of_mem _ hr)) _

end Body

/-! ## Whole payloads -/

namespace RowListArgs
variable {args : RowListArgs} {words : List Nat} {n₁ n₂ : Nat} {g : Geometry}

/-- The payload seen through a filter that drops the NOOPs and LOOPs. -/
theorem kept_executed {p : Decoder → Bool} (hloop : ∀ count jump, p (Decoder.ofSpec g (I.loop count jump)) = false)
    (hnoop : ∀ timeslice, p (Decoder.ofSpec g (I.noop timeslice)) = false) :
    kept g p (args.executed n₁ n₂) =
      (List.replicate (iterations (args.readCount / args.reps) n₁)
        (kept g p (loopBody args.loopArgs args.reps))).flatten ++
      ((List.replicate (iterations (args.readCount % args.reps) n₂) (kept g p (loopBody args.loopArgs 1))).flatten ++
        kept g p [refreshI args.refreshOp 1]) := by
  rw [executed, loops, kept_cons, hnoop, List.flatMap_append, kept_append, kept_append, kept_longLoop hloop,
    kept_longLoop hloop, show [refreshI args.refreshOp 1, I.noop 0] = [refreshI args.refreshOp 1] ++
      [I.noop 0] from rfl,
    kept_append, show kept g p [I.noop 0] = [] by rw [kept_cons, hnoop]; rfl]
  simp

/-- The activations of a payload whose loops are counted exactly. -/
theorem activations_of_lt (hgen : Generated args words n₁ n₂) (hq : args.readCount / args.reps < 2 ^ 53)
    (hr : args.readCount % args.reps < 2 ^ 53) :
    kept g (fun i => decide (i.Is .ACT)) (args.executed n₁ n₂) =
      (List.replicate args.readCount args.rowSequence).flatten.map fun row =>
        Decoder.ofSpec g (args.loopArgs.act row) := by
  have hop := args.refreshOp_cases
  have hnot : ∀ t, decide ((Decoder.ofSpec g (refreshI args.refreshOp t)).Is .ACT) = false :=
    fun t => decide_eq_false (refresh_not_act hop t)
  have hbody : ∀ u, kept g (fun i => decide (i.Is .ACT)) (loopBody args.loopArgs u) =
      (List.replicate u args.rowSequence).flatten.map fun row => Decoder.ofSpec g (args.loopArgs.act row) := by
    intro u
    rw [loopBody, kept_cons, kept_act hop, LoopArgs.ref, show args.loopArgs.refreshOp = args.refreshOp from rfl, hnot]
    rfl
  rw [kept_executed, hbody, hbody, iterations_eq hq hgen.quotient, iterations_eq hr hgen.remainder, kept_cons, hnot]
  · rw [← map_flatten_replicate, ← map_flatten_replicate, flatten_replicate_flatten, flatten_replicate_flatten, kept]
    simp only [Bool.false_eq_true, if_false, List.map_nil, List.filter_nil, List.append_nil]
    rw [← List.map_append, ← List.flatten_append, ← List.replicate_add, Nat.mul_one, Nat.mul_comm, Nat.div_add_mod]
  · intro count jump
    exact decide_eq_false (not_is_of_is (by decide) (is_loop g count jump))
  · intro timeslice
    exact decide_eq_false (not_is_of_is (by decide) (is_noop g timeslice))

/-- **The activations of a payload**: the row sequence, `read_count` times. -/
theorem activations_eq (hgen : Generated args words n₁ n₂) (hlt : args.readCount < 2 ^ 53) :
    kept g (fun i => decide (i.Is .ACT)) (args.executed n₁ n₂) =
      (List.replicate args.readCount args.rowSequence).flatten.map fun row =>
        Decoder.ofSpec g (args.loopArgs.act row) :=
  activations_of_lt hgen (lt_of_le_of_lt (Nat.div_le_self _ _) hlt) (lt_of_le_of_lt (Nat.mod_le _ _) hlt)

/-- Every activation of a payload is followed by its precharge. -/
theorem followed_executed {B : Decoder → Decoder → Prop}
    (hB : ∀ row ∈ args.rowSequence, B (Decoder.ofSpec g (args.loopArgs.act row)) (Decoder.ofSpec g args.loopArgs.pre)) :
    Followed (Decoder.Is .ACT) B (kept g (fun i => decide i.IsCommand) (args.executed n₁ n₂)) := by
  have hop := args.refreshOp_cases
  have hbody : ∀ u, Followed (Decoder.Is .ACT) B
      (kept g (fun i => decide i.IsCommand) (loopBody args.loopArgs u)) := by
    intro u
    rw [loopBody, ← List.singleton_append, kept_append]
    apply followed_append (followed_refresh hop _)
    apply followed_rows hop
    intro row hrow
    obtain ⟨rows, hrows, hmem⟩ := List.mem_flatten.mp hrow
    rw [(List.mem_replicate.mp hrows).2] at hmem
    exact hB row hmem
  rw [kept_executed (fun count jump => decide_eq_false (not_command_loop count jump))
    (fun timeslice => decide_eq_false (not_command_noop timeslice))]
  have hrep : ∀ m u, Followed (Decoder.Is .ACT) B
      (List.replicate m (kept g (fun i => decide i.IsCommand) (loopBody args.loopArgs u))).flatten := by
    intro m u
    apply followed_flatten
    intro xs hxs
    rw [(List.mem_replicate.mp hxs).2]
    exact hbody u
  exact followed_append (hrep _ _) (followed_append (hrep _ _) (followed_refresh hop 1))

/-! ## Addresses -/

section Addresses
variable (hbits : args.bankbits = g.bankbits) (hranks : args.nranks = 2 ^ g.rankbits)
  (hrank : args.rank < 2 ^ g.rankbits)
include hbits hranks hrank

/-- Bits of the bank and the row that the address has no place for are dropped. -/
theorem target_act_mod (row : Nat) : (Decoder.ofSpec g (args.loopArgs.act row)).target =
    (args.rank, args.bank % 2 ^ g.bankbits, row % 2 ^ g.addressbits) := by
  obtain ⟨v, hv, hR, hB, hA⟩ := @decode_dfi_address g .ACT rfl args.timings.tRAS (args.loopArgs.actAddress row)
    args.rank rfl hrank (by simp [LoopArgs.actAddress])
  rw [← hbits, ← hranks] at hv
  rw [show (args.loopArgs.actAddress row).bank = args.bank from rfl] at hB
  rw [show ((args.loopArgs.actAddress row).row.or (args.loopArgs.actAddress row).col).getD 0 = row from rfl] at hA
  have hval : addressValue args.loopArgs.encoder (args.loopArgs.actAddress row) = v := addressValue_eq hv
  rw [LoopArgs.act, hval, Decoder.target]
  exact Prod.ext hR (Prod.ext hB hA)

theorem target_act (hbank : args.bank < 2 ^ g.bankbits) {row : Nat} (hrow : row < 2 ^ g.addressbits) :
    (Decoder.ofSpec g (args.loopArgs.act row)).target = (args.rank, args.bank, row) := by
  rw [target_act_mod hbits hranks hrank, Nat.mod_eq_of_lt hbank, Nat.mod_eq_of_lt hrow]

theorem prechargesAll_pre (hbits11 : 11 ≤ g.addressbits) {i : Decoder} (hi : i.dfiRank = args.rank) :
    Decoder.PrechargesAll i (Decoder.ofSpec g args.loopArgs.pre) := by
  have hcol : 1 <<< 10 < 2 ^ g.addressbits := lt_of_lt_of_le (by decide) (Nat.pow_le_pow_right (by decide) hbits11)
  obtain ⟨v, hv, hR, -, hA⟩ := @decode_dfi_address g .PRE rfl args.timings.tRP args.loopArgs.preAddress
    args.rank rfl hrank (by simp [LoopArgs.preAddress])
  rw [← hbits, ← hranks] at hv
  rw [show (args.loopArgs.preAddress.row.or args.loopArgs.preAddress.col).getD 0 = 1 <<< 10 from rfl,
    Nat.mod_eq_of_lt hcol] at hA
  have hval : addressValue args.loopArgs.encoder args.loopArgs.preAddress = v := addressValue_eq hv
  refine ⟨is_pre, ?_, ?_⟩
  · have hbit : (1 <<< 10 : Nat).testBit 10 = true := by decide
    rw [LoopArgs.pre, hval]
    exact hA ▸ hbit
  · rw [LoopArgs.pre, hval, hi]
    exact hR

end Addresses

/-- **Exact hammer count.** A returned payload, executed from address 0, ends at its last STOP; its activations are the
row sequence repeated `read_count` times, and the next command after each is a precharge of all banks of the rank. -/
theorem hammer_count_exact {mem : Nat → BitVec 32} (hok : generatePayloadFromRowList args = .ok words)
    (hmem : Loads mem words) (hcount : args.readCount < 2 ^ 53) (hrfc : 0 < args.timings.tRFC)
    (hrfc' : args.timings.tRFC < 2 ^ 29) (hrefi : args.timings.tREFI < 2 ^ 29) (hbits : args.bankbits = g.bankbits)
    (hranks : args.nranks = 2 ^ g.rankbits) (hrank : args.rank < 2 ^ g.rankbits) (hbank : args.bank < 2 ^ g.bankbits)
    (hrows : ∀ row ∈ args.rowSequence, row < 2 ^ g.rowbits) (hbits11 : 11 ≤ g.rowbits ∨ 11 ≤ g.colbits) :
    (∃ tr, Executes g mem tr) ∧ ∀ tr, Executes g mem tr →
      (∃ v, tr.getLast? = some v ∧ v.pc = words.length - 1 ∧ v.instr.stop = true) ∧
      ((tr.map Visit.instr).filter fun i => decide (i.Is .ACT)).map Decoder.target =
        (List.replicate args.readCount args.rowSequence).flatten.map (fun row => (args.rank, args.bank, row)) ∧
      Followed (Decoder.Is .ACT) Decoder.PrechargesAll ((tr.map Visit.instr).filter fun i => decide i.IsCommand) := by
  obtain ⟨n₁, n₂, hgen⟩ := generated_of_ok hok
  have hlead : args.lead % 2 ^ 29 ≠ 0 := by
    unfold lead
    omega
  have href : ¬ args.refreshStops := by
    rintro ⟨-, hz⟩
    omega
  have htarget : ∀ row ∈ args.rowSequence,
      (Decoder.ofSpec g (args.loopArgs.act row)).target = (args.rank, args.bank, row) := by
    intro row hrow
    apply target_act hbits hranks hrank hbank
    exact lt_of_lt_of_le (hrows row hrow) (Nat.pow_le_pow_right (by decide) (le_max_left _ _))
  obtain ⟨tr, htr, hmap⟩ := executes_executed (g := g) hgen hmem hlead fun _ => href
  refine ⟨⟨_, htr⟩, fun tr' htr' => ?_⟩
  rw [htr'.unique htr]
  refine ⟨⟨_, List.getLast?_concat .., rfl, stop_noop g rfl⟩, ?_, ?_⟩
  · rw [hmap]
    have hacts := activations_eq (g := g) hgen hcount
    unfold kept at hacts
    rw [hacts, List.map_map]
    apply List.map_congr_left
    intro row hrow
    obtain ⟨rows, hmem', hrow⟩ := List.mem_flatten.mp hrow
    rw [(List.mem_replicate.mp hmem').2] at hrow
    exact htarget row hrow
  · rw [hmap]
    apply followed_executed
    intro row hrow
    apply prechargesAll_pre hbits hranks hrank
    · unfold Geometry.addressbits
      omega
    · exact congrArg Prod.fst (htarget row hrow)

/-- Rows 3 and 5 of bank 2 of rank 1, three times. -/
def threeRounds : RowListArgs :=
  { readCount := 3, rowSequence := [3, 5], timings := ⟨5, 3, 40, 10⟩, bankbits := 3, bank := 2, nranks := 2, rank := 1,
    payloadMemSize := 1024, refresh := true }

def twoRanks : Geometry := ⟨1, 3, 14, 10, by decide⟩

theorem hammer_count_exact_threeRounds : ∃ words tr, generatePayloadFromRowList threeRounds = .ok words ∧
    Executes twoRanks (loadWords words) tr ∧
    ((tr.map Visit.instr).filter fun i => decide (i.Is .ACT)).map Decoder.target =
      [(1, 2, 3), (1, 2, 5), (1, 2, 3), (1, 2, 5), (1, 2, 3), (1, 2, 5)] := by
  obtain ⟨words, hok⟩ := Py.exists_ok (x := generatePayloadFromRowList threeRounds) (by decide +kernel)
  obtain ⟨⟨tr, htr⟩, hall⟩ := hammer_count_exact (g := twoRanks) hok (loads_loadWords _) (by decide) (by decide)
    (by decide) (by decide) rfl rfl (by decide) (by decide) (by decide) (by decide)
  exact ⟨_, tr, hok, htr, (hall tr htr).2.1⟩

end RowListArgs

end RowhammerTester.Playbook
