import RowhammerTester.Playbook.Payload

/-!
# When the loops of a payload can jump over their bodies

`max_acts_in_loop` caps the ACT/PRE pairs of a loop body, the jump also has to pass the refreshes in it.

* `localRefreshes`, `JumpFits` : the refreshes of a body as they are counted, and the assertion on the jump;
* `Timings.slots`, `Timings.refreshes t n` : the rows in front of the first inserted refresh, and the refreshes of
  a body with `n` rows, the first one included; `length_loopBody` : the jump;
* `Timings.FitsJump t n` : the jump over a body with `n` rows fits in its field;
* `RowListArgs.Encodable` : what the encoder and the division of floats ask of the arguments;
* `encodeOneLoop_eq`, `encodeLongLoop_eq` : the loops for encodable arguments, `encodeOneLoop_cases` and
  `encodeLongLoop_cases` for timings with room for a row between two refreshes.
-/

namespace RowhammerTester.Playbook
open RowhammerTester.Gateware Encoder

/-! ## The jump over a loop body -/

namespace Timings
variable (t : Timings)

/-- The rows that fit between a point `accum` cycles into a refresh interval and its end. -/
def slots (accum : Nat) : Nat := (t.tREFI - accum) / (t.tRAS + t.tRP)

/-- The refreshes of a loop body with `n` rows. -/
def refreshes (n : Nat) : Nat :=
  1 + (n - t.slots (t.tRFC + 1) + (t.actsPerInterval - 1)) / t.actsPerInterval

/-- The jump over a loop body with `n` rows fits in its field. -/
def FitsJump (n : Nat) : Prop := 2 * n + t.refreshes n < 2 ^ 17

instance (n : Nat) : Decidable (t.FitsJump n) := inferInstanceAs (Decidable (_ < _))

end Timings

/-- The instruction is a refresh, or the NOOP that stands for it. -/
def LoopArgs.isRefresh (a : LoopArgs) (i : I) : Bool := decide (i.opCode = a.refreshOp)

/-- The refreshes of a loop body, the first one included. -/
def localRefreshes (a : LoopArgs) (unrolled : Nat) : Nat := (loopBody a unrolled).countP a.isRefresh

/-- The assertion on the jump of a loop. -/
def JumpFits (a : LoopArgs) (unrolled : Nat) : Prop :=
  2 * unrolled * a.rowSequence.length + localRefreshes a unrolled < 2 ^ Decoder.LOOP_JUMP

instance (a : LoopArgs) (unrolled : Nat) : Decidable (JumpFits a unrolled) := inferInstanceAs (Decidable (_ < _))

section Refreshes
variable {a : LoopArgs}

theorem opCode_refreshI (op : OpCode) (timeslice : Nat) : (refreshI op timeslice).opCode = op := by
  unfold refreshI
  split
  · next h => exact h.symm
  · rfl

theorem isRefresh_ref (a : LoopArgs) : a.isRefresh a.ref = true := decide_eq_true (opCode_refreshI _ _)

theorem not_isRefresh {i : I} (hop : a.refreshOp = .NOOP ∨ a.refreshOp = .REF)
    (h : i.opCode ≠ .NOOP ∧ i.opCode ≠ .REF) : ¬ a.isRefresh i = true := by
  unfold LoopArgs.isRefresh
  rw [decide_eq_true_iff]
  rcases hop with hop | hop
  · rw [hop]
    exact h.1
  · rw [hop]
    exact h.2

/-- The instructions for rows are an ACT and a PRE for each, and the refreshes. -/
theorem length_rowsCode_eq (hop : a.refreshOp = .NOOP ∨ a.refreshOp = .REF) (rows : List Nat) : ∀ accum : Nat,
    (rowsCode a accum rows).length = 2 * rows.length + (rowsCode a accum rows).countP a.isRefresh := by
  have hact : ∀ row, ¬ a.isRefresh (a.act row) = true := fun row => not_isRefresh hop ⟨nofun, nofun⟩
  have hpre : ¬ a.isRefresh a.pre = true := not_isRefresh hop ⟨nofun, nofun⟩
  induction rows with
  | nil => exact fun _ => rfl
  | cons row rows ih =>
    intro accum
    rw [rowsCode, List.length_append, List.countP_append, List.length_cons, List.length_cons, List.length_cons,
      List.countP_cons_of_neg (hact row), List.countP_cons_of_neg hpre, ih]
    split
    · rw [List.countP_singleton, if_pos (isRefresh_ref a), List.length_singleton]
      omega
    · rw [List.countP_nil, List.length_nil]
      omega

/-- The jump over a body. -/
theorem length_loopBody_eq (hop : a.refreshOp = .NOOP ∨ a.refreshOp = .REF) (unrolled : Nat) :
    (loopBody a unrolled).length = 2 * unrolled * a.rowSequence.length + localRefreshes a unrolled := by
  rw [localRefreshes, loopBody, List.length_cons, List.countP_cons_of_pos (isRefresh_ref a), length_rowsCode_eq hop,
    length_unrolled, Nat.mul_assoc, Nat.add_assoc]

end Refreshes

section Length
variable {t : Timings}

theorem cycles_pos_of_acts (h : 1 ≤ t.actsPerInterval) : 0 < t.tRAS + t.tRP := by
  by_contra hz
  rw [Timings.actsPerInterval, Nat.eq_zero_of_not_pos hz, Nat.div_zero] at h
  omega

theorem slots_of_due (h : 1 ≤ t.actsPerInterval) {accum : Nat} (hd : t.Due accum) : t.slots accum = 0 := by
  have hpos := cycles_pos_of_acts h
  unfold Timings.Due at hd
  refine Nat.div_eq_of_lt ?_
  omega

/-- A row takes one slot. -/
theorem slots_add {accum : Nat} (h : 1 ≤ t.actsPerInterval) (hd : ¬ t.Due accum) :
    t.slots accum = t.slots (accum + (t.tRAS + t.tRP)) + 1 := by
  unfold Timings.Due at hd
  have hpos := cycles_pos_of_acts h
  have hrow : t.tREFI - accum = t.tREFI - (accum + (t.tRAS + t.tRP)) + (t.tRAS + t.tRP) := by omega
  rw [Timings.slots, Timings.slots, hrow, Nat.add_div_right _ hpos]

theorem not_due_tRFC (h : 1 ≤ t.actsPerInterval) : ¬ t.Due t.tRFC := by
  have hpos := cycles_pos_of_acts h
  have hle := (Nat.le_div_iff_mul_le hpos).mp h
  unfold Timings.Due
  omega

/-- Rows in groups of `k`, the first row of a new group. -/
theorem group_succ {k : Nat} (hk : 1 ≤ k) (n : Nat) :
    1 + (n - (k - 1) + (k - 1)) / k = (n + 1 + (k - 1)) / k := by
  by_cases hle : n ≤ k - 1
  · rw [show n - (k - 1) + (k - 1) = k - 1 by omega, Nat.div_eq_of_lt (by omega),
      show n + 1 + (k - 1) = n + k by omega, Nat.add_div_right _ hk, Nat.div_eq_of_lt (by omega)]
  · rw [show n - (k - 1) + (k - 1) = n by omega, show n + 1 + (k - 1) = n + k by omega, Nat.add_div_right _ hk]
    omega

theorem length_rowsCode {a : LoopArgs} (h : 1 ≤ a.timings.actsPerInterval) (rows : List Nat) : ∀ accum : Nat,
    (rowsCode a accum rows).length = 2 * rows.length +
      (rows.length - a.timings.slots accum + (a.timings.actsPerInterval - 1)) / a.timings.actsPerInterval := by
  induction rows with
  | nil =>
    intro accum
    have hlt : a.timings.actsPerInterval - 1 < a.timings.actsPerInterval := by omega
    simp [rowsCode, Nat.div_eq_of_lt hlt]
  | cons row rows ih =>
    intro accum
    rw [rowsCode, List.length_append, List.length_cons, List.length_cons, ih, List.length_cons, Timings.next]
    by_cases hd : a.timings.Due accum
    · -- the refresh opens an interval of `actsPerInterval` rows, the first of which is this one
      have hslots : a.timings.slots (a.timings.tRFC + (a.timings.tRAS + a.timings.tRP)) =
          a.timings.actsPerInterval - 1 := by
        have := slots_add h (not_due_tRFC h)
        rw [Timings.slots, ← Timings.actsPerInterval] at this
        omega
      have hgroup := group_succ h rows.length
      rw [if_pos hd, if_pos hd, hslots, slots_of_due h hd, List.length_singleton, Nat.sub_zero]
      omega
    · rw [if_neg hd, if_neg hd, slots_add h hd]
      simp only [List.length_nil, Nat.add_sub_add_right]
      omega

theorem length_loopBody {a : LoopArgs} (h : 1 ≤ a.timings.actsPerInterval) (unrolled : Nat) :
    (loopBody a unrolled).length = 2 * (unrolled * a.rowSequence.length) +
      a.timings.refreshes (unrolled * a.rowSequence.length) := by
  rw [loopBody, List.length_cons, length_rowsCode h, length_unrolled, Timings.refreshes]
  omega

theorem jumpFits_iff {a : LoopArgs} (hop : a.refreshOp = .NOOP ∨ a.refreshOp = .REF)
    (h : 1 ≤ a.timings.actsPerInterval) {unrolled : Nat} :
    JumpFits a unrolled ↔ a.timings.FitsJump (unrolled * a.rowSequence.length) := by
  rw [JumpFits, ← length_loopBody_eq hop, length_loopBody h]
  rfl

end Length

/-! ## Encodable arguments -/

/-- The encoder accepts the instructions of a loop. -/
structure LoopArgs.Encodable (a : LoopArgs) : Prop where
  tRAS : a.timings.tRAS ≠ 0
  tRP : a.timings.tRP ≠ 0
  refresh : a.refreshOp = .NOOP ∨ a.refreshOp = .REF ∧ a.timings.tRFC ≠ 0
  nranks : a.encoder.nranks = 0 ∨ ∃ r, a.encoder.nranks = 2 ^ r

theorem LoopArgs.Encodable.refreshOp_cases {a : LoopArgs} (h : a.Encodable) :
    a.refreshOp = .NOOP ∨ a.refreshOp = .REF := h.refresh.imp_right And.left

section Encode
variable {a : LoopArgs}

theorem init_refreshI {op : OpCode} {timeslice : Nat} (h : op = .NOOP ∨ op = .REF ∧ timeslice ≠ 0) :
    I.init op { timeslice := some timeslice } = .ok (refreshI op timeslice) := by
  rcases h with rfl | ⟨rfl, hne⟩
  · rfl
  · exact init_dfi rfl hne fun _ => rfl

theorem log2Int_ok_iff {n : Nat} : (∃ s, log2Int n = .ok s) ↔ n = 0 ∨ ∃ r, n = 2 ^ r := by
  constructor
  · rintro ⟨s, hs⟩
    unfold log2Int at hs
    split at hs
    · next hz => exact Or.inl hz
    · split at hs
      · next hpow => exact Or.inr ⟨_, hpow.symm⟩
      · cases hs
  · rintro (rfl | ⟨r, rfl⟩)
    · exact ⟨0, rfl⟩
    · exact ⟨r, log2Int_two_pow r⟩

/-- An address with a rank needs a number of ranks that has a logarithm. -/
theorem address_ok_iff {e : Encoder} {args : AddressArgs} {rank : Nat} (hrank : args.rank = some rank)
    (hrc : ¬ (args.row.isSome ∧ args.col.isSome)) :
    (∃ x, e.address args = .ok x) ↔ e.nranks = 0 ∨ ∃ r, e.nranks = 2 ^ r := by
  unfold Encoder.address
  rw [if_neg hrc]
  dsimp only
  by_cases h1 : e.nranks > 1
  · rw [if_pos h1, ← log2Int_ok_iff, hrank]
    cases hs : log2Int e.nranks with
    | error err => simp [bind, Except.bind]
    | ok s => exact ⟨fun _ => ⟨s, rfl⟩, fun _ => ⟨_, rfl⟩⟩
  · rw [if_neg h1]
    refine ⟨fun _ => ?_, fun _ => ⟨_, rfl⟩⟩
    rcases Nat.eq_zero_or_pos e.nranks with hz | hpos
    · exact Or.inl hz
    · exact Or.inr ⟨0, by omega⟩

theorem exists_encodeRow (h : a.Encodable) (v : LoopVars) (row : Nat) : ∃ v', encodeRow a v row = .ok v' := by
  have hact : ∃ x, a.encoder.address (a.actAddress row) = .ok x :=
    (address_ok_iff (show (a.actAddress row).rank = some a.rank from rfl) (by simp [LoopArgs.actAddress])).mpr h.nranks
  have hpre : ∃ x, a.encoder.address a.preAddress = .ok x :=
    (address_ok_iff (show a.preAddress.rank = some a.rank from rfl) (by simp [LoopArgs.preAddress])).mpr h.nranks
  obtain ⟨x, hx⟩ := hact
  obtain ⟨y, hy⟩ := hpre
  have hins : ∃ v₁, insertRefresh a v = .ok v₁ := by
    unfold insertRefresh
    split
    · exact Py.exists_bind (init_refreshI h.refresh) ⟨_, rfl⟩
    · exact ⟨v, rfl⟩
  obtain ⟨v₁, hv₁⟩ := hins
  have hact := @init_dfi .ACT rfl _ h.tRAS (some x) fun hn => by cases hn
  have hpre := @init_dfi .PRE rfl _ h.tRP (some y) fun hn => by cases hn
  exact Py.exists_bind hv₁ (Py.exists_bind hx (Py.exists_bind hact (Py.exists_bind hy (Py.exists_bind hpre ⟨_, rfl⟩))))

/-- **One loop**: for encodable arguments it is the body and a LOOP, if the assertion on the jump holds. -/
theorem encodeOneLoop_eq (h : a.Encodable) (unrolled rolled : Nat) (payload : List I) :
    encodeOneLoop unrolled rolled a payload =
      (Py.check (JumpFits a unrolled) (.assertionError "") >>= fun _ =>
        .ok (payload ++ Loop.code ⟨loopBody a unrolled, rolled⟩, localRefreshes a unrolled * (rolled + 1))) := by
  have hrows : ∀ row ∈ (List.replicate unrolled a.rowSequence).flatten, ∀ v, ∃ v', encodeRow a v row = .ok v' :=
    fun row _ v => exists_encodeRow h v row
  obtain ⟨v, hv⟩ := Py.exists_foldlM hrows
    { payload := payload ++ [a.ref], accum := a.timings.tRFC + 1, localRefreshes := 1 }
  obtain ⟨hpay, hlen, -⟩ := foldlM_encodeRow hv
  dsimp only at hpay hlen
  have hbody := length_loopBody_eq h.refreshOp_cases unrolled
  have hrefreshes : v.localRefreshes = localRefreshes a unrolled := by
    rw [length_unrolled] at hlen
    rw [loopBody, List.length_cons, Nat.mul_assoc] at hbody
    omega
  have hcode : v.payload ++ [I.loop rolled (loopBody a unrolled).length] =
      payload ++ Loop.code ⟨loopBody a unrolled, rolled⟩ := by
    rw [hpay, Loop.code, Loop.jump, loopBody]
    simp
  rw [hbody] at hcode
  unfold encodeOneLoop
  dsimp only
  rw [init_refreshI h.refresh, Py.ok_bind, foldlM_unrolled, List.length_range, ← LoopArgs.ref, hv, Py.ok_bind,
    hrefreshes, ← hcode]
  rfl

/-- For encodable arguments only the assertion on the jump can fail. -/
theorem encodeOneLoop_cases (h : a.Encodable) (hacts : 1 ≤ a.timings.actsPerInterval) (unrolled rolled : Nat)
    (payload : List I) :
    (a.timings.FitsJump (unrolled * a.rowSequence.length) →
      ∃ p, encodeOneLoop unrolled rolled a payload = .ok p) ∧
    (¬ a.timings.FitsJump (unrolled * a.rowSequence.length) →
      encodeOneLoop unrolled rolled a payload = .error (.assertionError "")) := by
  rw [← jumpFits_iff h.refreshOp_cases hacts, encodeOneLoop_eq h]
  refine ⟨fun hfit => ?_, fun hfit => ?_⟩
  · rw [Py.check_of_pos hfit]
    exact ⟨_, rfl⟩
  · rw [Py.check_of_neg hfit]
    rfl

theorem foldlM_encodeOneLoop {unrolled rolled : Nat} (h : a.Encodable) (hfit : JumpFits a unrolled) (idxs : List Nat) :
    ∀ (payload : List I) (refreshes : Nat), (idxs.foldlM (fun (payload, refreshes) outerIdx => do
      let (payload, local_) ← encodeOneLoop unrolled (loopCount rolled outerIdx) a payload
      return (payload, refreshes + local_)) (payload, refreshes) : Py (List I × Nat)) =
    .ok (payload ++ (idxs.map fun outerIdx => (⟨loopBody a unrolled, loopCount rolled outerIdx⟩ : Loop)).flatMap
        Loop.code,
      refreshes + localRefreshes a unrolled * (idxs.map fun outerIdx => loopCount rolled outerIdx + 1).sum) := by
  induction idxs with
  | nil =>
    intro payload refreshes
    rw [List.map_nil, List.map_nil, List.flatMap_nil, List.append_nil, List.sum_nil, Nat.mul_zero, Nat.add_zero]
    rfl
  | cons i idxs ih =>
    intro payload refreshes
    rw [List.foldlM_cons]
    dsimp only
    rw [encodeOneLoop_eq h, Py.check_of_pos hfit, Py.ok_bind, Py.ok_bind]
    refine (ih _ _).trans ?_
    rw [List.map_cons, List.map_cons, List.flatMap_cons, List.append_assoc, List.sum_cons,
      Nat.mul_add (localRefreshes a unrolled) (loopCount rolled i + 1), Nat.add_assoc]

/-- **A long loop** is its loops, and the refreshes of a body for each iteration. -/
theorem encodeLongLoop_eq {unrolled rolled n : Nat} (hn : nLoops rolled = .ok n) (h : rolled ≠ 0 → a.Encodable)
    (hfit : rolled ≠ 0 → JumpFits a unrolled) (payload : List I) : encodeLongLoop unrolled rolled a payload =
      .ok (payload ++ (longLoop a unrolled rolled n).flatMap Loop.code,
        localRefreshes a unrolled * iterations rolled n) := by
  unfold encodeLongLoop
  rw [hn, Py.ok_bind]
  by_cases hr : rolled = 0
  · rw [(nLoops_eq_zero_iff hn).mpr hr, longLoop, iterations, List.range_zero, List.map_nil, List.flatMap_nil,
      List.append_nil]
    rfl
  · rw [foldlM_encodeOneLoop (h hr) (hfit hr), Nat.zero_add]
    rfl

/-- For arguments that are encodable when there is something to repeat, only the assertion on the jump can fail. -/
theorem encodeLongLoop_cases {rolled n : Nat} (hn : nLoops rolled = .ok n) (h : rolled ≠ 0 → a.Encodable)
    (hacts : 1 ≤ a.timings.actsPerInterval) (unrolled : Nat) (payload : List I) :
    ((rolled ≠ 0 → a.timings.FitsJump (unrolled * a.rowSequence.length)) →
      ∃ p, encodeLongLoop unrolled rolled a payload = .ok p) ∧
    (¬ (rolled ≠ 0 → a.timings.FitsJump (unrolled * a.rowSequence.length)) →
      encodeLongLoop unrolled rolled a payload = .error (.assertionError "")) := by
  constructor
  · intro hfit
    have hjump : rolled ≠ 0 → JumpFits a unrolled :=
      fun hr => (jumpFits_iff (h hr).refreshOp_cases hacts).mpr (hfit hr)
    exact ⟨_, encodeLongLoop_eq hn h hjump payload⟩
  · -- the first loop already fails
    intro hfit
    push Not at hfit
    obtain ⟨hr, hfit⟩ := hfit
    have hne : n ≠ 0 := mt (nLoops_eq_zero_iff hn).mp hr
    obtain ⟨m, rfl⟩ := Nat.exists_eq_succ_of_ne_zero hne
    have hone := (encodeOneLoop_cases (h hr) hacts unrolled (loopCount rolled 0) payload).2 hfit
    unfold encodeLongLoop
    rw [hn, Py.ok_bind, List.range_succ_eq_map, List.foldlM_cons]
    simp only [hone, Py.error_bind]

theorem nranks_of_encodeRow {v v' : LoopVars} {row : Nat} (h : encodeRow a v row = .ok v') :
    a.encoder.nranks = 0 ∨ ∃ r, a.encoder.nranks = 2 ^ r := by
  obtain ⟨_, -, h⟩ := Py.bind_eq_ok.mp h
  obtain ⟨x, hx, -⟩ := Py.bind_eq_ok.mp h
  have hrank : (a.actAddress row).rank = some a.rank := rfl
  exact (address_ok_iff hrank (by simp [LoopArgs.actAddress])).mp ⟨x, hx⟩

theorem encodable_of_encodeOneLoop {unrolled rolled : Nat} {payload : List I} {p : List I × Nat}
    (h : encodeOneLoop unrolled rolled a payload = .ok p) (hrows : 0 < unrolled * a.rowSequence.length) :
    a.Encodable := by
  obtain ⟨-, hok⟩ := encodeOneLoop_ok h
  obtain ⟨hras, hrp⟩ := hok.timings hrows
  refine ⟨hras, hrp, hok.refreshOp, ?_⟩
  obtain ⟨_, -, h⟩ := Py.bind_eq_ok.mp h
  obtain ⟨v, hv, -⟩ := Py.bind_eq_ok.mp h
  rw [foldlM_unrolled, List.length_range] at hv
  rw [← length_unrolled] at hrows
  obtain ⟨row, rows, heq⟩ := List.exists_cons_of_ne_nil (List.ne_nil_of_length_pos hrows)
  rw [heq, List.foldlM_cons] at hv
  obtain ⟨v₁, hv₁, -⟩ := Py.bind_eq_ok.mp hv
  exact nranks_of_encodeRow hv₁

theorem encodable_of_encodeLongLoop {unrolled rolled : Nat} {payload : List I} {p : List I × Nat}
    (h : encodeLongLoop unrolled rolled a payload = .ok p) (hr : rolled ≠ 0)
    (hrows : 0 < unrolled * a.rowSequence.length) : a.Encodable := by
  obtain ⟨n, hn, h⟩ := Py.bind_eq_ok.mp h
  have hzero := nLoops_eq_zero_iff hn
  obtain ⟨m, rfl⟩ : ∃ m, n = m + 1 := ⟨n - 1, by omega⟩
  rw [List.range_succ_eq_map, List.foldlM_cons] at h
  obtain ⟨_, h₁, -⟩ := Py.bind_eq_ok.mp h
  obtain ⟨_, h₁, -⟩ := Py.bind_eq_ok.mp h₁
  exact encodable_of_encodeOneLoop h₁ hrows

end Encode

/-! ## Payloads -/

namespace RowListArgs
variable {args : RowListArgs}

/-- What the encoder asks of the arguments, and that the number of loops is not too large for a float. -/
structure Encodable (args : RowListArgs) : Prop where
  loops : args.readCount ≠ 0 → args.loopArgs.Encodable
  quotient : toDouble (args.readCount / args.reps) < 2 ^ 1024 * (countMax + 1)

/-- The jumps over the bodies that the payload has. -/
def FitsJumps (args : RowListArgs) : Prop :=
  (args.readCount / args.reps ≠ 0 → args.timings.FitsJump (args.reps * args.rowSequence.length)) ∧
    (args.readCount % args.reps ≠ 0 → args.timings.FitsJump args.rowSequence.length)

instance (args : RowListArgs) : Decidable args.FitsJumps := inferInstanceAs (Decidable (_ ∧ _))

/-- The instructions, before their number is compared with the payload memory. -/
def buildPayload (args : RowListArgs) : Py (List I) := do
  let reps ← repetitions args.timings args.rowSequence.length
  Py.check (reps ≠ 0) .zeroDivisionError
  let lead ← I.init .NOOP { timeslice := some args.lead }
  let (payload, _) ← encodeLongLoop reps (args.readCount / reps) args.loopArgs [lead]
  let (payload, _) ← encodeLongLoop 1 (args.readCount % reps) args.loopArgs payload
  let sync ← I.init args.refreshOp { timeslice := some 1 }
  let stop ← I.init .NOOP { timeslice := some 0 }
  return payload ++ [sync, stop]

/-! ### Exits -/

section NoExit
open Py

theorem noExit_get (key : String) (value : Option Nat) : NoExit (Kwargs.get key value) := by
  cases value with
  | none => exact noExit_error (by simp)
  | some v => exact noExit_ok v

theorem noExit_init (op : OpCode) (kwargs : Kwargs) : NoExit (I.init op kwargs) := by
  unfold I.init
  split
  · exact noExit_bind (noExit_get _ _) fun _ => noExit_bind (noExit_get _ _) fun _ => noExit_ok _
  · exact noExit_bind (noExit_get _ _) fun _ => noExit_ok _
  · refine noExit_bind (noExit_get _ _) fun timeslice => ?_
    dsimp only
    split
    · exact noExit_error (by simp)
    · split
      · exact noExit_error (by simp)
      · exact noExit_ok _

theorem noExit_log2Int (n : Nat) : NoExit (log2Int n) := by
  unfold log2Int
  split
  · exact noExit_ok _
  · split
    · exact noExit_ok _
    · exact noExit_error (by simp)

theorem noExit_address (e : Encoder) (args : AddressArgs) : NoExit (e.address args) := by
  unfold Encoder.address
  dsimp only
  split
  · exact noExit_error (by simp)
  · split
    · refine noExit_bind (noExit_log2Int _) fun _ => ?_
      split
      · exact noExit_ok _
      · exact noExit_error (by simp)
    · exact noExit_ok _

theorem noExit_encodeRow (a : LoopArgs) (v : LoopVars) (row : Nat) : NoExit (encodeRow a v row) := by
  have hins : NoExit (insertRefresh a v) := by
    unfold insertRefresh
    split
    · exact noExit_bind (noExit_init _ _) fun _ => noExit_ok _
    · exact noExit_ok _
  exact noExit_bind hins fun _ => noExit_bind (noExit_address _ _) fun _ => noExit_bind (noExit_init _ _) fun _ =>
    noExit_bind (noExit_address _ _) fun _ => noExit_bind (noExit_init _ _) fun _ => noExit_ok _

theorem noExit_encodeOneLoop (unrolled rolled : Nat) (a : LoopArgs) (payload : List I) :
    NoExit (encodeOneLoop unrolled rolled a payload) := by
  refine noExit_bind (noExit_init _ _) fun _ => noExit_bind ?_ fun _ => noExit_bind (noExit_check (by simp)) fun _ =>
    noExit_bind (noExit_init _ _) fun _ => noExit_ok _
  exact noExit_foldlM (fun v _ => noExit_foldlM (noExit_encodeRow a) _ v) _ _

theorem noExit_encodeLongLoop (unrolled rolled : Nat) (a : LoopArgs) (payload : List I) :
    NoExit (encodeLongLoop unrolled rolled a payload) := by
  have hn : NoExit (nLoops rolled) := by
    unfold nLoops
    split
    · exact noExit_error (by simp)
    · exact noExit_ok _
  exact noExit_bind hn fun _ => noExit_foldlM
    (fun _ _ => noExit_bind (noExit_encodeOneLoop _ _ _ _) fun _ => noExit_ok _) _ _

theorem noExit_repetitions (t : Timings) (len : Nat) : NoExit (repetitions t len) := by
  have hlcm : ∀ x y, NoExit (leastCommonMultiple x y) := by
    intro x y
    unfold leastCommonMultiple
    dsimp only
    split
    · exact noExit_error (by simp)
    · exact noExit_ok _
  exact noExit_bind (noExit_check (by simp)) fun _ => noExit_bind (hlcm _ _) fun _ =>
    noExit_bind (noExit_check (by simp)) fun _ => noExit_bind (noExit_check (by simp)) fun _ => noExit_ok _

theorem noExit_buildPayload (args : RowListArgs) : NoExit args.buildPayload :=
  noExit_bind (noExit_repetitions _ _) fun _ => noExit_bind (noExit_check (by simp)) fun _ =>
    noExit_bind (noExit_init _ _) fun _ => noExit_bind (noExit_encodeLongLoop _ _ _ _) fun _ =>
    noExit_bind (noExit_encodeLongLoop _ _ _ _) fun _ => noExit_bind (noExit_init _ _) fun _ =>
    noExit_bind (noExit_init _ _) fun _ => noExit_ok _

end NoExit

theorem generate_eq : generatePayloadFromRowList args = (args.buildPayload >>= fun payload =>
    Py.check (payload.length ≤ args.payloadMemSize / 4) (.systemExit 1) >>= fun _ => .ok (encodePayload payload)) := by
  unfold generatePayloadFromRowList buildPayload
  simp only [bind_assoc, pure_bind]
  rfl

theorem repetitions_eq {t : Timings} {len : Nat} (hacts : 1 ≤ t.actsPerInterval) (hlen : 1 ≤ len)
    (hmax : len ≤ maxActsInLoop) : repetitions t len = .ok (t.reps len) ∧ t.reps len ≠ 0 := by
  have hpos := cycles_pos_of_acts hacts
  have hfit := (Nat.le_div_iff_mul_le hpos).mp hacts
  have hdiv : ((t.tREFI : Int) - t.tRFC).fdiv (t.tRP + t.tRAS : Nat) = (t.actsPerInterval : Nat) := by
    rw [Int.fdiv_eq_ediv_of_nonneg _ (by omega), Timings.actsPerInterval, Nat.add_comm t.tRP, Int.natCast_ediv,
      Int.ofNat_sub (by omega)]
  have hle : len ≤ Nat.lcm t.actsPerInterval len :=
    Nat.le_of_dvd (Nat.lcm_pos hacts hlen) (Nat.dvd_lcm_right _ _)
  have hmin : min ((Nat.lcm t.actsPerInterval len : Nat) : Int) maxActsInLoop =
      (min (Nat.lcm t.actsPerInterval len) maxActsInLoop : Nat) := by omega
  refine ⟨?_, ?_⟩
  · unfold repetitions
    rw [Py.check_of_pos (by omega), Py.ok_bind]
    dsimp only
    rw [hdiv, leastCommonMultiple_natCast _ _ hlen, Py.ok_bind, hmin, Py.check_of_pos (by omega), Py.ok_bind,
      Py.check_of_pos (by omega), Py.ok_bind, Int.fdiv_eq_ediv_of_nonneg _ (by omega), ← Int.natCast_ediv]
    rfl
  · exact (Nat.div_pos (Nat.le_min.mpr ⟨hle, hmax⟩) hlen).ne'

theorem nLoops_ok_iff {rolled : Nat} : (∃ n, nLoops rolled = .ok n) ↔ toDouble rolled < 2 ^ 1024 * (countMax + 1) := by
  unfold nLoops
  split
  · next h => simp only [reduceCtorEq, exists_const, false_iff, Nat.not_lt, h]
  · next h => exact ⟨fun _ => Nat.lt_of_not_le h, fun _ => ⟨_, rfl⟩⟩

/-- The number of loops for the remainder is small. -/
theorem exists_nLoops_remainder {t : Timings} {len : Nat} (hne : t.reps len ≠ 0) (readCount : Nat) :
    ∃ n, nLoops (readCount % t.reps len) = .ok n := by
  have hlt := Nat.mod_lt readCount (Nat.pos_of_ne_zero hne)
  have hle : t.reps len ≤ maxActsInLoop := (Nat.div_le_self _ _).trans (Nat.min_le_right _ _)
  have hmax : maxActsInLoop = 65535 := rfl
  rw [nLoops_ok_iff, toDouble_of_lt (by omega)]
  omega

section Build
variable (hacts : 1 ≤ args.timings.actsPerInterval) (hlen : 1 ≤ args.rowSequence.length)
  (hmax : args.rowSequence.length ≤ maxActsInLoop)

include hacts hlen hmax

/-- The instructions for encodable arguments. -/
theorem buildPayload_cases (h : args.Encodable) :
    (args.FitsJumps → ∃ p, args.buildPayload = .ok p) ∧
    (¬ args.FitsJumps → args.buildPayload = .error (.assertionError "")) := by
  obtain ⟨hreps, hne⟩ := repetitions_eq hacts hlen hmax
  have hbuild : args.buildPayload =
      (encodeLongLoop args.reps (args.readCount / args.reps) args.loopArgs [I.noop args.lead] >>= fun p =>
        encodeLongLoop 1 (args.readCount % args.reps) args.loopArgs p.1 >>= fun p =>
          .ok (p.1 ++ [refreshI args.refreshOp 1, I.noop 0])) := by
    unfold buildPayload
    rw [hreps, Py.ok_bind, Py.check_of_pos hne, Py.ok_bind, init_noop, Py.ok_bind]
    have hsync : I.init args.refreshOp { timeslice := some 1 } = .ok (refreshI args.refreshOp 1) := by
      refine init_refreshI ?_
      unfold refreshOp
      split
      · exact Or.inr ⟨rfl, by decide⟩
      · exact Or.inl rfl
    rw [hsync]
    rfl
  obtain ⟨n₁, hn₁⟩ := nLoops_ok_iff.mpr h.quotient
  obtain ⟨n₂, hn₂⟩ := exists_nLoops_remainder hne args.readCount
  have hq : args.readCount / args.reps ≠ 0 → args.loopArgs.Encodable := fun hr => h.loops fun hz => hr (by simp [hz])
  have hm : args.readCount % args.reps ≠ 0 → args.loopArgs.Encodable := fun hr => h.loops fun hz => hr (by simp [hz])
  obtain ⟨hok₁, herr₁⟩ := encodeLongLoop_cases hn₁ hq hacts args.reps [I.noop args.lead]
  rw [hbuild]
  by_cases hfit₁ : args.readCount / args.reps ≠ 0 → args.timings.FitsJump (args.reps * args.rowSequence.length)
  · obtain ⟨p₁, hp₁⟩ := hok₁ hfit₁
    obtain ⟨hok₂, herr₂⟩ := encodeLongLoop_cases hn₂ hm hacts 1 p₁.1
    rw [Nat.one_mul] at hok₂ herr₂
    rw [hp₁, Py.ok_bind]
    refine ⟨fun hfit => Py.exists_bind (hok₂ hfit.2).choose_spec ⟨_, rfl⟩, fun hfit => ?_⟩
    exact congrArg (· >>= _) (herr₂ fun hfit₂ => hfit ⟨hfit₁, hfit₂⟩)
  · refine ⟨fun hfit => absurd hfit.1 hfit₁, fun _ => ?_⟩
    exact congrArg (· >>= _) (herr₁ hfit₁)

theorem encodable_of_buildPayload {p : List I} (h : args.buildPayload = .ok p) : args.Encodable := by
  obtain ⟨hreps, hne⟩ := repetitions_eq hacts hlen hmax
  obtain ⟨reps, hr, h⟩ := Py.bind_eq_ok.mp h
  obtain rfl : args.reps = reps := Except.ok.inj (hreps.symm.trans hr)
  obtain ⟨_, -, h⟩ := Py.bind_eq_ok.mp h
  obtain ⟨_, -, h⟩ := Py.bind_eq_ok.mp h
  obtain ⟨p₁, hp₁, h⟩ := Py.bind_eq_ok.mp h
  obtain ⟨p₂, hp₂, -⟩ := Py.bind_eq_ok.mp h
  have hrows : 0 < args.reps * args.rowSequence.length := Nat.mul_pos (Nat.pos_of_ne_zero hne) hlen
  refine ⟨fun hc => ?_, ?_⟩
  · by_cases hq : args.readCount / args.reps = 0
    · have hm : args.readCount % args.reps ≠ 0 := by
        have := Nat.div_add_mod args.readCount args.reps
        rw [hq] at this
        omega
      exact encodable_of_encodeLongLoop hp₂ hm (by rw [Nat.one_mul]; exact hlen)
    · exact encodable_of_encodeLongLoop hp₁ hq hrows
  · obtain ⟨n, hn, -⟩ := encodeLongLoop_ok hp₁
    exact nLoops_ok_iff.mp ⟨n, hn⟩

end Build

/-- A payload that was built is returned, or is too long for the payload memory. -/
theorem generate_iff_buildPayload : ((∃ words, generatePayloadFromRowList args = .ok words) ∨
    generatePayloadFromRowList args = .error (.systemExit 1)) ↔ ∃ p, args.buildPayload = .ok p := by
  rw [generate_eq]
  cases hb : args.buildPayload with
  | error e =>
    refine ⟨?_, fun ⟨p, hp⟩ => by cases hp⟩
    rintro (⟨words, h⟩ | h)
    · cases h
    · exact absurd (hb.trans (congrArg _ (Except.error.inj h))) (noExit_buildPayload args 1)
  | ok p =>
    refine ⟨fun _ => ⟨p, rfl⟩, fun _ => ?_⟩
    rw [Py.ok_bind]
    by_cases hfits : p.length ≤ args.payloadMemSize / 4
    · rw [Py.check_of_pos hfits]
      exact Or.inl ⟨_, rfl⟩
    · rw [Py.check_of_neg hfits]
      exact Or.inr rfl

theorem generate_of_not_fitsJumps (hacts : 1 ≤ args.timings.actsPerInterval) (hlen : 1 ≤ args.rowSequence.length)
    (hmax : args.rowSequence.length ≤ maxActsInLoop) (hE : args.Encodable) (hfit : ¬ args.FitsJumps) :
    generatePayloadFromRowList args = .error (.assertionError "") := by
  rw [generate_eq, (buildPayload_cases hacts hlen hmax hE).2 hfit]
  rfl

/-- **When a payload can be made.** For a row sequence of up to `max_acts_in_loop` rows and timings with room for a row
between two refreshes, the generator returns a payload, or exits because it exceeds the payload memory, if and only if
the encoder accepts the arguments and the jumps fit with the refreshes of the loop bodies. If only the jumps do not fit,
the assertion on the jump fails. -/
theorem generates_iff (args : RowListArgs) (hacts : 1 ≤ args.timings.actsPerInterval)
    (hlen : 1 ≤ args.rowSequence.length) (hmax : args.rowSequence.length ≤ maxActsInLoop) :
    (((∃ words, generatePayloadFromRowList args = .ok words) ∨
      generatePayloadFromRowList args = .error (.systemExit 1)) ↔ args.Encodable ∧ args.FitsJumps) ∧
    (args.Encodable → ¬ args.FitsJumps → generatePayloadFromRowList args = .error (.assertionError "")) := by
  refine ⟨?_, generate_of_not_fitsJumps hacts hlen hmax⟩
  rw [generate_iff_buildPayload]
  constructor
  · rintro ⟨p, hp⟩
    have hE := encodable_of_buildPayload hacts hlen hmax hp
    refine ⟨hE, ?_⟩
    by_contra hfit
    have herr := (buildPayload_cases hacts hlen hmax hE).2 hfit
    rw [hp] at herr
    cases herr
  · rintro ⟨hE, hfit⟩
    exact (buildPayload_cases hacts hlen hmax hE).1 hfit

/-- Timings of a DDR3 module. -/
def ddr3Timings : Timings := { tRAS := 5, tRP := 2, tREFI := 782, tRFC := 26 }

/-- 617 rows. -/
def longSequence (readCount : Nat) : RowListArgs :=
  { readCount := readCount, rowSequence := List.range 617, timings := ddr3Timings, bankbits := 3, bank := 0,
    nranks := 1, rank := 0, payloadMemSize := 2 ^ 20 }

section LongSequence
variable (readCount : Nat)

theorem length_longSequence : (longSequence readCount).rowSequence.length = 617 := by
  rw [longSequence, List.length_range]

theorem reps_longSequence : (longSequence readCount).reps = 106 := by
  have hreps : ddr3Timings.reps 617 = 106 := by decide
  rw [RowListArgs.reps, length_longSequence]
  exact hreps

theorem encodable_longSequence (h : readCount ≤ countMax) : (longSequence readCount).Encodable := by
  have hras : ddr3Timings.tRAS ≠ 0 := by decide
  have hrp : ddr3Timings.tRP ≠ 0 := by decide
  refine ⟨fun _ => ⟨hras, hrp, Or.inl rfl, Or.inr ⟨0, rfl⟩⟩, ?_⟩
  have hlt : (longSequence readCount).readCount / (longSequence readCount).reps < countMax + 1 :=
    Nat.lt_succ_of_le ((Nat.div_le_self _ _).trans h)
  have hmax : countMax + 1 ≤ 2 ^ 53 := by decide
  rw [toDouble_of_lt (Nat.lt_of_lt_of_le hlt hmax)]
  omega

theorem fitsJumps_longSequence : (longSequence readCount).FitsJumps ↔ readCount < 106 := by
  have hbig : ¬ ddr3Timings.FitsJump (106 * 617) := by decide
  have hone : ddr3Timings.FitsJump 617 := by decide
  rw [FitsJumps, reps_longSequence, length_longSequence]
  constructor
  · rintro ⟨hq, -⟩
    by_contra hge
    exact hbig (hq (Nat.div_pos (Nat.le_of_not_lt hge) (by decide)).ne')
  · intro hlt
    exact ⟨fun hq => absurd (Nat.div_eq_of_lt hlt) hq, fun _ => hone⟩

theorem bounds_longSequence : 1 ≤ (longSequence readCount).timings.actsPerInterval ∧
    1 ≤ (longSequence readCount).rowSequence.length ∧ (longSequence readCount).rowSequence.length ≤ maxActsInLoop := by
  have hacts : 1 ≤ ddr3Timings.actsPerInterval := by decide
  rw [length_longSequence]
  exact ⟨hacts, by decide, by decide⟩

end LongSequence

theorem generates_iff_longSequence : (∃ words, generatePayloadFromRowList (longSequence 105) = .ok words) ∨
    generatePayloadFromRowList (longSequence 105) = .error (.systemExit 1) := by
  obtain ⟨hacts, hlen, hmax⟩ := bounds_longSequence 105
  refine (generates_iff (longSequence 105) hacts hlen hmax).1.mpr ⟨encodable_longSequence 105 (by decide), ?_⟩
  exact (fitsJumps_longSequence 105).mpr (by decide)

/-- 106 repetitions of 617 rows are 65402 ACT/PRE pairs, below the cap of 65535, but with 606 refreshes between them the
jump does not fit. -/
theorem jump_over_refreshes : 1 ≤ (longSequence 106).timings.actsPerInterval ∧
    1 ≤ (longSequence 106).rowSequence.length ∧ (longSequence 106).rowSequence.length ≤ maxActsInLoop ∧
    generatePayloadFromRowList (longSequence 106) = .error (.assertionError "") := by
  obtain ⟨hacts, hlen, hmax⟩ := bounds_longSequence 106
  refine ⟨hacts, hlen, hmax, generate_of_not_fitsJumps hacts hlen hmax (encodable_longSequence 106 (by decide)) ?_⟩
  rw [fitsJumps_longSequence]
  decide

end RowListArgs

end RowhammerTester.Playbook
