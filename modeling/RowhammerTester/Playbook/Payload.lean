import RowhammerTester.Gateware.Program
import RowhammerTester.Playbook.Generate

/-!
# The instructions of a generated payload

What the generator returned, if it did not raise, as a program of loops around straight-line code.

* `rowsCode a accum rows` : the instructions for `rows` when `accum` cycles are accounted for since the last refresh;
* `longLoop a unrolled rolled n` : the loops of `encodeLongLoop`;
* `repetitions_ok` : the unroll factor as `reps t len`, a natural number;
* `Generated` : the parts of a returned payload, `generated_of_ok`.
-/

namespace RowhammerTester.Playbook
open RowhammerTester.Gateware Encoder

/-! ## Instructions -/

/-- The refresh instruction: a REF, or a NOOP of the same length. -/
def refreshI (op : OpCode) (timeslice : Nat) : I :=
  if op = .NOOP then I.noop timeslice else I.dfi op timeslice none

theorem init_refresh {op : OpCode} {timeslice : Nat} {i : I}
    (h : I.init op { timeslice := some timeslice } = .ok i) :
    i = refreshI op timeslice ∧ (op = .NOOP ∨ op = .REF ∧ timeslice ≠ 0) := by
  by_cases ht : timeslice = 0 <;> cases op <;>
    simp_all [I.init, Kwargs.get, bind, Except.bind, pure, Except.pure, throw, throwThe, MonadExceptOf.throw, refreshI,
      I.noop, I.dfi]

theorem init_command {op : OpCode} (hop : isDfi op) {timeslice address : Nat} {i : I}
    (h : I.init op { timeslice := some timeslice, address := some address } = .ok i) :
    i = I.dfi op timeslice (some address) ∧ timeslice ≠ 0 := by
  have hts : timeslice ≠ 0 := by
    rintro rfl
    cases op <;> first | exact absurd hop (by decide) | cases h
  rw [init_dfi hop hts (fun h => by cases h)] at h
  cases h
  exact ⟨rfl, hts⟩

/-- The value of an address that did not raise. -/
def addressValue (e : Encoder) (args : AddressArgs) : Nat :=
  match e.address args with
  | .ok a => a
  | .error _ => 0

theorem addressValue_eq {e : Encoder} {args : AddressArgs} {a : Nat} (h : e.address args = .ok a) :
    addressValue e args = a := by rw [addressValue, h]

namespace LoopArgs
variable (a : LoopArgs)

def ref : I := refreshI a.refreshOp a.timings.tRFC

def actAddress (row : Nat) : AddressArgs := { bank := a.bank, row := some row, rank := some a.rank }

def preAddress : AddressArgs := { col := some (1 <<< 10), rank := some a.rank }

def act (row : Nat) : I := I.dfi .ACT a.timings.tRAS (some (addressValue a.encoder (a.actAddress row)))

def pre : I := I.dfi .PRE a.timings.tRP (some (addressValue a.encoder a.preAddress))

end LoopArgs

/-- The next row does not fit before the refresh is due. -/
def Timings.Due (t : Timings) (accum : Nat) : Prop := accum + t.tRAS + t.tRP > t.tREFI

instance (t : Timings) (accum : Nat) : Decidable (t.Due accum) := inferInstanceAs (Decidable (_ > _))

/-- The accounted cycles after the next row. -/
def Timings.next (t : Timings) (accum : Nat) : Nat := (if t.Due accum then t.tRFC else accum) + (t.tRAS + t.tRP)

/-- The instructions for `rows`, a refresh in front of each row that does not fit before it is due. -/
def rowsCode (a : LoopArgs) : Nat → List Nat → List I
  | _, [] => []
  | accum, row :: rows =>
    (if a.timings.Due accum then [a.ref] else []) ++ a.act row :: a.pre :: rowsCode a (a.timings.next accum) rows

/-- The loop body. -/
def loopBody (a : LoopArgs) (unrolled : Nat) : List I :=
  a.ref :: rowsCode a (a.timings.tRFC + 1) (List.replicate unrolled a.rowSequence).flatten

/-! ## Loops -/

section Loops
variable {a : LoopArgs}

theorem encodeRow_ok {v v' : LoopVars} {row : Nat} (h : encodeRow a v row = .ok v') :
    v'.payload = v.payload ++ ((if a.timings.Due v.accum then [a.ref] else []) ++ [a.act row, a.pre]) ∧
      v'.accum = a.timings.next v.accum ∧
      v'.localRefreshes = v.localRefreshes + (if a.timings.Due v.accum then 1 else 0) ∧
      a.timings.tRAS ≠ 0 ∧ a.timings.tRP ≠ 0 := by
  obtain ⟨v₁, h₁, h⟩ := Py.bind_eq_ok.mp h
  unfold insertRefresh at h₁
  obtain ⟨actAddress, hact, h⟩ := Py.bind_eq_ok.mp h
  obtain ⟨act, hact', h⟩ := Py.bind_eq_ok.mp h
  obtain ⟨preAddress, hpre, h⟩ := Py.bind_eq_ok.mp h
  obtain ⟨pre, hpre', h⟩ := Py.bind_eq_ok.mp h
  obtain ⟨rfl, hras⟩ := init_command rfl hact'
  obtain ⟨rfl, hrp⟩ := init_command rfl hpre'
  cases h
  have hact : a.act row = I.dfi .ACT a.timings.tRAS (some actAddress) := by
    rw [LoopArgs.act, LoopArgs.actAddress, addressValue_eq hact]
  have hpre : a.pre = I.dfi .PRE a.timings.tRP (some preAddress) := by
    rw [LoopArgs.pre, LoopArgs.preAddress, addressValue_eq hpre]
  rw [hact, hpre]
  by_cases hd : a.timings.Due v.accum
  · rw [if_pos (show _ > _ from hd)] at h₁
    obtain ⟨ref, href, h₁⟩ := Py.bind_eq_ok.mp h₁
    obtain ⟨rfl, -⟩ := init_refresh href
    cases h₁
    simp [Timings.next, hd, LoopArgs.ref, hras, hrp]
  · rw [if_neg (show ¬ _ > _ from hd)] at h₁
    cases h₁
    simp [Timings.next, hd, hras, hrp]

theorem foldlM_encodeRow {rows : List Nat} : ∀ {v v' : LoopVars}, rows.foldlM (encodeRow a) v = .ok v' →
    v'.payload = v.payload ++ rowsCode a v.accum rows ∧
      v'.localRefreshes + 2 * rows.length = v.localRefreshes + (rowsCode a v.accum rows).length ∧
      (0 < rows.length → a.timings.tRAS ≠ 0 ∧ a.timings.tRP ≠ 0) := by
  induction rows with
  | nil =>
    intro v v' h
    cases h
    simp [rowsCode]
  | cons row rows ih =>
    intro v v' h
    rw [List.foldlM_cons, Py.bind_eq_ok] at h
    obtain ⟨v₁, h₁, h⟩ := h
    obtain ⟨hp₁, ha₁, hr₁, hpos⟩ := encodeRow_ok h₁
    obtain ⟨hp, hr, -⟩ := ih h
    rw [ha₁] at hp hr
    refine ⟨?_, ?_, fun _ => hpos⟩
    · rw [hp, hp₁, rowsCode]
      simp
    · rw [rowsCode, List.length_append, List.length_cons, List.length_cons, List.length_cons]
      split at hr₁ <;> simp_all <;> omega

/-- The two nested loops go through the unrolled row sequence. -/
theorem foldlM_unrolled (rows : List Nat) : ∀ (idxs : List Nat) (v : LoopVars),
    idxs.foldlM (fun v _ => rows.foldlM (encodeRow a) v) v =
      (List.replicate idxs.length rows).flatten.foldlM (encodeRow a) v := by
  intro idxs
  induction idxs with
  | nil => intro v; rfl
  | cons i idxs ih =>
    intro v
    rw [List.foldlM_cons, List.length_cons, List.replicate_succ, List.flatten_cons, List.foldlM_append]
    simp only [ih]

theorem length_unrolled (unrolled : Nat) (rows : List Nat) :
    (List.replicate unrolled rows).flatten.length = unrolled * rows.length := by
  simp

/-- What a loop that could be encoded tells about its arguments. -/
structure LoopOk (a : LoopArgs) (unrolled : Nat) : Prop where
  length_lt : (loopBody a unrolled).length < 2 ^ 17
  refreshOp : a.refreshOp = .NOOP ∨ a.refreshOp = .REF ∧ a.timings.tRFC ≠ 0
  timings : 0 < unrolled * a.rowSequence.length → a.timings.tRAS ≠ 0 ∧ a.timings.tRP ≠ 0

theorem encodeOneLoop_ok {unrolled rolled : Nat} {payload payload' : List I} {refreshes : Nat}
    (h : encodeOneLoop unrolled rolled a payload = .ok (payload', refreshes)) :
    payload' = payload ++ Loop.code ⟨loopBody a unrolled, rolled⟩ ∧ LoopOk a unrolled := by
  obtain ⟨ref, href, h⟩ := Py.bind_eq_ok.mp h
  obtain ⟨v, hv, h⟩ := Py.bind_eq_ok.mp h
  obtain ⟨_, hlt, h⟩ := Py.bind_eq_ok.mp h
  obtain ⟨loop, hloop, h⟩ := Py.bind_eq_ok.mp h
  rw [init_loop] at hloop
  cases hloop
  cases h
  rw [Py.check_eq_ok] at hlt
  obtain ⟨rfl, hop⟩ := init_refresh href
  rw [foldlM_unrolled, List.length_range] at hv
  obtain ⟨hpay, hlen, hpos⟩ := foldlM_encodeRow hv
  rw [length_unrolled] at hlen hpos
  have hjump : 2 * unrolled * a.rowSequence.length + v.localRefreshes = (loopBody a unrolled).length := by
    rw [loopBody, List.length_cons, Nat.mul_assoc]
    dsimp only at hlen
    omega
  rw [hjump] at hlt ⊢
  refine ⟨?_, hlt, hop, hpos⟩
  rw [hpay, Loop.code, Loop.jump, loopBody]
  simp [LoopArgs.ref]

/-- The loops of `encodeLongLoop`. -/
def longLoop (a : LoopArgs) (unrolled rolled n : Nat) : List Loop :=
  (List.range n).map fun outerIdx => ⟨loopBody a unrolled, loopCount rolled outerIdx⟩

theorem foldlM_loops {unrolled rolled : Nat} : ∀ {idxs : List Nat} {s s' : List I × Nat},
    idxs.foldlM (fun (payload, refreshes) outerIdx => do
      let (payload, local_) ← encodeOneLoop unrolled (loopCount rolled outerIdx) a payload
      return (payload, refreshes + local_)) s = .ok s' →
    s'.1 = s.1 ++ (idxs.map fun outerIdx => (⟨loopBody a unrolled, loopCount rolled outerIdx⟩ : Loop)).flatMap
      Loop.code ∧
      (idxs ≠ [] → LoopOk a unrolled) := by
  intro idxs
  induction idxs with
  | nil =>
    intro s s' h
    cases h
    simp
  | cons i idxs ih =>
    intro s s' h
    rw [List.foldlM_cons, Py.bind_eq_ok] at h
    obtain ⟨s₁, h₁, h⟩ := h
    obtain ⟨⟨payload, refreshes⟩, hone, h₁⟩ := Py.bind_eq_ok.mp h₁
    cases h₁
    obtain ⟨hp₁, hok⟩ := encodeOneLoop_ok hone
    obtain ⟨hp, -⟩ := ih h
    refine ⟨?_, fun _ => hok⟩
    rw [hp, hp₁]
    simp

/-- The loops of a long loop, and how many there are. -/
theorem encodeLongLoop_ok {unrolled rolled : Nat} {payload : List I} {p : List I × Nat}
    (h : encodeLongLoop unrolled rolled a payload = .ok p) :
    ∃ n, nLoops rolled = .ok n ∧ p.1 = payload ++ (longLoop a unrolled rolled n).flatMap Loop.code ∧
      (n ≠ 0 → LoopOk a unrolled) := by
  obtain ⟨n, hn, h⟩ := Py.bind_eq_ok.mp h
  obtain ⟨hp, hok⟩ := foldlM_loops h
  refine ⟨n, hn, hp, fun hne => hok ?_⟩
  rw [ne_eq, List.range_eq_nil]
  exact hne

end Loops

/-! ## Numbers of iterations -/

theorem countMax_eq : countMax = 4095 := rfl

theorem loopCount_lt (rolled outerIdx : Nat) : loopCount rolled outerIdx < 2 ^ 12 := by
  unfold loopCount
  rw [countMax_eq]
  dsimp only
  split
  · split <;> omega
  · omega

theorem nLoops_eq {rolled n : Nat} (h : nLoops rolled = .ok n) : n = (toDouble rolled + 4095) / 4096 := by
  unfold nLoops at h
  split at h
  · cases h
  · cases h
    rfl

theorem nLoops_eq_zero_iff {rolled n : Nat} (h : nLoops rolled = .ok n) : n = 0 ↔ rolled = 0 := by
  rw [nLoops_eq h]
  rcases Nat.eq_zero_or_pos rolled with rfl | hpos
  · simp [toDouble]
  · have := le_two_mul_toDouble rolled
    omega

/-- The iterations of the loops of a long loop. -/
def iterations (rolled n : Nat) : Nat := ((List.range n).map fun outerIdx => loopCount rolled outerIdx + 1).sum

theorem iterations_succ (rolled n : Nat) : iterations rolled (n + 1) = loopCount rolled 0 + 1 + 4096 * n := by
  unfold iterations
  rw [List.range_succ_eq_map, List.map_cons, List.map_map, List.sum_cons]
  have hconst : (fun outerIdx => loopCount rolled outerIdx + 1) ∘ Nat.succ = fun _ => 4096 := by
    funext k
    rfl
  rw [hconst]
  simp [Nat.mul_comm]

/-- **The loops run `rolled` times in all** while `rolled` is exactly a double. -/
theorem iterations_eq {rolled n : Nat} (hlt : rolled < 2 ^ 53) (h : nLoops rolled = .ok n) :
    iterations rolled n = rolled := by
  have hn := nLoops_eq h
  rw [toDouble_of_lt hlt] at hn
  cases n with
  | zero =>
    have hzero : rolled = 0 := by omega
    rw [hzero]
    rfl
  | succ n =>
    have hcount : loopCount rolled 0 + 1 = if rolled % 4096 = 0 then 4096 else rolled % 4096 := by
      unfold loopCount
      rw [countMax_eq, if_pos rfl]
      dsimp only
      split <;> omega
    rw [iterations_succ, hcount]
    split <;> omega

/-- Beyond that the number of iterations is rounded, but not to 1. -/
theorem iterations_eq_one_iff {rolled n : Nat} (h : nLoops rolled = .ok n) : iterations rolled n = 1 ↔ rolled = 1 := by
  by_cases hlt : rolled < 2 ^ 53
  · rw [iterations_eq hlt h]
  · have hn := nLoops_eq h
    have hle := le_two_mul_toDouble rolled
    obtain ⟨m, rfl⟩ : ∃ m, n = m + 2 := ⟨n - 2, by omega⟩
    rw [iterations_succ]
    omega

theorem iterations_eq_zero_iff {rolled n : Nat} (h : nLoops rolled = .ok n) : iterations rolled n = 0 ↔ rolled = 0 := by
  rw [← nLoops_eq_zero_iff h]
  cases n with
  | zero => simp [iterations]
  | succ n =>
    rw [iterations_succ]
    omega

/-! ## The unroll factor -/

theorem gcdLoop_eq : ∀ (fuel : Nat) (gcd rem : Int), rem.natAbs ≤ fuel → 0 ≤ rem → (rem = 0 → 0 ≤ gcd) →
    gcdLoop fuel gcd rem = Int.gcd gcd rem := by
  intro fuel
  induction fuel with
  | zero =>
    intro gcd rem hf h0 hz
    obtain rfl : rem = 0 := by omega
    rw [gcdLoop, Int.gcd_zero_right]
    exact Int.eq_natAbs_of_nonneg (hz rfl)
  | succ fuel ih =>
    intro gcd rem hf h0 hz
    rw [gcdLoop]
    split
    · next hr =>
      subst hr
      rw [Int.gcd_zero_right]
      exact Int.eq_natAbs_of_nonneg (hz rfl)
    · next hr =>
      have hpos : 0 < rem := by omega
      rw [Int.fmod_eq_emod_of_nonneg _ h0]
      have hnn := Int.emod_nonneg gcd hr
      have hlt := Int.emod_lt_of_pos gcd hpos
      rw [ih rem (gcd % rem) (by omega) hnn (fun _ => h0), Int.gcd_comm rem, Int.gcd_emod]

/-- The rows that fit in one refresh interval. -/
def Timings.actsPerInterval (t : Timings) : Nat := (t.tREFI - t.tRFC) / (t.tRAS + t.tRP)

/-- The unroll factor for `len` rows. -/
def Timings.reps (t : Timings) (len : Nat) : Nat := min (Nat.lcm t.actsPerInterval len) maxActsInLoop / len

theorem leastCommonMultiple_natCast (x y : Nat) (hy : 0 < y) : leastCommonMultiple x y = .ok (Nat.lcm x y) := by
  have hg : gcdLoop (y : Int).natAbs x y = Nat.gcd x y := gcdLoop_eq _ _ _ (le_refl _) (by omega) (by omega)
  have hpos : 0 < Nat.gcd x y := Nat.gcd_pos_of_pos_right x hy
  unfold leastCommonMultiple
  rw [hg]
  dsimp only
  rw [if_neg (by omega), Int.fdiv_eq_ediv_of_nonneg _ (by omega), Nat.lcm_eq_mul_div]
  norm_cast

theorem leastCommonMultiple_nonpos {x : Int} {y : Nat} (hx : x ≤ 0) (hy : 0 < y) {m : Int}
    (h : leastCommonMultiple x y = .ok m) : m ≤ 0 := by
  have hg : gcdLoop (y : Int).natAbs x y = Int.gcd x y := gcdLoop_eq _ _ _ (le_refl _) (by omega) (by omega)
  unfold leastCommonMultiple at h
  rw [hg] at h
  dsimp only at h
  split at h
  · cases h
  · cases h
    rw [Int.fdiv_eq_ediv_of_nonneg _ (by omega)]
    exact Int.ediv_nonpos_of_nonpos_of_neg (Int.mul_nonpos_of_nonpos_of_nonneg hx (by omega)) (by omega)

/-- **The unroll factor.** A payload is only made when a row fits in the refresh interval. -/
theorem repetitions_ok {t : Timings} {len r : Nat} (h : repetitions t len = .ok r) :
    0 < len ∧ 0 < t.tRAS + t.tRP ∧ t.tRFC + (t.tRAS + t.tRP) ≤ t.tREFI ∧ r = t.reps len ∧ 0 < r := by
  obtain ⟨_, hs, h⟩ := Py.bind_eq_ok.mp h
  obtain ⟨lcm, hlcm, h⟩ := Py.bind_eq_ok.mp h
  obtain ⟨_, hunit, h⟩ := Py.bind_eq_ok.mp h
  obtain ⟨_, hlen, h⟩ := Py.bind_eq_ok.mp h
  cases h
  rw [Py.check_eq_ok] at hs hunit hlen
  have hpos : 0 < len := Nat.pos_of_ne_zero hlen
  have hsum : 0 < t.tRAS + t.tRP := by omega
  rw [Int.fdiv_eq_ediv_of_nonneg _ (by omega)] at hlcm
  -- a non-positive quotient gives a non-positive lcm, which fails the assertion
  have hfit : t.tRFC + (t.tRAS + t.tRP) ≤ t.tREFI := by
    by_contra hlt
    have hq : ((t.tREFI : Int) - t.tRFC) / (t.tRP + t.tRAS : Nat) ≤ 0 := by
      apply Int.lt_add_one_iff.mp
      exact Int.ediv_lt_of_lt_mul (by omega) (by push_cast; omega)
    have := leastCommonMultiple_nonpos hq hpos hlcm
    omega
  have hacts : ((t.tREFI : Int) - t.tRFC) / (t.tRP + t.tRAS : Nat) = (t.actsPerInterval : Nat) := by
    rw [Timings.actsPerInterval, Nat.add_comm t.tRP, Int.natCast_ediv, Int.ofNat_sub (by omega)]
  rw [hacts, leastCommonMultiple_natCast _ _ hpos] at hlcm
  cases hlcm
  have hmin : min ((Nat.lcm t.actsPerInterval len : Nat) : Int) maxActsInLoop =
      (min (Nat.lcm t.actsPerInterval len) maxActsInLoop : Nat) := by omega
  have hle : len ≤ min (Nat.lcm t.actsPerInterval len) maxActsInLoop := by
    rw [hmin] at hunit
    omega
  have hr : ((min ((Nat.lcm t.actsPerInterval len : Nat) : Int) maxActsInLoop).fdiv len).toNat = t.reps len := by
    rw [hmin, Int.fdiv_eq_ediv_of_nonneg _ (by omega), ← Int.natCast_ediv]
    rfl
  exact ⟨hpos, hsum, hfit, hr, hr ▸ Nat.div_pos hle hpos⟩

/-! ## Payloads -/

namespace RowListArgs

def refreshOp (args : RowListArgs) : OpCode := if args.refresh then .REF else .NOOP

theorem refreshOp_eq_ref {args : RowListArgs} (hr : args.refresh = true) : args.refreshOp = .REF := by
  rw [refreshOp, if_pos hr]

theorem refreshOp_eq_noop {args : RowListArgs} (hr : args.refresh = false) : args.refreshOp = .NOOP := by
  rw [refreshOp, hr]
  rfl

def loopArgs (args : RowListArgs) : LoopArgs :=
  ⟨args.rowSequence, args.timings, ⟨args.bankbits, args.nranks⟩, args.bank, args.rank, args.refreshOp⟩

def reps (args : RowListArgs) : Nat := args.timings.reps args.rowSequence.length

/-- The cycles that the first instruction asks for. -/
def lead (args : RowListArgs) : Nat := max 1 (max (args.timings.tRFC - 2) (args.timings.tREFI - 2))

/-- The loops of a payload, `n₁` of them around the unrolled row sequence and `n₂` around the row sequence. -/
def loops (args : RowListArgs) (n₁ n₂ : Nat) : List Loop :=
  longLoop args.loopArgs args.reps (args.readCount / args.reps) n₁ ++
    longLoop args.loopArgs 1 (args.readCount % args.reps) n₂

/-- The instructions of a payload. -/
def program (args : RowListArgs) (n₁ n₂ : Nat) : List I :=
  I.noop args.lead :: ((args.loops n₁ n₂).flatMap Loop.code ++ [refreshI args.refreshOp 1, I.noop 0])

/-- What a payload that could be made tells about its arguments. -/
structure Generated (args : RowListArgs) (words : List Nat) (n₁ n₂ : Nat) : Prop where
  rows : 0 < args.rowSequence.length
  cycles : 0 < args.timings.tRAS + args.timings.tRP
  fits : args.timings.tRFC + (args.timings.tRAS + args.timings.tRP) ≤ args.timings.tREFI
  reps : 0 < args.reps
  quotient : nLoops (args.readCount / args.reps) = .ok n₁
  remainder : nLoops (args.readCount % args.reps) = .ok n₂
  unrolled : n₁ ≠ 0 → LoopOk args.loopArgs args.reps
  single : n₂ ≠ 0 → LoopOk args.loopArgs 1
  words_eq : words = encodePayload (args.program n₁ n₂)

/-- **A returned payload** is a lead NOOP, the loops, the last refresh and the STOP. -/
theorem generated_of_ok {args : RowListArgs} {words : List Nat} (h : generatePayloadFromRowList args = .ok words) :
    ∃ n₁ n₂, Generated args words n₁ n₂ := by
  obtain ⟨reps, hreps, h⟩ := Py.bind_eq_ok.mp h
  obtain ⟨_, -, h⟩ := Py.bind_eq_ok.mp h
  obtain ⟨lead, hlead, h⟩ := Py.bind_eq_ok.mp h
  obtain ⟨p₁, hp₁, h⟩ := Py.bind_eq_ok.mp h
  obtain ⟨p₂, hp₂, h⟩ := Py.bind_eq_ok.mp h
  obtain ⟨sync, hsync, h⟩ := Py.bind_eq_ok.mp h
  obtain ⟨stop, hstop, h⟩ := Py.bind_eq_ok.mp h
  obtain ⟨_, -, h⟩ := Py.bind_eq_ok.mp h
  cases h
  rw [init_noop] at hlead hstop
  cases hlead
  cases hstop
  obtain ⟨rfl, -⟩ := init_refresh hsync
  obtain ⟨hrows, hcycles, hfits, rfl, hpos⟩ := repetitions_ok hreps
  obtain ⟨n₁, hn₁, hq₁, hok₁⟩ := encodeLongLoop_ok hp₁
  obtain ⟨n₂, hn₂, hq₂, hok₂⟩ := encodeLongLoop_ok hp₂
  refine ⟨n₁, n₂, hrows, hcycles, hfits, hpos, hn₁, hn₂, hok₁, hok₂, ?_⟩
  rw [hq₂, hq₁, program, loops]
  simp [lead, loopArgs, refreshOp, RowListArgs.reps]

/-- A returned payload fits into the payload memory. -/
theorem length_le_of_ok {args : RowListArgs} {words : List Nat} (h : generatePayloadFromRowList args = .ok words) :
    words.length ≤ args.payloadMemSize / 4 := by
  obtain ⟨_, -, h⟩ := Py.bind_eq_ok.mp h
  obtain ⟨_, -, h⟩ := Py.bind_eq_ok.mp h
  obtain ⟨_, -, h⟩ := Py.bind_eq_ok.mp h
  obtain ⟨_, -, h⟩ := Py.bind_eq_ok.mp h
  obtain ⟨_, -, h⟩ := Py.bind_eq_ok.mp h
  obtain ⟨_, -, h⟩ := Py.bind_eq_ok.mp h
  obtain ⟨_, -, h⟩ := Py.bind_eq_ok.mp h
  obtain ⟨_, hfits, h⟩ := Py.bind_eq_ok.mp h
  cases h
  rw [encodePayload, List.length_map]
  exact Py.check_eq_ok.mp hfits

/-- A payload with a loop has at least five words. -/
theorem Generated.five_le_length {args : RowListArgs} {words : List Nat} {n₁ n₂ : Nat}
    (h : Generated args words n₁ n₂) (hne : args.loops n₁ n₂ ≠ []) : 5 ≤ words.length := by
  obtain ⟨l, ls, hls⟩ := List.exists_cons_of_ne_nil hne
  have hl : l ∈ args.loops n₁ n₂ := hls ▸ List.mem_cons_self ..
  have hbody : 1 ≤ l.body.length := by
    rcases List.mem_append.mp hl with hl | hl
    · obtain ⟨_, -, rfl⟩ := List.mem_map.mp hl
      exact Nat.le_add_left 1 _
    · obtain ⟨_, -, rfl⟩ := List.mem_map.mp hl
      exact Nat.le_add_left 1 _
  rw [h.words_eq, encodePayload, List.length_map, program, hls]
  simp only [List.length_cons, List.length_append, List.flatMap_cons, List.length_nil, Loop.code]
  omega

/-- Every loop takes a word. -/
theorem Generated.loops_le_length {args : RowListArgs} {words : List Nat} {n₁ n₂ : Nat}
    (h : Generated args words n₁ n₂) : n₁ ≤ words.length := by
  have hcode : ∀ l : List Loop, l.length ≤ (l.flatMap Loop.code).length := by
    intro l
    induction l with
    | nil => exact Nat.le_refl 0
    | cons a l ih =>
      rw [List.length_cons, List.flatMap_cons, List.length_append, Loop.code, List.length_append, List.length_singleton]
      omega
  have hcount : n₁ ≤ (args.loops n₁ n₂).length := by
    rw [loops, List.length_append, longLoop, List.length_map, List.length_range]
    omega
  have hloops := hcode (args.loops n₁ n₂)
  rw [h.words_eq, encodePayload, List.length_map, program, List.length_cons, List.length_append]
  omega

/-- The loops of a payload of less than `2 ^ 40` words are counted exactly. -/
theorem Generated.quotient_lt {args : RowListArgs} {words : List Nat} {n₁ n₂ : Nat}
    (h : Generated args words n₁ n₂) (hlen : words.length < 2 ^ 40) : args.readCount / args.reps < 2 ^ 53 := by
  have hn := nLoops_eq h.quotient
  have hle := le_two_mul_toDouble (args.readCount / args.reps)
  have hloops := h.loops_le_length
  omega

theorem Generated.remainder_lt {args : RowListArgs} {words : List Nat} {n₁ n₂ : Nat}
    (h : Generated args words n₁ n₂) : args.readCount % args.reps < 2 ^ 53 := by
  have hmod := Nat.mod_lt args.readCount h.reps
  have hreps : args.reps ≤ maxActsInLoop := (Nat.div_le_self _ _).trans (min_le_right _ _)
  have hmax : maxActsInLoop < 2 ^ 53 := by decide
  omega

end RowListArgs

end RowhammerTester.Playbook
