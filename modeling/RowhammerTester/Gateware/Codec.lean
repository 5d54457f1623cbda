import RowhammerTester.Gateware.Instruction

/-!
# The encoder and the decoder are inverse

* `I.loop`, `I.noop`, `I.dfi` : the specifications that `Encoder.I` accepts;
* `word spec` : the payload-memory word of a specification, `toNat_word` its value;
* `decode_loop`, `decode_noop`, `decode_dfi` : every decoder signal of an encoded word, fields masked to their widths;
* `address_fields` : the rank, bank and row or column read back from `Encoder.address`;
* `decode_encodeSpec_inverse` : both round trips, for every geometry.
-/

namespace RowhammerTester.Gateware
open RowhammerTester.Hdl

namespace Encoder

/-! ## Specifications -/

/-- `I(LOOP, count=, jump=)`. -/
def I.loop (count jump : Nat) : I :=
  ⟨.LOOP, { count := some count, jump := some jump },
    [(Decoder.OP_CODE, OpCode.LOOP.value), (Decoder.LOOP_COUNT, count), (Decoder.LOOP_JUMP, jump)]⟩

/-- `I(NOOP, timeslice=)`. -/
def I.noop (timeslice : Nat) : I :=
  ⟨.NOOP, { timeslice := some timeslice },
    [(Decoder.OP_CODE, OpCode.NOOP.value), (Decoder.TIMESLICE_NOOP, timeslice)]⟩

/-- `I(op_code, timeslice=, address=)` for a DRAM command. -/
def I.dfi (op : OpCode) (timeslice : Nat) (address : Option Nat) : I :=
  ⟨op, { timeslice := some timeslice, address := address },
    [(Decoder.OP_CODE, op.value), (Decoder.TIMESLICE, timeslice), (Decoder.ADDRESS, address.getD 0)]⟩

/-- The op codes of DRAM commands. -/
def isDfi (op : OpCode) : Bool := op != .NOOP && op != .LOOP

theorem init_loop (count jump : Nat) :
    I.init .LOOP { count := some count, jump := some jump } = .ok (I.loop count jump) := rfl

theorem init_noop (timeslice : Nat) : I.init .NOOP { timeslice := some timeslice } = .ok (I.noop timeslice) := rfl

/-- `Encoder.I` accepts a DRAM command with a nonzero timeslice, and an address unless it is a REF. -/
theorem init_dfi {op : OpCode} (hop : isDfi op) {timeslice : Nat} (hts : timeslice ≠ 0) {address : Option Nat}
    (ha : address = none → op = .REF) :
    I.init op { timeslice := some timeslice, address := address } = .ok (I.dfi op timeslice address) := by
  cases op <;> cases address <;> first | exact absurd hop (by decide) | skip
  all_goals first | exact absurd (ha rfl) (by decide) | skip
  all_goals
    simp only [I.init, Kwargs.get, bind, Except.bind, if_neg hts, I.dfi]
    rfl

/-! ## Encoded words -/

theorem encodeSpec_loop (count jump : Nat) :
    encodeSpec (I.loop count jump) = 7 + 8 * (count % 2 ^ 12 + 2 ^ 12 * (jump % 2 ^ 17)) := by
  simp only [encodeSpec, packFields_eq, I.loop, concat, Decoder.OP_CODE, Decoder.LOOP_COUNT, Decoder.LOOP_JUMP,
    OpCode.value]
  omega

theorem encodeSpec_noop (timeslice : Nat) : encodeSpec (I.noop timeslice) = 8 * (timeslice % 2 ^ 29) := by
  simp only [encodeSpec, packFields_eq, I.noop, concat, Decoder.OP_CODE, Decoder.TIMESLICE_NOOP, Decoder.TIMESLICE,
    Decoder.ADDRESS, OpCode.value]
  omega

theorem encodeSpec_dfi (op : OpCode) (timeslice : Nat) (address : Option Nat) :
    encodeSpec (I.dfi op timeslice address) =
      op.value + 8 * (timeslice % 2 ^ 5 + 2 ^ 5 * (address.getD 0 % 2 ^ 24)) := by
  have hop := op.value_lt
  simp only [encodeSpec, packFields_eq, I.dfi, concat, Decoder.OP_CODE, Decoder.TIMESLICE, Decoder.ADDRESS]
  omega

/-- The word of the payload memory that holds an encoded instruction. -/
def word (spec : I) : BitVec 32 := BitVec.ofNat 32 (encodeSpec spec)

theorem toNat_word_loop (count jump : Nat) :
    (word (I.loop count jump)).toNat = 7 + 8 * (count % 2 ^ 12 + 2 ^ 12 * (jump % 2 ^ 17)) := by
  rw [word, BitVec.toNat_ofNat, encodeSpec_loop, Nat.mod_eq_of_lt (by omega)]

theorem toNat_word_noop (timeslice : Nat) : (word (I.noop timeslice)).toNat = 8 * (timeslice % 2 ^ 29) := by
  rw [word, BitVec.toNat_ofNat, encodeSpec_noop, Nat.mod_eq_of_lt (by omega)]

theorem toNat_word_dfi (op : OpCode) (timeslice : Nat) (address : Option Nat) :
    (word (I.dfi op timeslice address)).toNat =
      op.value + 8 * (timeslice % 2 ^ 5 + 2 ^ 5 * (address.getD 0 % 2 ^ 24)) := by
  have hop := op.value_lt
  rw [word, BitVec.toNat_ofNat, encodeSpec_dfi, Nat.mod_eq_of_lt (by omega)]

/-! ## Decoded words -/

section Decode
variable (g : Geometry)

theorem decode_loop (count jump : Nat) :
    (Decoder.decode g (word (I.loop count jump))).opCode = OpCode.LOOP.value ∧
      (Decoder.decode g (word (I.loop count jump))).loopCount = count % 2 ^ 12 ∧
      (Decoder.decode g (word (I.loop count jump))).loopJump = jump % 2 ^ 17 ∧
      (Decoder.decode g (word (I.loop count jump))).stop = false := by
  simp only [Decoder.decode, toNat_word_loop, slice, Decoder.OP_CODE, Decoder.LOOP_COUNT, Decoder.LOOP_JUMP,
    OpCode.value]
  refine ⟨by omega, by omega, by omega, ?_⟩
  rw [Bool.and_eq_false_iff]
  left
  rw [beq_eq_false_iff_ne]
  omega

theorem decode_noop (timeslice : Nat) :
    (Decoder.decode g (word (I.noop timeslice))).opCode = OpCode.NOOP.value ∧
      (Decoder.decode g (word (I.noop timeslice))).timeslice = timeslice % 2 ^ 29 ∧
      (Decoder.decode g (word (I.noop timeslice))).stop = decide (timeslice % 2 ^ 29 = 0) := by
  have hop : 8 * (timeslice % 2 ^ 29) / 2 ^ 0 % 2 ^ 3 = 0 := by omega
  simp only [Decoder.decode, toNat_word_noop, slice, Decoder.OP_CODE, Decoder.TIMESLICE_NOOP, Decoder.TIMESLICE,
    Decoder.ADDRESS, OpCode.value, hop, if_true]
  refine ⟨trivial, by omega, ?_⟩
  rw [show 8 * (timeslice % 2 ^ 29) / 2 ^ 3 / 2 ^ 0 % 2 ^ (5 + 24) = timeslice % 2 ^ 29 by omega]
  rfl

theorem decode_dfi {op : OpCode} (hop : isDfi op) (timeslice : Nat) (address : Option Nat) :
    (Decoder.decode g (word (I.dfi op timeslice address))).opCode = op.value ∧
      (Decoder.decode g (word (I.dfi op timeslice address))).timeslice = timeslice % 2 ^ 5 ∧
      (Decoder.decode g (word (I.dfi op timeslice address))).address = address.getD 0 % 2 ^ 24 ∧
      (Decoder.decode g (word (I.dfi op timeslice address))).stop = false := by
  have hlt := op.value_lt
  have hne : op.value ≠ 0 := by cases op <;> first | exact absurd hop (by decide) | decide
  have hcode : (op.value + 8 * (timeslice % 2 ^ 5 + 2 ^ 5 * (address.getD 0 % 2 ^ 24))) / 2 ^ 0 % 2 ^ 3 = op.value := by
    omega
  simp only [Decoder.decode, toNat_word_dfi, slice, Decoder.OP_CODE, Decoder.TIMESLICE, Decoder.ADDRESS,
    show OpCode.NOOP.value = 0 from rfl, hcode, if_neg hne]
  refine ⟨trivial, by omega, by omega, ?_⟩
  rw [Bool.and_eq_false_iff]
  exact Or.inl (beq_eq_false_iff_ne.mpr hne)

theorem dfiRank_decode (w : BitVec 32) :
    (Decoder.decode g w).dfiRank = slice (Decoder.decode g w).address 0 g.rankbits := rfl

theorem dfiBank_decode (w : BitVec 32) :
    (Decoder.decode g w).dfiBank = slice (Decoder.decode g w).address g.rankbits g.bankbits := rfl

theorem dfiAddress_decode (w : BitVec 32) : (Decoder.decode g w).dfiAddress =
    slice (Decoder.decode g w).address (g.rankbits + g.bankbits) g.addressbits := rfl

end Decode

/-! ## The address field -/

theorem log2Int_two_pow (r : Nat) : log2Int (2 ^ r) = .ok r := by
  have hpos := Nat.two_pow_pos r
  have hle : bitLength (2 ^ r - 1) ≤ r := bitLength_le_of_lt (by omega)
  have hge : r ≤ bitLength (2 ^ r - 1) := by
    have h := lt_two_pow_bitLength (2 ^ r - 1)
    exact (Nat.pow_le_pow_iff_right (by decide)).mp (show 2 ^ r ≤ 2 ^ bitLength (2 ^ r - 1) by omega)
  have heq : bitLength (2 ^ r - 1) = r := le_antisymm hle hge
  rw [log2Int, if_neg (by omega), heq, if_pos rfl]

/-- The value of `Encoder.address` as a concatenation `RANK | BANK | ROW or COLUMN`. -/
theorem address_eq {e : Encoder} {r : Nat} (hr : e.nranks = 2 ^ r) {args : AddressArgs} {rank : Nat}
    (hrank : args.rank = some rank) (hlt : rank < 2 ^ r) (hrc : ¬ (args.row.isSome ∧ args.col.isSome)) :
    e.address args = .ok (rank + 2 ^ r * (args.bank % 2 ^ e.bankbits +
      2 ^ e.bankbits * (args.row.or args.col).getD 0)) := by
  have hbank := Nat.mod_lt args.bank (Nat.two_pow_pos e.bankbits)
  unfold address
  rw [if_neg hrc]
  dsimp only
  rw [Nat.and_two_pow_sub_one_eq_mod, or_shiftLeft_eq_add _ _ _ hbank]
  by_cases h1 : e.nranks > 1
  · rw [if_pos h1, hr, log2Int_two_pow, hrank]
    simp only [bind, Except.bind]
    rw [Nat.or_comm, or_shiftLeft_eq_add _ _ _ hlt]
    rfl
  · have hr0 : r = 0 := by
      by_contra hne
      have := Nat.one_lt_two_pow hne
      omega
    subst hr0
    rw [if_neg h1, show rank = 0 by omega, Nat.zero_add, pow_zero, Nat.one_mul]
    rfl

/-- The rank, bank and row or column of an address field, read back by the decoder. -/
theorem address_fields (g : Geometry) {rank bank : Nat} (hrank : rank < 2 ^ g.rankbits) (hbank : bank < 2 ^ g.bankbits)
    (rowcol : Nat) :
    let a := (rank + 2 ^ g.rankbits * (bank + 2 ^ g.bankbits * rowcol)) % 2 ^ 24
    slice a 0 g.rankbits = rank ∧ slice a g.rankbits g.bankbits = bank ∧
      slice a (g.rankbits + g.bankbits) g.addressbits = rowcol % 2 ^ g.addressbits := by
  have hfits : g.rankbits + g.bankbits + g.addressbits ≤ 24 := g.fits
  dsimp only
  refine ⟨?_, ?_, ?_⟩
  · rw [slice_mod _ (by omega), slice_low _ _ _ _ (le_refl _), Nat.mod_eq_of_lt hrank]
  · have := slice_high rank (bank + 2 ^ g.bankbits * rowcol) g.rankbits 0 g.bankbits hrank
    rw [Nat.add_zero] at this
    rw [slice_mod _ (by omega), this, slice_low _ _ _ _ (le_refl _), Nat.mod_eq_of_lt hbank]
  · have := slice_high bank rowcol g.bankbits 0 g.addressbits hbank
    rw [Nat.add_zero] at this
    rw [slice_mod _ hfits, slice_high _ _ _ _ _ hrank, this, slice, pow_zero, Nat.div_one]

/-! ## Round trips -/

/-- A decoded DRAM command gives back the rank, bank and row or column of its address. -/
theorem decode_dfi_address (g : Geometry) {op : OpCode} (hop : isDfi op) (timeslice : Nat) {args : AddressArgs}
    {rank : Nat} (hr : args.rank = some rank) (hrank : rank < 2 ^ g.rankbits)
    (hrc : ¬ (args.row.isSome ∧ args.col.isSome)) :
    ∃ a, address ⟨g.bankbits, 2 ^ g.rankbits⟩ args = .ok a ∧
      (Decoder.decode g (word (I.dfi op timeslice (some a)))).dfiRank = rank ∧
      (Decoder.decode g (word (I.dfi op timeslice (some a)))).dfiBank = args.bank % 2 ^ g.bankbits ∧
      (Decoder.decode g (word (I.dfi op timeslice (some a)))).dfiAddress =
        (args.row.or args.col).getD 0 % 2 ^ g.addressbits := by
  refine ⟨_, address_eq (e := ⟨g.bankbits, 2 ^ g.rankbits⟩) rfl hr hrank hrc, ?_⟩
  have hd := fun a => (decode_dfi g hop timeslice (some a)).2.2.1
  rw [dfiRank_decode, dfiBank_decode, dfiAddress_decode, hd]
  exact address_fields g hrank (Nat.mod_lt _ (Nat.two_pow_pos _)) _

/-- The keyword arguments that the decoded fields of an instruction with op code `op` stand for. -/
def decodedKwargs (op : OpCode) (d : Decoder) : Kwargs :=
  match op with
  | .LOOP => { count := some d.loopCount, jump := some d.loopJump }
  | .NOOP => { timeslice := some d.timeslice }
  | _ => { timeslice := some d.timeslice, address := some d.address }

theorem encodeSpec_decode_loop (g : Geometry) (w : BitVec 32)
    (h : (Decoder.decode g w).opCode = OpCode.LOOP.value) :
    encodeSpec (I.loop (Decoder.decode g w).loopCount (Decoder.decode g w).loopJump) = w.toNat := by
  have hw := w.isLt
  simp only [Decoder.decode, slice, Decoder.OP_CODE, Decoder.LOOP_COUNT, Decoder.LOOP_JUMP, OpCode.value] at h ⊢
  rw [encodeSpec_loop]
  omega

theorem encodeSpec_decode_noop (g : Geometry) (w : BitVec 32)
    (h : (Decoder.decode g w).opCode = OpCode.NOOP.value) :
    encodeSpec (I.noop (Decoder.decode g w).timeslice) = w.toNat := by
  have hw := w.isLt
  simp only [Decoder.decode] at h ⊢
  rw [if_pos h, encodeSpec_noop]
  simp only [slice, Decoder.OP_CODE, Decoder.TIMESLICE_NOOP, Decoder.TIMESLICE, Decoder.ADDRESS, OpCode.value] at h ⊢
  omega

theorem encodeSpec_decode_dfi (g : Geometry) (w : BitVec 32) {op : OpCode} (hop : isDfi op)
    (h : (Decoder.decode g w).opCode = op.value) :
    encodeSpec (I.dfi op (Decoder.decode g w).timeslice (some (Decoder.decode g w).address)) = w.toNat := by
  have hw := w.isLt
  have hne : op.value ≠ OpCode.NOOP.value := by
    rw [ne_eq, OpCode.value_inj]
    rintro rfl
    exact absurd hop (by decide)
  simp only [Decoder.decode] at h ⊢
  rw [if_neg (by rw [h]; exact hne), encodeSpec_dfi, ← h]
  simp only [slice, Decoder.OP_CODE, Decoder.TIMESLICE, Decoder.ADDRESS, Option.getD_some]
  omega

/-- **Encoder and decoder are inverse** for every geometry: decoding an encoded specification whose fields fit gives the
fields back, and encoding the decoded fields of a word with a known op code gives the word back. -/
theorem decode_encodeSpec_inverse (g : Geometry) :
    (∀ timeslice < 2 ^ 29, ∃ spec, I.init .NOOP { timeslice := some timeslice } = .ok spec ∧
      (Decoder.decode g (word spec)).opCode = OpCode.NOOP.value ∧
      (Decoder.decode g (word spec)).timeslice = timeslice ∧
      (Decoder.decode g (word spec)).stop = decide (timeslice = 0)) ∧
    (∀ count < 2 ^ 12, ∀ jump < 2 ^ 17, ∃ spec,
      I.init .LOOP { count := some count, jump := some jump } = .ok spec ∧
      (Decoder.decode g (word spec)).opCode = OpCode.LOOP.value ∧
      (Decoder.decode g (word spec)).loopCount = count ∧ (Decoder.decode g (word spec)).loopJump = jump ∧
      (Decoder.decode g (word spec)).stop = false) ∧
    (∀ op, isDfi op → ∀ timeslice, 1 ≤ timeslice → timeslice ≤ 31 →
      ∀ address < 2 ^ 24, ∃ spec,
      I.init op { timeslice := some timeslice, address := some address } = .ok spec ∧
      (Decoder.decode g (word spec)).opCode = op.value ∧ (Decoder.decode g (word spec)).timeslice = timeslice ∧
      (Decoder.decode g (word spec)).address = address ∧ (Decoder.decode g (word spec)).stop = false) ∧
    (∀ timeslice, 1 ≤ timeslice → timeslice ≤ 31 → ∃ spec,
      I.init .REF { timeslice := some timeslice } = .ok spec ∧
      (Decoder.decode g (word spec)).opCode = OpCode.REF.value ∧
      (Decoder.decode g (word spec)).timeslice = timeslice ∧ (Decoder.decode g (word spec)).stop = false) ∧
    (∀ op, isDfi op → ∀ timeslice, 1 ≤ timeslice → timeslice ≤ 31 →
      ∀ rank < 2 ^ g.rankbits, ∀ bank < 2 ^ g.bankbits, ∀ rowcol < 2 ^ g.addressbits,
      ∀ args ∈ [({ rank := some rank, bank := bank, row := some rowcol } : AddressArgs),
        { rank := some rank, bank := bank, col := some rowcol }], ∃ a spec,
      address ⟨g.bankbits, 2 ^ g.rankbits⟩ args = .ok a ∧
      I.init op { timeslice := some timeslice, address := some a } = .ok spec ∧
      (Decoder.decode g (word spec)).opCode = op.value ∧ (Decoder.decode g (word spec)).timeslice = timeslice ∧
      (Decoder.decode g (word spec)).stop = false ∧ (Decoder.decode g (word spec)).dfiRank = rank ∧
      (Decoder.decode g (word spec)).dfiBank = bank ∧ (Decoder.decode g (word spec)).dfiAddress = rowcol) ∧
    (∀ (w : BitVec 32) (op : OpCode), (Decoder.decode g w).opCode = op.value →
      (isDfi op → (Decoder.decode g w).timeslice ≠ 0) → ∃ spec,
      I.init op (decodedKwargs op (Decoder.decode g w)) = .ok spec ∧ encodeSpec spec = w.toNat) := by
  refine ⟨fun ts hts => ?_, fun count hc jump hj => ?_, fun op hop ts h1 h31 a ha => ?_, fun ts h1 h31 => ?_,
    fun op hop ts h1 h31 rank hrank bank hbank rowcol hrc args hargs => ?_, fun w op hw hts => ?_⟩
  · obtain ⟨ho, ht, hs⟩ := decode_noop g ts
    rw [Nat.mod_eq_of_lt hts] at ht hs
    exact ⟨_, init_noop ts, ho, ht, hs⟩
  · obtain ⟨ho, hlc, hlj, hs⟩ := decode_loop g count jump
    rw [Nat.mod_eq_of_lt hc] at hlc
    rw [Nat.mod_eq_of_lt hj] at hlj
    exact ⟨_, init_loop count jump, ho, hlc, hlj, hs⟩
  · obtain ⟨ho, ht, hadr, hs⟩ := decode_dfi g hop ts (some a)
    rw [Nat.mod_eq_of_lt (by omega)] at ht
    rw [Option.getD_some, Nat.mod_eq_of_lt ha] at hadr
    exact ⟨_, init_dfi hop (by omega) (fun h => by cases h), ho, ht, hadr, hs⟩
  · obtain ⟨ho, ht, -, hs⟩ := decode_dfi g (show isDfi .REF = true from rfl) ts none
    rw [Nat.mod_eq_of_lt (by omega)] at ht
    exact ⟨_, init_dfi rfl (by omega) (fun _ => rfl), ho, ht, hs⟩
  · have key : args.rank = some rank ∧ args.bank = bank ∧ ¬ (args.row.isSome ∧ args.col.isSome) ∧
        (args.row.or args.col).getD 0 = rowcol := by
      simp only [List.mem_cons, List.not_mem_nil, or_false] at hargs
      rcases hargs with rfl | rfl <;> simp
    obtain ⟨hr, hb, hnot, hrowcol⟩ := key
    obtain ⟨a, ha, hR, hB, hA⟩ := decode_dfi_address g hop ts hr hrank hnot
    obtain ⟨ho, ht, -, hs⟩ := decode_dfi g hop ts (some a)
    rw [Nat.mod_eq_of_lt (by omega)] at ht
    rw [hb, Nat.mod_eq_of_lt hbank] at hB
    rw [hrowcol, Nat.mod_eq_of_lt hrc] at hA
    exact ⟨a, _, ha, init_dfi hop (by omega) (fun h => by cases h), ho, ht, hs, hR, hB, hA⟩
  · by_cases hd : isDfi op
    · have hk : decodedKwargs op (Decoder.decode g w) =
          { timeslice := some (Decoder.decode g w).timeslice, address := some (Decoder.decode g w).address } := by
        cases op <;> first | exact absurd hd (by decide) | rfl
      rw [hk]
      exact ⟨_, init_dfi hd (hts hd) (fun h => by cases h), encodeSpec_decode_dfi g w hd hw⟩
    · cases op with
      | NOOP => exact ⟨_, init_noop _, encodeSpec_decode_noop g w hw⟩
      | LOOP => exact ⟨_, init_loop _ _, encodeSpec_decode_loop g w hw⟩
      | _ => exact absurd rfl hd

end Encoder

end RowhammerTester.Gateware
