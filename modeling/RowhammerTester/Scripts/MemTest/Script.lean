import RowhammerTester.Python
import RowhammerTester.Gateware.Bist.Board

/-!
# `hw_memset` and `hw_memtest`

The host fills a range of the DRAM with a pattern and later asks for the words that no longer hold it. It polls the
modules over the bus while they work.

* `Script` : a script of bus accesses; `ofPy` : a computation of the host; `read`, `write`, `storeWords` : the accesses;
  `_progress` : the progress bar;
* `hwMemset`, `hwMemtest`, `appendErrors` : the scripts; `rounds` bounds the rounds of their loops;
* `covering` : the settings that the scripts make; `store_covering`, `errors_covering` : the transfers they describe;
* `filled`, `changedWords` : the DRAM after a transfer of the Writer, and what one of the Reader finds.
-/

namespace RowhammerTester.Scripts
open RowhammerTester.Hdl RowhammerTester.Gateware.Bist

/-! ## The scripts -/

/-- A script raises an exception, or has not ended after the rounds that its loops are given. -/
inductive Stop where
  | raised (e : PyError)
  | outOfRounds
deriving DecidableEq, Repr

/-- A computation of the host, which may raise. -/
def ofPy {A α : Type} : Py α → Host A Nat Stop α
  | .ok a => .done a
  | .error e => .fail (.raised e)

/-- A script of bus accesses. -/
abbrev Script := Host Access Nat Stop

/-- An `assert`. -/
def assert (c : Prop) [Decidable c] (message : String) : Script Unit := Host.check c (.raised (.assertionError message))

def read (r : Status) : Script Nat := .access (.read r) .done

def write (r : Control) (v : Nat) : Script Unit := .access (.write r v) fun _ => .done ()

/-- `wb.write` of 32-bit words to a pattern memory. -/
def storeWords (m : PatternMem) : Nat → List Nat → Script Unit
  | _, [] => .done ()
  | i, v :: vs => .access (.store m i v) fun _ => storeWords m (i + 1) vs

/-- The bar is as long as `current / max`. -/
def _progress (_current max : Nat) : Script Unit := Host.check (max ≠ 0) (.raised .zeroDivisionError)

/-- Both scripts load both pattern memories. -/
def storePatterns (w offset pattern : Nat) : Script Unit := do
  storeWords .writerPatternData 0 (List.replicate (w / 8 / 4) pattern)
  storeWords .writerPatternAddr 0 [offset / (w / 8)]
  storeWords .readerPatternData 0 (List.replicate (w / 8 / 4) pattern)
  storeWords .readerPatternAddr 0 [offset / (w / 8)]

/-- The loop of `hw_memset`. -/
def waitWriter (rounds count : Nat) : Script Unit :=
  Host.loop .outOfRounds (fun _ => do
    if (← read .writerReady) ≠ 0 then
      pure (.inr ())
    else do
      let done ← read .writerDone
      _progress done count
      pure (.inl ())) rounds ()

/-- `hw_memset` for a DMA of `w` bits. -/
def hwMemset (w rounds offset size : Nat) (patterns : List Nat) : Script Unit := do
  let nbytes := w / 8
  assert (size % nbytes = 0) ("DMA data width is " ++ toString w ++ " bits")
  assert (patterns.length = 1) ""
  let pattern := patterns.headD 0 &&& 0xffffffff
  let ready ← read .writerReady
  assert (ready = 1) ""
  write .writerMemMask 0xffffffff
  storePatterns w offset pattern
  write .writerDataMask 0x00000000
  let count := size / nbytes
  write .writerCount count
  write .writerStart 1
  waitWriter rounds count
  let done ← read .writerDone
  _progress done count

/-- `BISTError`. -/
structure BistError where
  offset : Nat
  data : Nat
  expected : Nat
deriving DecidableEq, Repr

/-- `progress` of `hw_memtest`. -/
def progress (count : Nat) : Script Unit := do
  let done ← read .readerDone
  _progress done count

/-- The body of the loop of `append_errors`. -/
def takeError (count : Nat) (err : List BistError) : Script (List BistError) := do
  let offset ← read .readerErrorOffset
  let data ← read .readerErrorData
  let expected ← read .readerErrorExpected
  write .readerErrorContinue 1
  progress count
  return err ++ [⟨offset, data, expected⟩]

/-- `append_errors` of `hw_memtest`. -/
def appendErrors (rounds count : Nat) (err : List BistError) : Script (List BistError) :=
  Host.loop .outOfRounds (fun err => do
    if (← read .readerErrorReady) ≠ 0 then do
      let err ← takeError count err
      pure (.inl err)
    else
      pure (.inr err)) rounds err

/-- The loop of `hw_memtest`. -/
def waitReader (rounds count : Nat) (errors : List BistError) : Script (List BistError) :=
  Host.loop .outOfRounds (fun errors => do
    if (← read .readerReady) ≠ 0 then
      pure (.inr errors)
    else do
      let errors ← appendErrors rounds count errors
      progress count
      progress count
      pure (.inl errors)) rounds errors

/-- `hw_memtest` for a DMA of `w` bits. -/
def hwMemtest (w rounds offset size : Nat) (patterns : List Nat) : Script (List BistError) := do
  let nbytes := w / 8
  assert (size % nbytes = 0) ("DMA data width is " ++ toString w ++ " bits")
  assert (patterns.length = 1) ""
  let pattern := patterns.headD 0 &&& 0xffffffff
  write .readerSkipFifo 1
  write .readerSkipFifo 0
  let ready ← read .readerReady
  assert (ready = 1) ""
  write .readerMemMask 0xffffffff
  storePatterns w offset pattern
  write .readerDataMask 0x00000000
  let count := size / nbytes
  write .readerCount count
  write .readerStart 1
  let errors ← waitReader rounds count []
  progress count
  let errors ← appendErrors rounds count errors
  let ready ← read .readerReady
  assert (ready = 1) ""
  let errorReady ← read .readerErrorReady
  assert (errorReady = 0) ""
  return errors

/-! ## The settings -/

variable {aw w k rb : Nat}

/-- A pattern memory after the words `vs` from the bus address `i` on. -/
def storeAll (mem : BitVec k → BitVec w) : Nat → List Nat → BitVec k → BitVec w
  | _, [] => mem
  | i, v :: vs => storeAll (storeWord mem i v) (i + 1) vs

/-- A DMA word of 32-bit words `p`. -/
def patternWord (w p : Nat) : BitVec w := ((BitVec.ofNat 32 p).replicate (w / 32)).setWidth w

theorem storeWord_zero (mem : BitVec k → BitVec w) {i : Nat} (hi : i < w / 32) (v : Nat) :
    storeWord mem i v 0 = setLane (mem 0) i (BitVec.ofNat 32 v) := by
  rw [storeWord, Nat.div_eq_of_lt hi, Nat.mod_eq_of_lt hi]
  exact Function.update_self ..

theorem getLsbD_storeAll {n : Nat} (p : Nat) :
    ∀ {mem : BitVec k → BitVec w} {i : Nat}, i + n ≤ w / 32 → ∀ {j : Nat}, j < w →
    (storeAll mem i (List.replicate n p) 0).getLsbD j =
      if 32 * i ≤ j ∧ j < 32 * (i + n) then (BitVec.ofNat 32 p).getLsbD (j % 32) else (mem 0).getLsbD j := by
  induction n with
  | zero =>
    intro mem i _ j _
    rw [if_neg (by omega)]
    rfl
  | succ n ih =>
    intro mem i hi j hj
    rw [List.replicate_succ, storeAll, ih (by omega) hj, storeWord_zero mem (by omega), getLsbD_setLane _ _ _ hj]
    by_cases hlane : 32 * i ≤ j ∧ j < 32 * i + 32
    · rw [if_neg (by omega), if_pos hlane, if_pos (by omega), show j - 32 * i = j % 32 by omega]
    · rw [if_neg hlane]
      by_cases hrest : 32 * (i + 1) ≤ j ∧ j < 32 * (i + 1 + n)
      · rw [if_pos hrest, if_pos (by omega)]
      · rw [if_neg hrest, if_neg (by omega)]

/-- The words of the first entry make a DMA word. -/
theorem storeAll_replicate (hw : 32 ∣ w) (mem : BitVec k → BitVec w) (p : Nat) :
    storeAll mem 0 (List.replicate (w / 32) p) 0 = patternWord w p := by
  apply BitVec.eq_of_getLsbD_eq
  intro j hj
  rw [getLsbD_storeAll p (by omega) hj, if_pos (by omega), patternWord, BitVec.getLsbD_setWidth,
    BitVec.getLsbD_replicate]
  simp [hj, show j < 32 * (w / 32) by omega]

section Covering
variable (cfg : Settings w k rb) (base n p : Nat)

/-- The pattern memory holds the word of the pattern `p` and the address `base`. -/
def loaded : Settings w k rb :=
  { cfg with
    dataMem := storeAll cfg.dataMem 0 (List.replicate (w / 8 / 4) p)
    addrMem := storeWord cfg.addrMem 0 base }

/-- The settings of a transfer of `n` words from `base` on. -/
def covering : Settings w k rb :=
  { loaded { cfg with memMask := BitVec.ofNat 32 0xffffffff } base p with
    dataMask := BitVec.ofNat k 0x00000000
    count := BitVec.ofNat 32 n }

/-- The pattern at an address, inverted if its row is selected. -/
def patternAt (a : BitVec aw) : BitVec w := cfg.dataAt a (patternWord w p)

/-- The DRAM with `n` words from `base` on filled with the pattern. -/
def filled (mem : BitVec aw → BitVec w) (a : BitVec aw) : BitVec w :=
  if base ≤ a.toNat ∧ a.toNat < base + n then patternAt cfg p a else mem a

/-- The words from `base` on that do not hold the pattern, in the order of their addresses. -/
def changedWords (mem : BitVec aw → BitVec w) : List BistError :=
  ((List.range' base n).filter fun a => mem (BitVec.ofNat aw a) != patternAt cfg p (BitVec.ofNat aw a)).map fun a =>
    ⟨a, (mem (BitVec.ofNat aw a)).toNat, (patternAt cfg p (BitVec.ofNat aw a)).toNat⟩

variable {cfg base n p}

theorem not_covering_modulo (hmod : cfg.modulo = false) : ¬ (covering cfg base n p).modulo = true := by
  rw [show (covering cfg base n p).modulo = false from hmod]
  exact Bool.false_ne_true

theorem covering_index (hmod : cfg.modulo = false) (j : Nat) : (covering cfg base n p).index j = 0 := by
  have hmask : (covering cfg base n p).dataMask = 0 := rfl
  rw [Settings.index, if_neg (not_covering_modulo hmod), hmask]
  exact BitVec.and_zero

theorem covering_readIndex (hmod : cfg.modulo = false) (j : Nat) : (covering cfg base n p).readIndex j = 0 := by
  have hindex : (covering cfg base n p).index j = 0 := covering_index hmod j
  rw [Settings.index, if_neg (not_covering_modulo hmod)] at hindex
  rw [Settings.readIndex, if_neg (not_covering_modulo hmod), hindex]

theorem covering_address (hmod : cfg.modulo = false) {j : Nat} (hbase : base < 2 ^ 32) (hj : j < 2 ^ 32) :
    (covering cfg base n p).address aw j = BitVec.ofNat aw (base + j) := by
  have haddr : (covering cfg base n p).addrMem 0 = BitVec.ofNat 32 base := by
    refine (storeWord_zero cfg.addrMem (i := 0) (by decide) base).trans ?_
    apply BitVec.eq_of_getLsbD_eq
    intro j hj
    rw [getLsbD_setLane _ _ _ hj, if_pos (by omega), Nat.mul_zero, Nat.sub_zero]
  have hmask : (covering cfg base n p).memMask.toNat = 2 ^ 32 - 1 := rfl
  rw [Settings.address, covering_index hmod, haddr, hmask, BitVec.toNat_ofNat, Nat.mod_eq_of_lt hbase,
    Nat.and_two_pow_sub_one_eq_mod, Nat.mod_eq_of_lt hj]

theorem covering_dataMem (hw : 32 ∣ w) : (covering cfg base n p).dataMem 0 = patternWord w p := by
  refine Eq.trans ?_ (storeAll_replicate hw cfg.dataMem p)
  rw [show w / 32 = w / 8 / 4 by omega]
  rfl

theorem covering_expected (hw : 32 ∣ w) (hmod : cfg.modulo = false) {j : Nat} (hbase : base < 2 ^ 32)
    (hj : j < 2 ^ 32) :
    Reader.expected (covering cfg base n p) aw j = patternAt cfg p (BitVec.ofNat aw (base + j)) := by
  rw [Reader.expected, covering_readIndex hmod, covering_dataMem hw, covering_address hmod hbase hj]
  rfl

theorem covering_writeAt (hw : 32 ∣ w) (hmod : cfg.modulo = false) {j : Nat} (hbase : base < 2 ^ 32) (hj : j < 2 ^ 32) :
    Writer.writeAt (covering cfg base n p) aw j =
      (BitVec.ofNat aw (base + j), patternAt cfg p (BitVec.ofNat aw (base + j))) := by
  rw [Writer.writeAt, covering_index hmod, covering_dataMem hw, covering_address hmod hbase hj]
  rfl

/-- The writes of the transfer fill the range. -/
theorem store_covering (hw : 32 ∣ w) (hmod : cfg.modulo = false) (hbase : base < 2 ^ 32) (mem : BitVec aw → BitVec w)
    {m : Nat} (hm : m < 2 ^ 32) (hrange : base + m ≤ 2 ^ aw) :
    store mem (Writer.writes (covering cfg base n p) aw m) = filled cfg base m p mem := by
  induction m with
  | zero =>
    funext a
    rw [filled, if_neg (by omega)]
    rfl
  | succ m ih =>
    have haddr : (BitVec.ofNat aw (base + m)).toNat = base + m :=
      (BitVec.toNat_ofNat ..).trans (Nat.mod_eq_of_lt (by omega))
    rw [Writer.writes_succ, store_append, ih (by omega) (by omega), covering_writeAt hw hmod hbase (by omega)]
    funext a
    show Function.update _ _ _ a = _
    by_cases ha : a = BitVec.ofNat aw (base + m)
    · rw [ha, Function.update_self, filled, haddr, if_pos (by omega)]
    · have hne : a.toNat ≠ base + m := fun h => ha (BitVec.eq_of_toNat_eq (h.trans haddr.symm))
      rw [Function.update_of_ne ha, filled, filled]
      congr 1
      rw [eq_iff_iff]
      omega

/-- A record as the host reads it. -/
def bistError (r : Reader.ErrorRecord w) : BistError := ⟨r.offset.toNat, r.data.toNat, r.expected.toNat⟩

/-- The errors of the transfer are the words that do not hold the pattern. -/
theorem errors_covering (hw : 32 ∣ w) (hmod : cfg.modulo = false) (hbase : base < 2 ^ 32) (hn : n < 2 ^ 32)
    (hrange : base + n ≤ 2 ^ aw) (haw : aw ≤ 32) (mem : BitVec aw → BitVec w) :
    (Reader.errors (covering cfg base n p) (answers mem) 0 n).map bistError = changedWords cfg base n p mem := by
  have hpow : 2 ^ aw ≤ 2 ^ 32 := Nat.pow_le_pow_right (by decide) haw
  have hread : ∀ j < n, Reader.dataRead (covering cfg base n p) (answers mem) 0 j =
    mem (BitVec.ofNat aw (base + j)) := by
    intro j hj
    rw [Reader.dataRead, covering_address hmod hbase (by omega)]
    rfl
  rw [Reader.errors, changedWords, List.range'_eq_map_range, List.filter_map, List.map_map, List.map_map]
  have hfilter : (List.range n).filter (Reader.mismatch (covering cfg base n p) (answers mem) 0) =
      (List.range n).filter ((fun a => mem (BitVec.ofNat aw a) != patternAt cfg p (BitVec.ofNat aw a)) ∘
        (base + ·)) := by
    apply List.filter_congr
    intro j hj
    have hj := List.mem_range.mp hj
    rw [Reader.mismatch, hread j hj, covering_expected hw hmod hbase (by omega)]
    rfl
  rw [hfilter]
  apply List.map_congr_left
  intro j hj
  have hj := List.mem_range.mp (List.mem_filter.mp hj).1
  have hoffset : ((BitVec.ofNat aw (base + j)).setWidth 32).toNat = base + j := by
    rw [BitVec.toNat_setWidth, BitVec.toNat_ofNat, Nat.mod_eq_of_lt (by omega), Nat.mod_eq_of_lt (by omega)]
  show bistError (Reader.errorRecord _ _ 0 j) = _
  rw [Reader.errorRecord, bistError, hread j hj, covering_expected hw hmod hbase (by omega),
    covering_address hmod hbase (by omega), hoffset]
  rfl

end Covering

end RowhammerTester.Scripts
