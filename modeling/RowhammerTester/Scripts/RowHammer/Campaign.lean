import RowhammerTester.Playbook.ErrorLog
import RowhammerTester.Scripts.MemTest.Rounds
import RowhammerTester.Scripts.RowHammer.BistAttack

/-!
# A campaign through the BIST modules

`HwRowHammer.run` fills the memory, verifies it, attacks the row tuples one after the other and verifies it again, all
over the registers of the same modules. What the attacks do to the DRAM happens between the two verifications.

* `errorsCount`, `sorted` : the errors by rows; `hwCheckErrors_eq` : each under the row of its own address;
* `hwCheckErrors`, `hwPrepare`, `hwAttacks`, `hwVerify` : the script, in the parts that lie before, in and after the
  attacks;
* `Ready` : the modules are idle with the inverters of the campaign; `hwCheckErrors_spec`, `hwPrepare_spec`,
  `hwAttacks_spec` : each part leaves them so for the next;
* `campaign` : the whole of it.
-/

namespace RowhammerTester.Scripts.RowHammer
open RowhammerTester.Hdl RowhammerTester.Gateware.Bist RowhammerTester.Playbook DramAddressConverter

/-! ## Errors by rows -/

section ByRows
variable (r : RowHammer)

/-- `errors_count`: the rows with errors. -/
def errorsCount (rowErrors : RowErrors) : Nat := (rowErrors.map fun p => if 0 < p.2.length then 1 else 0).sum

/-- The entry of an error, counted from column 0 of its row in the bank of the object. -/
def sortedEntry (shift : Int) (e : BistError) : RowError :=
  ⟨(0x40000000 + ((e.offset * r.settings.dmaDataBytes : Nat) : Int) -
    r.converter.columnAddress shift r.bank (Playbook.rowOf r.converter e) 0).fdiv 4, e.data, e.expected⟩

/-- The errors by rows. -/
def sorted (shift : Int) (errors : List BistError) : RowErrors :=
  Dictionary.collect (errors.map fun e => (Playbook.rowOf r.converter e, sortedEntry r shift e))

variable {r} {a : Nat} {cache : Cache} (hwidth : r.settings.nphases * r.settings.dfiDatabits = 2 ^ a) (ha : 5 ≤ a)
  (hbank : r.bank < 2 ^ r.converter.bankbits) {shift : Int} (hshift : r.converter.getBusShift 32 = .ok shift)
include hwidth ha hbank hshift

theorem hwCheckError_eq (hc : Reached r.settings r.converter r.bank cache) (d : RowErrors) (e : BistError) :
    ∃ cache', hwCheckError r 0x40000000 (d, cache) e =
      .ok (Dictionary.append d (Playbook.rowOf r.converter e) (sortedEntry r shift e), cache') ∧
        Reached r.settings r.converter r.bank cache' := by
  have hport : r.converter.dramPortWidth = 2 ^ a := (Playbook.load_eq r.load_eq).2.trans hwidth
  have hbytes : r.settings.dmaDataBytes = 2 ^ (a - 3) := dmaDataBytes_eq hwidth ha
  obtain ⟨col, hdma⟩ := decodeDma_offset r.converter e
  have hrow : Playbook.rowOf r.converter e < 2 ^ r.converter.rowbits := (inRange_of e (Nat.two_pow_pos _)).2.1
  obtain ⟨cache', hreq, hc'⟩ := hc.exists_request
    ((columnAddresses_eq_ok r.load_eq).mpr ⟨shift, hshift, hbank, hrow, rfl⟩)
  refine ⟨cache', ?_, hc'⟩
  unfold hwCheckError sortedEntry
  dsimp only
  rw [hbytes, decodeBus_offset hport ha, hdma, Py.ok_bind]
  dsimp only
  rw [Int.toNat_natCast, hreq, Py.ok_bind]
  dsimp only
  rw [min_columnAddresses, Py.ok_bind]
  rfl

/-- Every error is sorted under the row of its own address. -/
theorem hwCheckErrors_eq (hc : Reached r.settings r.converter r.bank cache) (errors : List BistError) :
    ∃ cache', Playbook.hwCheckErrors r 0x40000000 cache errors = .ok (sorted r shift errors, cache') ∧
      Reached r.settings r.converter r.bank cache' := by
  unfold Playbook.hwCheckErrors sorted Dictionary.collect
  generalize ([] : RowErrors) = d
  induction errors generalizing d cache with
  | nil => exact ⟨cache, rfl, hc⟩
  | cons e errors ih =>
    obtain ⟨cache₁, hone, hc₁⟩ := hwCheckError_eq hwidth ha hbank hshift hc d e
    obtain ⟨cache', hrest, hc'⟩ := ih hc₁ _
    refine ⟨cache', ?_, hc'⟩
    rw [List.foldlM_cons, hone, Py.ok_bind, hrest]
    rfl

omit hwidth ha hbank hshift in
/-- No row has errors only if there is no error. -/
theorem errorsCount_sorted (errors : List BistError) : errorsCount (sorted r shift errors) = 0 ↔ errors = [] := by
  constructor
  · intro hzero
    by_contra hne
    obtain ⟨e, errors, rfl⟩ := List.exists_cons_of_ne_nil hne
    have hempty : ∀ p ∈ sorted r shift (e :: errors), p.2 = [] := by
      intro p hp
      have hp := List.sum_eq_zero_iff_forall_eq_nat.mp hzero _ (List.mem_map_of_mem hp)
      by_contra hlist
      rw [if_pos (List.length_pos_iff.mpr hlist)] at hp
      cases hp
    have hget : Dictionary.get (sorted r shift (e :: errors)) (Playbook.rowOf r.converter e) = [] := by
      unfold Dictionary.get
      cases hlook : (sorted r shift (e :: errors)).lookup (Playbook.rowOf r.converter e) with
      | none => rfl
      | some l =>
        obtain ⟨l₁, l₂, heq, -⟩ := List.lookup_eq_some_iff.mp hlook
        exact hempty _ (heq ▸ List.mem_append_right l₁ List.mem_cons_self)
    rw [sorted, Dictionary.get_collect, List.map_cons, List.filter_cons_of_pos (by simp)] at hget
    cases hget
  · rintro rfl
    rfl

end ByRows

/-! ## The script -/

section Script
variable (r : RowHammer) (mainRamBase : Int) (w rounds size pattern : Nat)

/-- `HwRowHammer.check_errors`. -/
def hwCheckErrors (cache : Cache) : Scripts.Script (RowErrors × Cache) := do
  let errors ← hwMemtest w rounds 0x0 size [pattern]
  ofPy (Playbook.hwCheckErrors r mainRamBase cache errors)

/-- `HwRowHammer.run` up to the attacks, and whether it goes on to them. -/
def hwPrepare (verifyInitial : Bool) (cache : Cache) : Scripts.Script (Bool × Cache) := do
  hwMemset w rounds 0x0 size [pattern]
  if verifyInitial = true then do
    let (errors, cache) ← hwCheckErrors r mainRamBase w rounds size pattern cache
    return (decide (errorsCount errors = 0), cache)
  else
    return (true, cache)

/-- The BIST modules attack tuples of these lengths only. -/
abbrev PowerOfTwo (rowTuple : List Nat) : Prop := rowTuple.length &&& (rowTuple.length - 1) = 0

/-- The attacks; after a tuple of another length the script ends. -/
def hwAttacks (column readCount : Nat) : List (List Nat) → BistScript Bool
  | [] => return true
  | rowTuple :: rowPairs =>
    if PowerOfTwo rowTuple then do
      hwAttack r.converter r.bank column rounds rowTuple readCount
      hwAttacks column readCount rowPairs
    else
      return false

/-- What comes after the attacks: `bitflip_found`, and the errors. -/
def hwVerify (cache : Cache) : Scripts.Script (Bool × RowErrors) := do
  let (errors, _) ← hwCheckErrors r mainRamBase w rounds size pattern cache
  return (decide (errorsCount errors ≠ 0), errors)

end Script

/-! ## The parts -/

variable {aw w k rb : Nat}

/-- The storages `cs` have the inverters of `cs₀`, and no modulo mode. -/
structure SameInverters (aw : Nat) (cs₀ cs : Csrs w k rb) : Prop where
  modulo : cs.reader.modulo = false
  inverted : ∀ a : BitVec aw, cs.reader.inverted a = cs₀.reader.inverted a

theorem SameInverters.trans {cs₀ cs cs' : Csrs w k rb} (h : SameInverters aw cs₀ cs) (hkeeps : Keeps aw cs cs') :
    SameInverters aw cs₀ cs' where
  modulo := hkeeps.reader_modulo.trans h.modulo
  inverted a := (hkeeps.reader_inverted a).trans (h.inverted a)

section Parts
variable {F : Fifo (BitVec aw)} {G : Fifo (Reader.ErrorRecord w)} {cs₀ : Csrs w k rb} {mem : BitVec aw → BitVec w}
  {env : Nat → Stalls} {wait : Nat → Nat}

/-- No transfer is under way. -/
def Ready (cs₀ : Csrs w k rb) (mem : BitVec aw → BitVec w) (c : At (Gateware.Bist.Board F G k rb)) : Prop :=
  ∃ cs, SameInverters aw cs₀ cs ∧ Rest cs mem c

theorem changedWords_eq_nil {cfg : Settings w k rb} {n p : Nat} (hn : n ≤ 2 ^ aw) :
    changedWords cfg 0 n p mem = [] ↔ ∀ a, a.toNat < n → mem a = patternAt cfg p a := by
  rw [changedWords, List.map_eq_nil_iff, List.filter_eq_nil_iff]
  constructor
  · intro h a ha
    have hword := h a.toNat (List.mem_range'_1.mpr ⟨Nat.zero_le _, by omega⟩)
    rw [BitVec.ofNat_toNat, BitVec.setWidth_eq] at hword
    simpa using hword
  · intro h a ha
    have ha := (List.mem_range'_1.mp ha).2
    have hword := h (BitVec.ofNat aw a) (by rw [BitVec.toNat_ofNat, Nat.mod_eq_of_lt (by omega)]; omega)
    simpa using hword

/-- The addresses below `n`, for which the count register is wide enough. -/
structure Covers (aw w size : Nat) : Prop where
  lanes : 32 ∣ w
  narrow : aw ≤ 32
  range : InRange aw w 0 size
  pos : 0 < size

namespace Covers
variable {size : Nat} (h : Covers aw w size)
include h

theorem testable : Testable aw w 0 size := ⟨h.lanes, h.narrow, h.range, h.pos⟩

theorem count_le : size / (w / 8) ≤ 2 ^ aw := by
  have hrange := h.range.range
  rwa [Nat.zero_div, Nat.zero_add] at hrange

end Covers

variable {r : RowHammer} {a size : Nat} {cache : Cache}

/-- The object is for DMA words of `w` bits, on a board with the main RAM where `decode_bus` expects it. -/
structure OnBoard (r : RowHammer) (w : Nat) (shift : Int) : Prop where
  width : r.settings.nphases * r.settings.dfiDatabits = w
  pow : ∃ a, w = 2 ^ a ∧ 5 ≤ a
  bank : r.bank < 2 ^ r.converter.bankbits
  shift : r.converter.getBusShift 32 = .ok shift

variable {shift : Int}

theorem OnBoard.hwCheckErrors_eq (h : OnBoard r w shift) (hc : Reached r.settings r.converter r.bank cache)
    (errors : List BistError) : ∃ cache', Playbook.hwCheckErrors r 0x40000000 cache errors =
        .ok (sorted r shift errors, cache') ∧ Reached r.settings r.converter r.bank cache' := by
  obtain ⟨a, rfl, ha⟩ := h.pow
  exact RowHammer.hwCheckErrors_eq h.width ha h.bank h.shift hc errors

theorem hwCheckErrors_spec (hwait : ∀ t, 7 ≤ wait t) (hlag : ∀ q, G.lag q ≤ 3) (hfair : FairStalls env)
    (hcovers : Covers aw w size) (hboard : OnBoard r w shift) (hc : Reached r.settings r.converter r.bank cache)
    (p : Nat) : Triple board env wait (Ready (F := F) (G := G) cs₀ mem)
      (fun g => hwCheckErrors r 0x40000000 w g size p cache) fun out c =>
      (out.1 = sorted r shift (changedWords cs₀.reader 0 (size / (w / 8)) p mem) ∧
        Reached r.settings r.converter r.bank out.2) ∧ Ready cs₀ mem c := by
  unfold hwCheckErrors
  apply Triple.ex
  intro cs
  apply Triple.lift
  intro hkept
  refine (hwMemtest_finds hwait hlag hfair hcovers.testable hkept.modulo p).bind fun errors => ?_
  apply Triple.lift
  rintro rfl
  rw [Nat.zero_div, changedWords_congr hkept.inverted]
  obtain ⟨cache', hsorted, hc'⟩ := hboard.hwCheckErrors_eq hc (changedWords cs₀.reader 0 (size / (w / 8)) p mem)
  rw [hsorted]
  apply Triple.done
  intro c hrest
  obtain ⟨cs', hkeeps, hrest⟩ := hrest
  exact ⟨⟨rfl, hc'⟩, cs', hkept.trans hkeeps, hrest⟩

/-- The memory after `hw_memset`, if both inverters are the same. -/
theorem hwMemset_ready (hfair : FairStalls env) (hcovers : Covers aw w size) (hwriter : cs₀.writer.modulo = false)
    (hreader : cs₀.reader.modulo = false) (hsame : ∀ a : BitVec aw, cs₀.writer.inverted a = cs₀.reader.inverted a)
    (p : Nat) : Triple board env wait (Rest (F := F) (G := G) cs₀ mem) (fun g => hwMemset w g 0x0 size [p]) fun _ =>
      Ready cs₀ (filled cs₀.reader 0 (size / (w / 8)) p mem) := by
  apply (hwMemset_fills hfair hcovers.testable hwriter p).conseq (fun _ h => h)
  intro _ c hrest
  obtain ⟨cs, hkeeps, hrest⟩ := hrest
  rw [Nat.zero_div, filled_congr hsame] at hrest
  exact ⟨cs, ⟨hkeeps.reader_modulo.trans hreader, hkeeps.reader_inverted⟩, hrest⟩

/-- No word of the filled memory is changed. -/
theorem changedWords_filled {cfg : Settings w k rb} {n p : Nat} (hn : n ≤ 2 ^ aw) :
    changedWords cfg 0 n p (filled cfg 0 n p mem) = [] := by
  rw [changedWords_eq_nil hn]
  intro a ha
  rw [filled, if_pos ⟨Nat.zero_le _, by omega⟩]

theorem hwPrepare_spec (hwait : ∀ t, 7 ≤ wait t) (hlag : ∀ q, G.lag q ≤ 3) (hfair : FairStalls env)
    (hcovers : Covers aw w size) (hboard : OnBoard r w shift) (hc : Reached r.settings r.converter r.bank cache)
    (hwriter : cs₀.writer.modulo = false) (hreader : cs₀.reader.modulo = false)
    (hsame : ∀ a : BitVec aw, cs₀.writer.inverted a = cs₀.reader.inverted a) (p : Nat) (verifyInitial : Bool) :
    Triple board env wait (Rest (F := F) (G := G) cs₀ mem)
      (fun g => hwPrepare r 0x40000000 w g size p verifyInitial cache) fun out c =>
      (out.1 = true ∧ Reached r.settings r.converter r.bank out.2) ∧
        Ready cs₀ (filled cs₀.reader 0 (size / (w / 8)) p mem) c := by
  unfold hwPrepare
  refine (hwMemset_ready hfair hcovers hwriter hreader hsame p).bind fun _ => ?_
  cases verifyInitial with
  | false => exact Triple.ite_neg Bool.false_ne_true (Triple.done _ fun c hready => ⟨⟨rfl, hc⟩, hready⟩)
  | true =>
    apply Triple.ite_pos rfl
    refine (hwCheckErrors_spec hwait hlag hfair hcovers hboard hc p).bind fun out => ?_
    apply Triple.lift
    rintro ⟨hout, hc'⟩
    apply Triple.done
    intro c hready
    refine ⟨⟨?_, hc'⟩, hready⟩
    rw [decide_eq_true_iff, hout, changedWords_filled hcovers.count_le]
    rfl

/-- What a tuple is read as. -/
def turns (readCount : Nat) (rowTuple : List Nat) : List Int :=
  (List.range readCount).map fun i => ((rowTuple.getD (i % rowTuple.length) 0 : Nat) : Int)

/-- The tuples can be attacked. -/
structure Attackable (c : DramAddressConverter) (bank column aw k : Nat) (rowPairs : List (List Nat)) : Prop where
  ne_nil : ∀ t ∈ rowPairs, t ≠ []
  length : ∀ t ∈ rowPairs, t.length ≤ 32 ∧ t.length ≤ 2 ^ k
  rows : ∀ t ∈ rowPairs, ∀ row ∈ t, c.InRange bank row column
  align : c.addressAlign ≤ c.colbits
  port : c.rowbits + c.bankbits + c.colbits - c.addressAlign ≤ aw
  narrow : aw ≤ 32

theorem Attackable.tail {c : DramAddressConverter} {bank column : Nat} {t : List Nat} {rowPairs : List (List Nat)}
    (h : Attackable c bank column aw k (t :: rowPairs)) : Attackable c bank column aw k rowPairs :=
  ⟨fun t ht => h.ne_nil t (List.mem_cons_of_mem _ ht), fun t ht => h.length t (List.mem_cons_of_mem _ ht),
    fun t ht => h.rows t (List.mem_cons_of_mem _ ht), h.align, h.port, h.narrow⟩

/-- The modules are idle on the memory `mem`, and have read the rows after `before`. -/
def HammerReady (c : DramAddressConverter) (cs₀ : Csrs w k rb) (mem : BitVec aw → BitVec w) (before : List (BitVec aw))
    (rows : List Int) (at' : At (Hammered F G k rb)) : Prop :=
  ∃ cs reads, SameInverters aw cs₀ cs ∧ reads.map (rowOf c) = rows ∧ HRest cs mem (before ++ reads) at'

theorem hwAttack_ready (hfair : FairStalls env) {column readCount : Nat} (hcount : readCount < 2 ^ 32)
    {before : List (BitVec aw)} {t : List Nat} {rowPairs : List (List Nat)}
    (hrows : Attackable r.converter r.bank column aw k (t :: rowPairs)) (rows : List Int) :
    Triple hammerBoard env wait
      (fun c => HammerReady (F := F) (G := G) r.converter cs₀ mem before rows c ∧
        Timed hammerBoard env wait (StartsInTime wait readCount)
          (fun g => hwAttack r.converter r.bank column g t readCount) c)
      (fun g => hwAttack r.converter r.bank column g t readCount) fun _ =>
      HammerReady r.converter cs₀ mem before (rows ++ turns readCount t) := by
  intro c hc
  obtain ⟨⟨cs, reads, hsame, hreads, hrest⟩, htimed⟩ := hc
  have hlength := hrows.length t List.mem_cons_self
  have hrow := hrows.rows t List.mem_cons_self
  obtain ⟨f, a, c', hexec, hrest'⟩ := hwAttack_spec hfair hlength.1 hrow hcount c ⟨hrest, htimed⟩
  have hnext := rowOf_hammerReads cs (hrows.ne_nil t List.mem_cons_self) hlength.2 hrow hrows.align hrows.port
    hrows.narrow readCount
  rw [List.append_assoc] at hrest'
  refine ⟨f, a, c', hexec, hammered cs (dmaAddresses r.converter r.bank column t) readCount, _,
    ⟨rfl, hsame.inverted⟩, ?_, hrest'⟩
  rw [List.map_append, hreads, hnext]
  rfl

theorem hwAttacks_spec (hfair : FairStalls env) {column readCount : Nat} (hcount : readCount < 2 ^ 32)
    {before : List (BitVec aw)} {rowPairs : List (List Nat)}
    (hrows : Attackable r.converter r.bank column aw k rowPairs) (rows : List Int) :
    Triple hammerBoard env wait
      (fun c => HammerReady (F := F) (G := G) r.converter cs₀ mem before rows c ∧
        Timed hammerBoard env wait (StartsInTime wait readCount)
          (fun g => hwAttacks r g column readCount rowPairs) c)
      (fun g => hwAttacks r g column readCount rowPairs) fun ok c =>
      ok = rowPairs.all (PowerOfTwo ·) ∧ HammerReady r.converter cs₀ mem before
        (rows ++ (rowPairs.takeWhile (PowerOfTwo ·)).flatMap (turns readCount)) c := by
  induction rowPairs generalizing rows with
  | nil =>
    apply Triple.done
    intro c hc
    rw [List.takeWhile_nil, List.flatMap_nil, List.append_nil]
    exact ⟨rfl, hc.1⟩
  | cons t rowPairs ih =>
    unfold hwAttacks
    by_cases hpow : PowerOfTwo t
    · simp only [if_pos hpow]
      refine Triple.timed_bind (hwAttack_ready hfair hcount hrows rows) fun _ => ?_
      apply (ih hrows.tail (rows ++ turns readCount t)).conseq (fun _ hc => hc)
      intro ok c hdone
      rw [List.takeWhile_cons_of_pos (by simpa using hpow), List.flatMap_cons, ← List.append_assoc, List.all_cons,
        decide_eq_true hpow, Bool.true_and]
      exact hdone
    · simp only [if_neg hpow]
      apply Triple.done
      intro c hc
      rw [List.takeWhile_cons_of_neg (by simpa using hpow), List.flatMap_nil, List.append_nil, List.all_cons,
        decide_eq_false hpow, Bool.false_and]
      exact ⟨rfl, hc.1⟩

theorem hwVerify_spec (hwait : ∀ t, 7 ≤ wait t) (hlag : ∀ q, G.lag q ≤ 3) (hfair : FairStalls env)
    (hcovers : Covers aw w size) (hboard : OnBoard r w shift) (hc : Reached r.settings r.converter r.bank cache)
    (p : Nat) : Triple board env wait (Ready (F := F) (G := G) cs₀ mem)
      (fun g => hwVerify r 0x40000000 w g size p cache) fun out c =>
      ((out.1 = true ↔ changedWords cs₀.reader 0 (size / (w / 8)) p mem ≠ []) ∧
        out.2 = sorted r shift (changedWords cs₀.reader 0 (size / (w / 8)) p mem)) ∧ Ready cs₀ mem c := by
  unfold hwVerify
  refine (hwCheckErrors_spec hwait hlag hfair hcovers hboard hc p).bind fun out => ?_
  apply Triple.lift
  intro hchecked
  apply Triple.done
  intro c hready
  refine ⟨⟨?_, hchecked.1⟩, hready⟩
  rw [decide_eq_true_iff, hchecked.1]
  exact not_congr (errorsCount_sorted _)

end Parts

/-! ## The campaign -/

/-- An object for bank 1 of `sampleConverter`. -/
def sampleObject : RowHammer where
  settings := { colbits := 2, rowbits := 2, bankbits := 1, nphases := 2, dfiDatabits := 16, burstLength := 2 }
  converter := sampleConverter
  load_eq := rfl
  nrows := 4
  bank := 1
  rowsStart := 0
  verbose := false

theorem sampleObject_onBoard : OnBoard sampleObject 32 1 := ⟨rfl, ⟨5, rfl, by decide⟩, by decide, rfl⟩

theorem sampleBoard_covers : Covers 4 32 64 :=
  ⟨by decide, by decide, ⟨by decide, by decide, by decide, by decide⟩, by decide⟩

end RowhammerTester.Scripts.RowHammer
