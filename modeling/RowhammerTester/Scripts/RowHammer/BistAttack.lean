import RowhammerTester.Gateware.Bist.Hammer
import RowhammerTester.Scripts.MemTest.FillAndTest
import RowhammerTester.Scripts.RowHammer.DmaAttack

/-!
# `HwRowHammer.attack`

The attack through the BIST Reader, which reads the words of a pattern memory in turns.

* `BistScript` : a script on the registers of the modules; `hwAttack` : the script;
* `HRest`, `access_rest` : the accesses without a transfer; `storeAll_get` : the addresses in the pattern memory;
* `hammering` : the settings that the script makes (`hammering_address`);
* `StartsInTime`, `start_spec` : the two writes to `reader_start`; `waitReady_spec` : the host polls until the Reader is
  ready;
* `hwAttack_spec`, `rowOf_hammerReads`, `hwAttack_hammers` : the reads of a whole attack.
-/

namespace RowhammerTester.Scripts.RowHammer
open RowhammerTester.Hdl RowhammerTester.Gateware.Bist

/-! ## The script -/

/-- A script of accesses to the modules. -/
abbrev BistScript := Host HammerAccess Nat Stop

namespace BistScript

def read (r : Status) : BistScript Nat := .access (.bist (.read r)) .done

def write (a : HammerAccess) : BistScript Unit := .access a fun _ => .done ()

def assert (c : Prop) [Decidable c] : BistScript Unit := Host.check c (.raised (.assertionError ""))

/-- `memwrite` to a pattern memory, from its word `i` on. -/
def memwrite (m : PatternMem) : Nat → List Nat → BistScript Unit
  | _, [] => .done ()
  | i, v :: vs => .access (.bist (.store m i v)) fun _ => memwrite m (i + 1) vs

/-- Flush and skip the error FIFO, and set up the pattern. -/
def configure (addresses : List Nat) (readCount : Nat) : BistScript Unit := do
  write (.bist (.write .readerSkipFifo 1))
  write (.bist (.write .readerSkipFifo 0))
  let ready ← read .readerReady
  assert (ready = 1)
  write (.bist (.write .readerSkipFifo 1))
  write (.bist (.write .readerMemMask 0x00000000))
  write (.writeReaderModulo 1)
  write (.writeReaderDataDiv (addresses.length - 1))
  memwrite .readerPatternAddr 0 addresses
  memwrite .readerPatternData 0 (List.replicate 16 0xaaaaaaaa)
  write (.bist (.write .readerCount readCount))

/-- Both writes pulse `start`. -/
def start : BistScript Unit := do
  write (.bist (.write .readerStart 1))
  write (.bist (.write .readerStart 0))

def waitReady (rounds : Nat) : BistScript Unit :=
  Host.loop .outOfRounds (fun _ => do
    let _ ← read .readerDone
    if (← read .readerReady) ≠ 0 then pure (.inr ()) else pure (.inl ())) rounds ()

def stop : BistScript Unit := do
  let _ ← read .readerDone
  write (.writeReaderModulo 0)

end BistScript

/-- `HwRowHammer.attack`. -/
def hwAttack (c : DramAddressConverter) (bank column rounds : Nat) (rowTuple : List Nat) (readCount : Nat) :
    BistScript Unit := do
  BistScript.assert (rowTuple.length ≤ 32)
  let addresses ← ofPy (rowTuple.mapM fun row => c.encodeDma bank row column)
  BistScript.configure addresses readCount
  BistScript.start
  BistScript.waitReady rounds
  BistScript.stop

/-! ## The pattern memory -/

variable {aw w k rb : Nat}

theorem storeWord_32 (mem : BitVec k → BitVec 32) (i v : Nat) :
    storeWord mem i v = Function.update mem (BitVec.ofNat k i) (BitVec.ofNat 32 v) := by
  have hlane : setLane (mem (BitVec.ofNat k i)) 0 (BitVec.ofNat 32 v) = BitVec.ofNat 32 v := by
    apply BitVec.eq_of_getLsbD_eq
    intro j hj
    rw [getLsbD_setLane _ _ _ hj, if_pos (by omega), Nat.mul_zero, Nat.sub_zero]
  rw [storeWord, show 32 / 32 = 1 from rfl, Nat.div_one, Nat.mod_one, hlane]

/-- A word before those that are stored. -/
theorem storeAll_of_lt (vs : List Nat) :
    ∀ (mem : BitVec k → BitVec 32) (i : Nat) {j : Nat}, j < i → i + vs.length ≤ 2 ^ k →
      storeAll mem i vs (BitVec.ofNat k j) = mem (BitVec.ofNat k j) := by
  induction vs with
  | nil => exact fun _ _ _ _ _ => rfl
  | cons v vs ih =>
    intro mem i j hj hlen
    rw [List.length_cons] at hlen
    rw [storeAll, ih _ _ (by omega) (by omega), storeWord_32, Function.update_of_ne]
    intro heq
    have := congrArg BitVec.toNat heq
    rw [BitVec.toNat_ofNat, BitVec.toNat_ofNat, Nat.mod_eq_of_lt (by omega), Nat.mod_eq_of_lt (by omega)] at this
    omega

/-- The words that are stored. -/
theorem storeAll_get (vs : List Nat) :
    ∀ (mem : BitVec k → BitVec 32) (i : Nat) {j : Nat} (hj : j < vs.length), i + vs.length ≤ 2 ^ k →
      storeAll mem i vs (BitVec.ofNat k (i + j)) = BitVec.ofNat 32 vs[j] := by
  induction vs with
  | nil => exact fun _ _ _ hj => absurd hj (Nat.not_lt_zero _)
  | cons v vs ih =>
    intro mem i j hj hlen
    rw [List.length_cons] at hj hlen
    rw [storeAll]
    cases j with
    | zero =>
      have hlater := storeAll_of_lt vs (storeWord mem i v) (i + 1) (Nat.lt_succ_self i) (by omega)
      apply hlater.trans
      rw [storeWord_32, Function.update_self]
      rfl
    | succ j =>
      rw [show i + (j + 1) = i + 1 + j by omega, ih _ _ (by omega) (by omega)]
      rfl

/-! ## The settings -/

/-- The storages during an attack on the addresses. -/
def hammering (cs : Csrs w k rb) (addresses : List Nat) (readCount : Nat) : Csrs w k rb where
  writer := cs.writer
  reader :=
    { cs.reader with
      memMask := 0
      modulo := true
      dataDiv := BitVec.ofNat k (addresses.length - 1)
      addrMem := storeAll cs.reader.addrMem 0 addresses
      dataMem := storeAll cs.reader.dataMem 0 (List.replicate 16 0xaaaaaaaa)
      count := BitVec.ofNat 32 readCount }
  skipFifo := true

/-- The `j`-th read is of the next address in turn. -/
theorem hammering_address (cs : Csrs w k rb) {addresses : List Nat} (hne : addresses ≠ [])
    (hmem : addresses.length ≤ 2 ^ k) (readCount j : Nat) :
    (hammering cs addresses readCount).reader.address aw j =
      BitVec.ofNat aw (BitVec.ofNat 32 (addresses.getD (j % addresses.length) 0)).toNat := by
  have hpos : 0 < addresses.length := List.length_pos_of_ne_nil hne
  have hdiv : (hammering cs addresses readCount).reader.dataDiv.toNat + 1 = addresses.length := by
    have hval : (hammering cs addresses readCount).reader.dataDiv = BitVec.ofNat k (addresses.length - 1) := rfl
    rw [hval, BitVec.toNat_ofNat, Nat.mod_eq_of_lt (by omega), Nat.sub_add_cancel hpos]
  have hmod : j % addresses.length < addresses.length := Nat.mod_lt j hpos
  have hword : (hammering cs addresses readCount).reader.addrMem (BitVec.ofNat k (j % addresses.length)) =
      BitVec.ofNat 32 addresses[j % addresses.length] := by
    have hget := storeAll_get addresses cs.reader.addrMem 0 hmod (by omega)
    rwa [Nat.zero_add] at hget
  have hmask : (hammering cs addresses readCount).reader.memMask.toNat = 0 := rfl
  have hmodulo : (hammering cs addresses readCount).reader.modulo = true := rfl
  rw [Settings.address, Settings.index, if_pos hmodulo, hdiv, hword, hmask, Nat.and_zero, Nat.add_zero,
    List.getD_eq_getElem _ _ hmod]

/-! ## Accesses without a transfer -/

section Specs
variable {F : Fifo (BitVec aw)} {G : Fifo (Reader.ErrorRecord w)} {cs : Csrs w k rb} {mem : BitVec aw → BitVec w}
  {commands : List (BitVec aw)} {env : Nat → Stalls} {wait : Nat → Nat}

/-- No transfer is under way, and `commands` have been read. -/
def HRest (cs : Csrs w k rb) (mem : BitVec aw → BitVec w) (commands : List (BitVec aw))
    (c : At (Hammered F G k rb)) : Prop :=
  HammerResting cs mem commands c.device

theorem HRest.later {c : At (Hammered F G k rb)} (h : HRest cs mem commands c) (n : Nat) :
    HRest cs mem commands (later hammerBoard env c n) :=
  later_induction (P := HammerResting cs mem commands) hammerBoard env (fun _ x hr => hr.clock x (a := none) rfl rfl) h n

/-- An access that starts no transfer changes the storages only. -/
theorem write_rest (a : HammerAccess) (hw : Access.pulses (HammerAccess.toBist (some a)) .writerStart = false)
    (hs : Access.pulses (HammerAccess.toBist (some a)) .readerStart = false) :
    Triple hammerBoard env wait (HRest (F := F) (G := G) cs mem commands) (fun _ => BistScript.write a) fun _ =>
      HRest (cs.writeHammer (some a)) mem commands := by
  apply Triple.access
  intro c hc
  apply Triple.done
  intro c' hc'
  rw [hc']
  exact (hc.later _).clock _ hw hs

theorem read_rest (r : Status) :
    Triple hammerBoard env wait (HRest (F := F) (G := G) cs mem commands) (fun _ => BistScript.read r) fun v c =>
      (∃ h : Hammered F G k rb, HammerResting cs mem commands h ∧ v = h.answer (.bist (.read r))) ∧
        HRest cs mem commands c := by
  apply Triple.access
  intro c hc
  have hlater : HRest cs mem commands (later hammerBoard env c (wait c.time)) := hc.later _
  apply Triple.done
  intro c' hc'
  rw [hc']
  exact ⟨⟨_, hlater, rfl⟩, hlater.clock _ (a := some (.bist (.read r))) rfl rfl⟩

/-- The Reader is ready when no transfer is under way. -/
theorem answer_readerReady {h : Hammered F G k rb} (hr : HammerResting cs mem commands h) :
    h.answer (.bist (.read .readerReady)) = 1 := by
  change (Reader.ready h.board.reader).toNat = 1
  rw [Reader.ready, hr.resting.reader.pattern]
  rfl

theorem memwriteAddr_rest (vs : List Nat) : ∀ (cs : Csrs w k rb) (i : Nat),
    Triple hammerBoard env wait (HRest (F := F) (G := G) cs mem commands)
      (fun _ => BistScript.memwrite .readerPatternAddr i vs) fun _ =>
      HRest { cs with reader := { cs.reader with addrMem := storeAll cs.reader.addrMem i vs } } mem commands := by
  induction vs with
  | nil => exact fun cs i => Triple.done () fun _ h => h
  | cons v vs ih =>
    exact fun cs i => (write_rest (.bist (.store .readerPatternAddr i v)) rfl rfl).bind fun _ => ih _ (i + 1)

theorem memwriteData_rest (vs : List Nat) : ∀ (cs : Csrs w k rb) (i : Nat),
    Triple hammerBoard env wait (HRest (F := F) (G := G) cs mem commands)
      (fun _ => BistScript.memwrite .readerPatternData i vs) fun _ =>
      HRest { cs with reader := { cs.reader with dataMem := storeAll cs.reader.dataMem i vs } } mem commands := by
  induction vs with
  | nil => exact fun cs i => Triple.done () fun _ h => h
  | cons v vs ih =>
    exact fun cs i => (write_rest (.bist (.store .readerPatternData i v)) rfl rfl).bind fun _ => ih _ (i + 1)

/-- The script makes the settings of the attack. -/
theorem configure_rest (addresses : List Nat) (readCount : Nat) :
    Triple hammerBoard env wait (HRest (F := F) (G := G) cs mem commands)
      (fun _ => BistScript.configure addresses readCount) fun _ =>
      HRest (hammering cs addresses readCount) mem commands := by
  unfold BistScript.configure
  refine (write_rest _ rfl rfl).bind fun _ => (write_rest _ rfl rfl).bind fun _ => (read_rest _).bind fun v => ?_
  apply Triple.lift
  intro hv
  obtain ⟨h, hr, hv⟩ := hv
  refine (Triple.check (hv.trans (answer_readerReady hr))).bind fun _ => (write_rest _ rfl rfl).bind fun _ =>
    (write_rest _ rfl rfl).bind fun _ => (write_rest _ rfl rfl).bind fun _ => (write_rest _ rfl rfl).bind fun _ =>
    (memwriteAddr_rest _ _ _).bind fun _ => (memwriteData_rest _ _ _).bind fun _ => ?_
  exact write_rest _ rfl rfl

/-! ## The attack -/

variable {before : List (BitVec aw)}

/-- An attack is under way, and the Reader is ready from the `d`-th edge on. -/
def Working (env : Nat → Stalls) (cs : Csrs w k rb) (mem : BitVec aw → BitVec w) (before : List (BitVec aw)) (d : Nat)
    (c : At (Hammered F G k rb)) : Prop :=
  (∃ C, Attacked cs mem before C c.device) ∧
    ∀ n, d ≤ n → (later hammerBoard env c n).device.board.reader.pattern.fsm = .READY

/-- After a first write to `reader_start` the next access, which is the second, comes before the address FSM can have
made `readCount` commands. -/
def StartsInTime (wait : Nat → Nat) (readCount t : Nat) (a : HammerAccess) : Prop :=
  a = .bist (.write .readerStart 1) → wait (t + 1) < 5 * readCount

variable (F G cs mem before wait) in
/-- The second write to `reader_start` pulses the Reader again, but comes before the address FSM has issued the last
command. -/
theorem start_spec (hskip : cs.skipFifo = true) (hfair : FairStalls env) :
    Triple hammerBoard env wait
      (fun c => HRest (F := F) (G := G) cs mem before c ∧
        Timed hammerBoard env wait (StartsInTime wait cs.reader.count.toNat) (fun _ => BistScript.start) c)
      (fun _ => BistScript.start) fun _ c => ∃ d, Working env cs mem before d c := by
  apply Triple.access
  intro c hc
  obtain ⟨hrest, f, htimed⟩ := hc
  obtain ⟨hstart, hspent⟩ := HammerResting.start (hrest.later (wait c.time)) hskip (env (c.time + wait c.time)) 1
  have hgap := htimed f (Nat.le_refl f) _ _ List.mem_cons_self rfl
  apply Triple.access
  intro c₁ hc₁
  have hattacked : Attacked cs mem before [] c₁.device := by
    rw [hc₁]
    exact hstart
  have hbusy : Reader.spent (later hammerBoard env c₁ (wait c₁.time)).device.board.reader.addr <
      5 * cs.reader.count.toNat := by
    refine lt_of_le_of_lt (hattacked.later_spent _) ?_
    rw [hc₁]
    exact lt_of_le_of_lt (Nat.le_of_eq (congrArg (· + _) hspent)) (by rw [Nat.zero_add]; exact hgap)
  obtain ⟨C, hC⟩ := hattacked.later_exists env (wait c₁.time)
  have hpulse := hC.pulse hbusy (env (c₁.time + wait c₁.time)) 0
  apply Triple.done
  intro c₂ hc₂
  have hsame : c₂ = later hammerBoard env c₁ (wait c₁.time + 1) := by
    rw [hc₂, perform]
    exact congrArg (At.mk _) hpulse
  obtain ⟨C', hC'⟩ := hattacked.later_exists env (wait c₁.time + 1)
  rw [← hsame] at hC'
  obtain ⟨d, hd⟩ := hC'.exists_ready hfair
  exact ⟨d, ⟨C', hC'⟩, hd⟩

theorem perform_read (r : Status) (c : At (Hammered F G k rb)) (n : Nat) :
    perform hammerBoard env (later hammerBoard env c n) (.bist (.read r)) = later hammerBoard env c (n + 1) :=
  perform_later hammerBoard env (fun _ _ => rfl) c n

theorem Working.later {d : Nat} {c : At (Hammered F G k rb)} (h : Working env cs mem before d c) (n : Nat) :
    Working env cs mem before (d - n) (later hammerBoard env c n) := by
  obtain ⟨C, hC⟩ := h.1
  refine ⟨hC.later_exists _ n, fun m hm => ?_⟩
  rw [later_later]
  exact h.2 _ (by omega)

/-- The host polls until the Reader is ready; by then all reads are commanded, and it is idle after that poll. -/
theorem waitReady_spec (d : Nat) :
    Triple hammerBoard env wait (Working (F := F) (G := G) env cs mem before d) (fun g => BistScript.waitReady g)
      fun _ => HRest cs mem (before ++ (List.range cs.reader.count.toNat).map (cs.reader.address aw)) := by
  unfold BistScript.waitReady
  apply Triple.loop (fun d _ => Working env cs mem before d)
  intro d _
  apply Triple.access
  intro c hc
  rw [perform_read]
  have hpolled := hc.later (wait c.time + 1)
  apply Triple.access
  intro c₁ hc₁
  rw [perform_read]
  rw [← hc₁] at hpolled
  obtain ⟨C, hC⟩ := (hpolled.later (wait c₁.time)).1
  by_cases hf : (later hammerBoard env c₁ (wait c₁.time)).device.board.reader.pattern.fsm = .READY
  · refine Triple.ite_pos ?_ (Triple.done _ fun c₂ hc₂ => ?_)
    · change (Reader.ready _).toNat ≠ 0
      rw [Reader.ready, hf]
      decide
    · rw [hc₂]
      exact hC.finish hf _ rfl rfl rfl
  · refine Triple.ite_neg ?_ (Triple.done _ fun c₂ hc₂ => ?_)
    · change ¬ (Reader.ready _).toNat ≠ 0
      rw [Reader.ready, beq_eq_false_iff_ne.mpr hf]
      decide
    · have hlt : wait c₁.time < d - (wait c.time + 1) := Nat.lt_of_not_le fun h => hf (hpolled.2 _ h)
      refine ⟨d - (wait c.time + 1) - (wait c₁.time + 1), by omega, ?_⟩
      rw [hc₂]
      exact hpolled.later _

/-- The pattern address no longer wraps after the attack. -/
theorem stopModulo_spec :
    Triple hammerBoard env wait (HRest (F := F) (G := G) cs mem commands) (fun _ => BistScript.stop) fun _ =>
      HRest (cs.writeHammer (some (.writeReaderModulo 0))) mem commands := by
  refine (read_rest _).bind fun v => ?_
  apply (write_rest (.writeReaderModulo 0) rfl rfl).conseq
  · exact fun _ h => h.2
  · exact fun _ _ h => h

end Specs

section Attack
variable {c : DramAddressConverter} {bank column : Nat}

/-- Rows of the DRAM have addresses. -/
theorem addresses_eq {rowTuple : List Nat} (hrows : ∀ row ∈ rowTuple, c.InRange bank row column) :
    (rowTuple.mapM fun row => c.encodeDma bank row column) =
      .ok (rowTuple.map fun row => c.flat bank row column / 2 ^ c.addressAlign) := by
  induction rowTuple with
  | nil => rfl
  | cons row rowTuple ih =>
    rw [List.mapM_cons, DramAddressConverter.encodeDma_eq (hrows row List.mem_cons_self),
      ih fun r hr => hrows r (List.mem_cons_of_mem row hr)]
    rfl

/-- The reads of an attack are of the rows in turns. -/
theorem rows_hammering (cs : Csrs w k rb) {rowTuple : List Nat} (hne : rowTuple ≠ [])
    (hmem : rowTuple.length ≤ 2 ^ k) (hrows : ∀ row ∈ rowTuple, c.InRange bank row column)
    (halign : c.addressAlign ≤ c.colbits) (hport : c.rowbits + c.bankbits + c.colbits - c.addressAlign ≤ aw)
    (haw : aw ≤ 32) (readCount j : Nat) :
    rowOf c ((hammering cs (rowTuple.map fun row => c.flat bank row column / 2 ^ c.addressAlign)
        readCount).reader.address aw j) = ((rowTuple.getD (j % rowTuple.length) 0 : Nat) : Int) := by
  have hmod : j % rowTuple.length < rowTuple.length := Nat.mod_lt j (List.length_pos_of_ne_nil hne)
  have hr : c.InRange bank rowTuple[j % rowTuple.length] column := hrows _ (List.getElem_mem hmod)
  have hlt := flat_div_lt hr hport
  have hpow : 2 ^ aw ≤ 2 ^ 32 := Nat.pow_le_pow_right (by decide) haw
  rw [hammering_address cs (by simpa using hne) (by rwa [List.length_map]), List.length_map,
    List.getD_eq_getElem _ _ (by rwa [List.length_map]), List.getElem_map, List.getD_eq_getElem _ _ hmod,
    BitVec.toNat_ofNat, Nat.mod_eq_of_lt (by omega)]
  exact rowOf_dmaAddress hr halign hport

/-- The storages that an attack leaves. -/
def hammered (cs : Csrs w k rb) (addresses : List Nat) (readCount : Nat) : Csrs w k rb :=
  (hammering cs addresses readCount).writeHammer (some (.writeReaderModulo 0))

/-- The addresses of the rows. -/
def dmaAddresses (c : DramAddressConverter) (bank column : Nat) (rowTuple : List Nat) : List Nat :=
  rowTuple.map fun row => c.flat bank row column / 2 ^ c.addressAlign

/-- The reads of an attack. -/
def hammerReads (aw : Nat) (cs : Csrs w k rb) (addresses : List Nat) (readCount : Nat) : List (BitVec aw) :=
  (List.range readCount).map ((hammering cs addresses readCount).reader.address aw)

/-- They are of the rows in turns. -/
theorem rowOf_hammerReads (cs : Csrs w k rb) {rowTuple : List Nat} (hne : rowTuple ≠ [])
    (hmem : rowTuple.length ≤ 2 ^ k) (hrows : ∀ row ∈ rowTuple, c.InRange bank row column)
    (halign : c.addressAlign ≤ c.colbits) (hport : c.rowbits + c.bankbits + c.colbits - c.addressAlign ≤ aw)
    (haw : aw ≤ 32) (readCount : Nat) :
    (hammerReads aw cs (dmaAddresses c bank column rowTuple) readCount).map (rowOf c) =
      (List.range readCount).map fun i => ((rowTuple.getD (i % rowTuple.length) 0 : Nat) : Int) := by
  unfold hammerReads
  rw [List.map_map]
  apply List.map_congr_left
  intro i _
  exact rows_hammering cs hne hmem hrows halign hport haw readCount i

variable {F : Fifo (BitVec aw)} {G : Fifo (Reader.ErrorRecord w)} {env : Nat → Stalls} {wait : Nat → Nat}
  {cs : Csrs w k rb} {dram : BitVec aw → BitVec w} {commands : List (BitVec aw)}

theorem hwAttack_eq {rounds readCount : Nat} {rowTuple : List Nat} (hrows : ∀ row ∈ rowTuple, c.InRange bank row column) :
    hwAttack c bank column rounds rowTuple readCount =
      (BistScript.assert (rowTuple.length ≤ 32)).bind fun _ =>
        (BistScript.configure (dmaAddresses c bank column rowTuple) readCount).bind fun _ =>
          BistScript.start.bind fun _ => (BistScript.waitReady rounds).bind fun _ => BistScript.stop := by
  unfold hwAttack
  rw [addresses_eq hrows]
  rfl

theorem hwAttack_spec (hfair : FairStalls env) {readCount : Nat} {rowTuple : List Nat} (hlen : rowTuple.length ≤ 32)
    (hrows : ∀ row ∈ rowTuple, c.InRange bank row column) (hcount : readCount < 2 ^ 32) :
    Triple hammerBoard env wait
      (fun at' => HRest (F := F) (G := G) cs dram commands at' ∧ Timed hammerBoard env wait (StartsInTime wait readCount)
        (fun g => hwAttack c bank column g rowTuple readCount) at')
      (fun g => hwAttack c bank column g rowTuple readCount) fun _ =>
      HRest (hammered cs (dmaAddresses c bank column rowTuple) readCount) dram
        (commands ++ hammerReads aw cs (dmaAddresses c bank column rowTuple) readCount) := by
  have hreads : (hammering cs (dmaAddresses c bank column rowTuple) readCount).reader.count.toNat = readCount :=
    (BitVec.toNat_ofNat ..).trans (Nat.mod_eq_of_lt hcount)
  have hstart := start_spec F G (hammering cs (dmaAddresses c bank column rowTuple) readCount) dram wait commands rfl
    hfair
  rw [hreads] at hstart
  simp only [hwAttack_eq hrows]
  refine Triple.timed_bind (Triple.check hlen).weaken fun _ => ?_
  refine Triple.timed_bind (configure_rest (dmaAddresses c bank column rowTuple) readCount).weaken fun _ => ?_
  refine Triple.timed_bind hstart fun _ => Triple.weaken ?_
  apply Triple.ex
  intro d
  apply (waitReady_spec d).bind
  intro _
  rw [hreads]
  exact stopModulo_spec

/-- **An attack through the BIST Reader.** From idle modules, however the DMAs stall, the attack returns; the Reader has
read exactly `read_count` words, the rows in turns, and is idle again, no longer in modulo mode. The pattern memory has
to hold the rows, and the second write to `reader_start`, which pulses the Reader once more, has to come before the
address FSM can have made all the commands. -/
theorem hwAttack_hammers (c : DramAddressConverter) (bank column readCount : Nat) (rowTuple : List Nat)
    (hne : rowTuple ≠ []) (hlen : rowTuple.length ≤ 32) (hmem : rowTuple.length ≤ 2 ^ k)
    (hrows : ∀ row ∈ rowTuple, c.InRange bank row column) (halign : c.addressAlign ≤ c.colbits)
    (hport : c.rowbits + c.bankbits + c.colbits - c.addressAlign ≤ aw) (haw : aw ≤ 32) (env : Nat → Stalls)
    (wait : Nat → Nat) (hfair : FairStalls env) (hcount : readCount < 2 ^ 32) (cs : Csrs w k rb)
    (dram : BitVec aw → BitVec w) (c₀ : At (Hammered F G k rb)) (hidle : Resting cs dram c₀.device.board)
    (htimed : Timed hammerBoard env wait (StartsInTime wait readCount)
      (fun g => hwAttack c bank column g rowTuple readCount) c₀) :
    ∃ f c₁, (∀ g, f ≤ g → runHost hammerBoard env wait (hwAttack c bank column g rowTuple readCount) c₀ = (.ok (), c₁)) ∧
      (∃ reads, c₁.device.commands = c₀.device.commands ++ reads ∧
        reads.map (rowOf c) =
          (List.range readCount).map fun i => ((rowTuple.getD (i % rowTuple.length) 0 : Nat) : Int)) ∧
      Resting (hammered cs (rowTuple.map fun row => c.flat bank row column / 2 ^ c.addressAlign) readCount) dram
        c₁.device.board := by
  obtain ⟨f, _, c₁, hrun, hrest⟩ := hwAttack_spec hfair hlen hrows hcount c₀ ⟨⟨hidle, rfl⟩, htimed⟩
  exact ⟨f, c₁, hrun, ⟨_, hrest.commands, rowOf_hammerReads cs hne hmem hrows halign hport haw readCount⟩,
    hrest.resting⟩

end Attack

/-- Four rows of two words in two banks. -/
def sampleConverter : DramAddressConverter :=
  { colbits := 2, rowbits := 2, bankbits := 1, addressAlign := 1, dramPortWidth := 32 }

theorem hwAttack_hammers_sample :
    ∃ f c₁, (∀ g, f ≤ g → runHost hammerBoard sampleStalls (fun _ => 100) (hwAttack sampleConverter 1 2 g [1, 3] 1000)
        ⟨0, ⟨sampleBoard, []⟩⟩ = (.ok (), c₁)) ∧
      (∃ reads, c₁.device.commands = [] ++ reads ∧
        reads.map (rowOf sampleConverter) = (List.range 1000).map fun i => (([1, 3].getD (i % 2) 0 : Nat) : Int)) ∧
      Resting (hammered sampleBoard.csrs
        ([1, 3].map fun row => sampleConverter.flat 1 row 2 / 2 ^ sampleConverter.addressAlign) 1000) sampleBoard.dram
        c₁.device.board :=
  hwAttack_hammers sampleConverter 1 2 1000 [1, 3] (by decide) (by decide) (by decide)
    (by unfold DramAddressConverter.InRange; decide) (by decide) (by decide) (by decide) sampleStalls (fun _ => 100)
    sampleStalls_fair (by decide) sampleBoard.csrs sampleBoard.dram ⟨0, ⟨sampleBoard, []⟩⟩
    ⟨rfl, rfl, Reader.reset_idle, rfl⟩ ⟨0, fun _ _ _ _ _ _ => show 100 < 5 * 1000 by decide⟩

end RowhammerTester.Scripts.RowHammer
