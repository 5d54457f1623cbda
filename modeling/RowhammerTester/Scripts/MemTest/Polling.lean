import Mathlib.Data.Prod.Lex
import RowhammerTester.Gateware.Bist.Hammer
import RowhammerTester.Scripts.MemTest.Script

/-!
# The memory test scripts beside the modules

The accesses of a script may find the modules at any point of their work.

* `Rest` : no transfer is under way; `access_rest`, `storePatterns_rest` : the scripts set the modules up;
* `Fills`, `waitWriter_spec`, `hwMemset_spec` : the host polls until the Writer is ready;
* `takeError_spec`, `Draining`, `appendErrors_spec` : the host takes the errors that are offered, none is lost;
* `Polling`, `waitReader_spec` : it takes errors until the Reader is ready, the rank of the Reader bounding the rounds;
* `hwMemtest_spec` : what is left is taken after that (`hwMemtest_rest`: and no transfer is under way any more).
-/

namespace RowhammerTester.Scripts
open RowhammerTester.Hdl RowhammerTester.Gateware.Bist

variable {aw w k rb : Nat}

/-! ## Accesses without a transfer -/

section Specs
variable {F : Fifo (BitVec aw)} {G : Fifo (Reader.ErrorRecord w)} {cs : Csrs w k rb} {mem : BitVec aw → BitVec w}
  {env : Nat → Stalls} {wait : Nat → Nat}

/-- No transfer is under way. -/
def Rest (cs : Csrs w k rb) (mem : BitVec aw → BitVec w) (c : At (Board F G k rb)) : Prop := Resting cs mem c.device

theorem read_spec (r : Status) (c₀ : At (Board F G k rb)) :
    Triple board env wait (fun c => c = c₀) (fun _ => read r) fun v c =>
      v = (later board env c₀ (wait c₀.time)).device.answer (.read r) ∧ c = later board env c₀ (wait c₀.time + 1) := by
  apply Triple.access
  rintro c rfl
  apply Triple.done
  rintro c' rfl
  exact ⟨rfl, perform_later board env (fun _ _ => rfl) c _⟩

theorem read_rest (r : Status) :
    Triple board env wait (Rest cs mem) (fun _ => read r) fun v c =>
      (∃ b : Board F G k rb, Resting cs mem b ∧ v = b.answer (.read r)) ∧ Rest (F := F) (G := G) cs mem c := by
  apply Triple.of_forall
  intro c hc
  apply (read_spec r c).conseq (fun _ h => h)
  rintro v c' ⟨rfl, rfl⟩
  exact ⟨⟨_, Resting.later hc _, rfl⟩, Resting.later hc _⟩

/-- The modules are ready when no transfer is under way. -/
theorem assertReady_rest {r : Status} (hr : r = .writerReady ∨ r = .readerReady) {α : Type} {q : Nat → Script α}
    {Q : α → At (Board F G k rb) → Prop} (hq : Triple board env wait (Rest cs mem) q Q) :
    Triple board env wait (Rest cs mem) (fun g => (read r).bind fun v => (assert (v = 1) "").bind fun _ => q g) Q := by
  refine (read_rest r).bind fun v => ?_
  apply Triple.of_forall
  rintro c ⟨⟨b, hb, rfl⟩, hc⟩
  apply Triple.at_of hc
  refine (Triple.check ?_).bind fun _ => hq
  obtain rfl | rfl := hr
  · rw [Board.answer, Writer.ready, hb.writer]
    rfl
  · rw [Board.answer, Reader.ready, hb.reader.pattern]
    rfl

/-- An access that starts no transfer changes the storages only. -/
theorem access_rest {α : Type} (a : Access) (hw : Access.pulses (some a) .writerStart = false)
    (hr : Access.pulses (some a) .readerStart = false) {q : Nat → Script α} {Q : α → At (Board F G k rb) → Prop}
    (hq : Triple board env wait (Rest (cs.write a) mem) q Q) :
    Triple board env wait (Rest cs mem) (fun g => .access a fun _ => q g) Q := by
  apply Triple.access
  intro c hc
  apply hq.conseq _ (fun _ _ h => h)
  rintro c' rfl
  exact (Resting.later hc _).clock hw hr

theorem write_rest (r : Control) (v : Nat) (hw : (r == .writerStart) = false) (hr : (r == .readerStart) = false) :
    Triple board env wait (Rest cs mem) (fun _ => write r v) fun _ =>
      Rest (F := F) (G := G) (cs.write (.write r v)) mem :=
  access_rest (.write r v) hw hr (Triple.done () fun _ h => h)

/-- The storages after the words `vs` from the bus address `i` of a pattern memory on. -/
def storesAfter (m : PatternMem) (cs : Csrs w k rb) : Nat → List Nat → Csrs w k rb
  | _, [] => cs
  | i, v :: vs => storesAfter m (cs.write (.store m i v)) (i + 1) vs

theorem storeWords_rest (m : PatternMem) (vs : List Nat) : ∀ (cs : Csrs w k rb) (i : Nat),
    Triple board env wait (Rest cs mem) (fun _ => storeWords m i vs) fun _ =>
      Rest (F := F) (G := G) (storesAfter m cs i vs) mem := by
  induction vs with
  | nil => exact fun cs i => Triple.done () fun _ h => h
  | cons v vs ih => exact fun cs i => access_rest _ rfl rfl (ih _ _)

theorem storesAfter_writerData (vs : List Nat) : ∀ (cs : Csrs w k rb) (i : Nat),
    storesAfter .writerPatternData cs i vs =
      { cs with writer := { cs.writer with dataMem := storeAll cs.writer.dataMem i vs } } := by
  induction vs with
  | nil => exact fun _ _ => rfl
  | cons v vs ih => exact fun _ _ => ih _ _

theorem storesAfter_readerData (vs : List Nat) : ∀ (cs : Csrs w k rb) (i : Nat),
    storesAfter .readerPatternData cs i vs =
      { cs with reader := { cs.reader with dataMem := storeAll cs.reader.dataMem i vs } } := by
  induction vs with
  | nil => exact fun _ _ => rfl
  | cons v vs ih => exact fun _ _ => ih _ _

/-- Both pattern memories are loaded. -/
theorem storePatterns_rest (cs : Csrs w k rb) (offset p : Nat) :
    Triple board env wait (Rest cs mem) (fun _ => storePatterns w offset p) fun _ =>
      Rest (F := F) (G := G)
        ⟨loaded cs.writer (offset / (w / 8)) p, loaded cs.reader (offset / (w / 8)) p, cs.skipFifo⟩ mem := by
  refine (storeWords_rest _ _ _ _).bind fun _ => (storeWords_rest _ _ _ _).bind fun _ =>
    (storeWords_rest _ _ _ _).bind fun _ => (storeWords_rest _ _ _ _).conseq (fun _ h => h) fun _ c hc => ?_
  rw [storesAfter_writerData, storesAfter_readerData] at hc
  exact hc

/-! ## Filling -/

theorem progress_spec {count : Nat} (hcount : count ≠ 0) (current : Nat) {P : At (Board F G k rb) → Prop} :
    Triple board env wait P (fun _ => _progress current count) fun _ => P :=
  Triple.check hcount

/-- The Writer is at work, and ready from the `d`-th edge on. -/
def Fills (env : Nat → Stalls) (cs : Csrs w k rb) (mem : BitVec aw → BitVec w) (d : Nat) (c : At (Board F G k rb)) :
    Prop :=
  Filling cs mem c.device ∧ ∀ n, d ≤ n → (later board env c n).device.writer.fsm = .READY

theorem startWriter_spec (hfair : FairStalls env) :
    Triple board env wait (Rest (F := F) (G := G) cs mem) (fun _ => write .writerStart 1) fun _ c =>
      ∃ d, Fills env cs mem d c := by
  apply Triple.access
  intro c hc
  apply Triple.done
  rintro c' rfl
  have hrest : Resting cs mem (later board env c (wait c.time)).device := Resting.later hc _
  obtain ⟨d, hd⟩ := hrest.exists_ready hfair 1
  exact ⟨d, hrest.start_writer 1, hd⟩

/-- The host polls until the Writer is ready. -/
theorem waitWriter_spec {count : Nat} (hcount : count ≠ 0) (d : Nat) :
    Triple board env wait (Fills (F := F) (G := G) env cs mem d) (fun g => waitWriter g count)
      (fun _ => Rest cs (store mem (Writer.writes cs.writer aw cs.writer.count.toNat))) := by
  unfold waitWriter
  apply Triple.loop (fun d _ => Fills env cs mem d)
  intro d s
  apply Triple.of_forall
  rintro c ⟨hfill, hready⟩
  refine (read_spec .writerReady c).bind fun v => ?_
  apply Triple.of_forall
  rintro c' ⟨rfl, rfl⟩
  by_cases hf : (later board env c (wait c.time)).device.writer.fsm = .READY
  · refine Triple.ite_pos ?_ (Triple.done _ ?_)
    · rw [Board.answer, Writer.ready, hf]
      decide
    · rintro _ rfl
      exact (hfill.later _).resting (clock_writer_of_ready hf rfl)
  · refine Triple.ite_neg ?_ ((read_spec .writerDone _).bind fun v => (progress_spec hcount v).bind fun _ =>
      Triple.done _ ?_)
    · rw [Board.answer, Writer.ready, beq_eq_false_iff_ne.mpr hf]
      decide
    · rintro c' ⟨-, rfl⟩
      have hlt : wait c.time < d := Nat.lt_of_not_le fun h => hf (hready _ h)
      refine ⟨d - (wait c.time + 1), by omega, ?_, fun n hn => ?_⟩
      · rw [later_later]
        exact hfill.later _
      · rw [later_later, later_later]
        exact hready _ (by omega)

/-- `hw_memset` runs the transfer of the Writer that covers the range. -/
theorem hwMemset_spec (hfair : FairStalls env) {offset size p : Nat} (hsize : size % (w / 8) = 0)
    (hcount : size / (w / 8) ≠ 0) :
    Triple board env wait (Rest (F := F) (G := G) cs mem) (fun g => hwMemset w g offset size [p]) fun _ =>
      Rest ⟨covering cs.writer (offset / (w / 8)) (size / (w / 8)) (p &&& 0xffffffff),
          loaded cs.reader (offset / (w / 8)) (p &&& 0xffffffff), cs.skipFifo⟩
        (store mem (Writer.writes (covering cs.writer (offset / (w / 8)) (size / (w / 8)) (p &&& 0xffffffff)) aw
          (BitVec.ofNat 32 (size / (w / 8))).toNat)) := by
  unfold hwMemset
  refine (Triple.check hsize).bind fun _ => (Triple.check rfl).bind fun _ => ?_
  apply assertReady_rest (Or.inl rfl)
  refine (write_rest _ _ rfl rfl).bind fun _ => (storePatterns_rest _ _ _).bind fun _ =>
    (write_rest _ _ rfl rfl).bind fun _ => (write_rest _ _ rfl rfl).bind fun _ =>
    (startWriter_spec hfair).bind fun _ => ?_
  apply Triple.ex
  intro d
  refine (waitWriter_spec hcount d).bind fun _ => (read_rest .writerDone).bind fun v => ?_
  exact (progress_spec hcount v).conseq (fun _ h => h.2) (fun _ _ h => h)

/-! ## Testing -/

section Testing
variable {R : List (Reader.ErrorRecord w)} {c₀ : At (Board F G k rb)}

/-- The configurations after `c₀` without an access that acts. -/
def Since (env : Nat → Stalls) (c₀ c : At (Board F G k rb)) : Prop := ∃ n, c = later board env c₀ n

theorem read_since (r : Status) :
    Triple board env wait (Since env c₀) (fun _ => read r) fun v c =>
      (∃ c', Since env c₀ c' ∧ v = c'.device.answer (.read r)) ∧ Since env c₀ c := by
  apply Triple.of_forall
  rintro c ⟨m, rfl⟩
  apply (read_spec r _).conseq (fun _ h => h)
  rintro v c ⟨rfl, rfl⟩
  simp only [later_later]
  exact ⟨⟨_, ⟨_, rfl⟩, rfl⟩, ⟨_, rfl⟩⟩

theorem progress_since {count : Nat} (hcount : count ≠ 0) :
    Triple board env wait (Since env c₀) (fun _ => progress count) fun _ => Since env c₀ :=
  (read_since .readerDone).bind fun v => (progress_spec hcount v).conseq (fun _ h => h.2) (fun _ _ h => h)

/-- An error that is offered is read whole. -/
theorem readError_since {r : Status} {v : Nat} (hvalid : c₀.device.reader.error.fsm = .VALID)
    (hr : ∀ b : Board F G k rb, b.reader.error = c₀.device.reader.error → b.answer (.read r) = v) :
    Triple board env wait (Since env c₀) (fun _ => read r) fun x c => x = v ∧ Since env c₀ c := by
  apply (read_since r).conseq (fun _ h => h)
  rintro x c ⟨⟨c', ⟨n, rfl⟩, rfl⟩, hc⟩
  exact ⟨hr _ (Testing.later_error hvalid n), hc⟩

/-- The edge of a continue pulse, and what follows until the next access that acts. -/
theorem continue_spec {count : Nat} (hcount : count ≠ 0) (h : Testing cs mem R c₀.device)
    (hvalid : c₀.device.reader.error.fsm = .VALID) :
    Triple board env wait (Since env c₀) (fun _ => (write .readerErrorContinue 1).bind fun _ => progress count)
      fun _ c => Testing cs mem (R ++ [c₀.device.reader.error.reg]) c.device ∧
        Reader.rank cs.reader c.device.reader < Reader.rank cs.reader c₀.device.reader ∧
        (c₀.device.reader.pattern.fsm = .READY → c.device.reader.pattern.fsm = .READY) := by
  apply Triple.access
  rintro c ⟨m, rfl⟩
  rw [later_later]
  set c₁ := later board env c₀ (m + wait (later board env c₀ m).time)
  have herror : c₁.device.reader.error = c₀.device.reader.error := Testing.later_error hvalid _
  have htest : Testing cs mem R c₁.device := h.later _
  have hvalid₁ : c₁.device.reader.error.fsm = .VALID := by
    rw [herror, hvalid]
  have hnext := htest.continue_clock (x := env c₁.time) hvalid₁ 1
  have hsince : Since env (perform board env c₁ (.write .readerErrorContinue 1))
      (perform board env c₁ (.write .readerErrorContinue 1)) := ⟨0, rfl⟩
  refine (Triple.at_of hsince (progress_since hcount)).conseq (fun _ h => h) ?_
  rintro _ c ⟨n, rfl⟩
  rw [herror] at hnext
  refine ⟨hnext.later n, ?_, fun hready => ?_⟩
  · calc Reader.rank cs.reader _ ≤ Reader.rank cs.reader _ := hnext.later_rank n
      _ < Reader.rank cs.reader c₁.device.reader := htest.continue_rank hvalid₁ 1
      _ ≤ Reader.rank cs.reader c₀.device.reader := h.later_rank _
  · exact Testing.later_ready (clock_reader_of_ready (Testing.later_ready hready _) rfl) n

theorem takeError_spec {count : Nat} (hcount : count ≠ 0) (err : List BistError) (h : Testing cs mem R c₀.device)
    (hvalid : c₀.device.reader.error.fsm = .VALID) :
    Triple board env wait (Since env c₀) (fun _ => takeError count err) fun err' c =>
      err' = err ++ [bistError c₀.device.reader.error.reg] ∧
        Testing cs mem (R ++ [c₀.device.reader.error.reg]) c.device ∧
        Reader.rank cs.reader c.device.reader < Reader.rank cs.reader c₀.device.reader ∧
        (c₀.device.reader.pattern.fsm = .READY → c.device.reader.pattern.fsm = .READY) := by
  unfold takeError
  refine (readError_since hvalid fun b hb => congrArg (fun e => e.reg.offset.toNat) hb).bind fun offset =>
    Triple.lift ?_
  rintro rfl
  refine (readError_since hvalid fun b hb => congrArg (fun e => e.reg.data.toNat) hb).bind fun data => Triple.lift ?_
  rintro rfl
  refine (readError_since hvalid fun b hb => congrArg (fun e => e.reg.expected.toNat) hb).bind fun expected =>
    Triple.lift ?_
  rintro rfl
  refine (continue_spec hcount h hvalid).bind fun _ => Triple.done _ ?_
  exact fun c hc => ⟨rfl, hc⟩

/-- What `append_errors` leaves, called at `c₀`: either it took an error, or it found none. -/
structure Drained (env : Nat → Stalls) (cs : Csrs w k rb) (mem : BitVec aw → BitVec w) (c₀ : At (Board F G k rb))
    (R : List (Reader.ErrorRecord w)) (c : At (Board F G k rb)) : Prop where
  test : Testing cs mem R c.device
  rank : Reader.rank cs.reader c.device.reader < Reader.rank cs.reader c₀.device.reader ∨
    ∃ n, c = later board env c₀ (n + 1) ∧ (later board env c₀ n).device.reader.error.fsm = .INVALID
  ready : c₀.device.reader.pattern.fsm = .READY →
    c.device.reader.pattern.fsm = .READY ∧ Reader.held c.device.reader = []

/-- The records taken are at most as many as the words. -/
theorem length_le_count (h : Testing cs mem R c₀.device) : R.length ≤ cs.reader.count.toNat := by
  obtain ⟨r, C, D, hinv⟩ := h.inv
  have hlen := congrArg List.length h.held
  have hle := Reader.errors_length_le cs.reader (answers mem) 0 c₀.device.reader.pattern.compared
  have hcount := hinv.pattern.le_count
  rw [List.length_append] at hlen
  omega

/-- When the Reader is ready, the records taken and those held are all. -/
theorem errors_of_ready (h : Testing cs mem R c₀.device) (hready : c₀.device.reader.pattern.fsm = .READY) :
    R ++ Reader.held c₀.device.reader = Reader.errors cs.reader (answers mem) 0 cs.reader.count.toNat := by
  obtain ⟨r, C, D, hinv⟩ := h.inv
  rw [h.held, (Reader.compared_of_ready hinv (beq_iff_eq.mpr hready)).1]

theorem error_of_held {s : Reader.State F G k rb} (h : Reader.held s = []) : s.error.fsm = .INVALID := by
  cases hf : s.error.fsm with
  | INVALID => rfl
  | VALID =>
    rw [Reader.held, hf] at h
    cases h

theorem fifo_of_held {s : Reader.State F G k rb} (h : Reader.held s = []) : G.contents s.errorFifo = [] := by
  rw [Reader.held, List.append_eq_nil_iff, List.append_eq_nil_iff] at h
  exact h.1.2

/-- A ready Reader that holds no record stays so. -/
theorem held_later (h : Testing cs mem R c₀.device) (hready : c₀.device.reader.pattern.fsm = .READY)
    (hnone : Reader.held c₀.device.reader = []) (m : Nat) : Reader.held (later board env c₀ m).device.reader = [] := by
  have hlater : Testing cs mem R (later board env c₀ m).device := h.later m
  have hsame := (errors_of_ready hlater (Testing.later_ready hready m)).trans (errors_of_ready h hready).symm
  rw [hnone] at hsame
  exact List.append_cancel_left hsame

/-- One edge later it is idle. -/
theorem resting_later (h : Testing cs mem R c₀.device) (hready : c₀.device.reader.pattern.fsm = .READY)
    (hnone : Reader.held c₀.device.reader = []) (m : Nat) :
    Resting cs mem (later board env c₀ (m + 1)).device := by
  have hbefore : Testing cs mem R (later board env c₀ m).device := h.later m
  have hafter : Testing cs mem R (later board env c₀ (m + 1)).device := h.later (m + 1)
  have hheld : Reader.held (later board env c₀ (m + 1)).device.reader = [] := held_later h hready hnone (m + 1)
  obtain ⟨r, C, D, hinv⟩ := hbefore.inv
  rw [← hbefore.csrs, ← hbefore.dram] at hinv
  refine ⟨hafter.csrs, hafter.writer, ?_, hafter.dram⟩
  apply hinv.idle_next rfl (Testing.later_ready hready m) (Testing.later_ready hready (m + 1))
  · exact fifo_of_held hheld
  · exact error_of_held hheld

/-- A ready Reader that offers no error after a while holds none. -/
theorem held_of_free (h : Testing cs mem R c₀.device) (hlag : ∀ q, G.lag q ≤ 3)
    (hready : c₀.device.reader.pattern.fsm = .READY) {n : Nat} (hn : 4 ≤ n)
    (hfree : (later board env c₀ n).device.reader.error.fsm = .INVALID) : Reader.held c₀.device.reader = [] := by
  obtain ⟨hinvalid, hfifo⟩ := h.free_of_later hlag hn hfree
  rw [Reader.held, hinvalid, hfifo, hready]
  rfl

/-- The rounds of `append_errors`, called at `c₀`; at most `x` records are still to come. -/
structure Draining (cs : Csrs w k rb) (mem : BitVec aw → BitVec w) (c₀ : At (Board F G k rb)) (x : Nat)
    (err : List BistError) (c : At (Board F G k rb)) : Prop where
  records : ∃ R, err = R.map bistError ∧ R.length + x = cs.reader.count.toNat ∧ Testing cs mem R c.device
  rank : c = c₀ ∨ Reader.rank cs.reader c.device.reader < Reader.rank cs.reader c₀.device.reader
  ready : c₀.device.reader.pattern.fsm = .READY → c.device.reader.pattern.fsm = .READY

/-- A round that finds an error takes it. -/
theorem Draining.take {x count : Nat} {err : List BistError} {c : At (Board F G k rb)} (hcount : count ≠ 0)
    (h : Draining cs mem c₀ x err c) {n : Nat} (hvalid : (later board env c n).device.reader.error.fsm = .VALID) :
    Triple board env wait (fun c' => c' = later board env c (n + 1)) (fun _ => takeError count err) fun err' c' =>
      ∃ y, y < x ∧ Draining cs mem c₀ y err' c' := by
  obtain ⟨R, rfl, hlen, htest⟩ := h.records
  have hlater : Testing cs mem R (later board env c n).device := htest.later n
  have hsince : Since env (later board env c n) (later board env c (n + 1)) := ⟨1, (later_later ..).symm⟩
  apply (Triple.at_of hsince (takeError_spec hcount _ hlater hvalid)).conseq (fun _ h => h)
  rintro err' c' ⟨rfl, htest', hrank, hready⟩
  have hle := length_le_count htest'
  rw [List.length_append, List.length_singleton] at hle
  refine ⟨x - 1, by omega, ⟨_, ?_, ?_, htest'⟩, Or.inr ?_, fun hr => hready (Testing.later_ready (h.ready hr) n)⟩
  · rw [List.map_append]
    rfl
  · rw [List.length_append, List.length_singleton]
    omega
  · have hle : Reader.rank cs.reader (later board env c n).device.reader ≤ Reader.rank cs.reader c.device.reader :=
      htest.later_rank n
    obtain rfl | hlt := h.rank
    · omega
    · omega

/-- A round that finds no error ends the loop. -/
theorem Draining.drained {x : Nat} {err : List BistError} {c : At (Board F G k rb)} (h : Draining cs mem c₀ x err c)
    (hlag : ∀ q, G.lag q ≤ 3) {n : Nat} (hn : 7 ≤ n)
    (hfree : (later board env c n).device.reader.error.fsm = .INVALID) :
    ∃ R, err = R.map bistError ∧ Drained env cs mem c₀ R (later board env c (n + 1)) := by
  obtain ⟨R, rfl, -, htest⟩ := h.records
  refine ⟨R, rfl, htest.later _, ?_, fun hready => ?_⟩
  · obtain rfl | hlt := h.rank
    · exact Or.inr ⟨n, rfl, hfree⟩
    · exact Or.inl (Nat.lt_of_le_of_lt (htest.later_rank _) hlt)
  · have hnone := held_of_free htest hlag (h.ready hready) (by omega) hfree
    exact ⟨Testing.later_ready (h.ready hready) _, held_later htest (h.ready hready) hnone _⟩

theorem appendErrors_spec (hwait : ∀ t, 7 ≤ wait t) (hlag : ∀ q, G.lag q ≤ 3) {count : Nat} (hcount : count ≠ 0)
    (h : Testing cs mem R c₀.device) :
    Triple board env wait (fun c => c = c₀) (fun g => appendErrors g count (R.map bistError)) fun err c =>
      ∃ R', err = R'.map bistError ∧ Drained env cs mem c₀ R' c := by
  have hstart : Draining cs mem c₀ (cs.reader.count.toNat - R.length) (R.map bistError) c₀ :=
    ⟨⟨R, rfl, Nat.add_sub_cancel' (length_le_count h), h⟩, Or.inl rfl, id⟩
  unfold appendErrors
  apply Triple.at_of hstart
  apply Triple.loop (Draining cs mem c₀)
  intro x err
  apply Triple.of_forall
  intro c hc
  refine (read_spec .readerErrorReady c).bind fun v => ?_
  apply Triple.of_forall
  rintro c' ⟨rfl, rfl⟩
  cases hf : (later board env c (wait c.time)).device.reader.error.fsm with
  | VALID =>
    refine Triple.ite_pos ?_ ((hc.take hcount hf).bind fun err' => Triple.done _ fun _ h => h)
    rw [Board.answer, hf]
    decide
  | INVALID =>
    refine Triple.ite_neg ?_ (Triple.done _ ?_)
    · rw [Board.answer, hf]
      decide
    · rintro _ rfl
      exact hc.drained hlag (hwait _) hf

/-- The rounds of the loop of `hw_memtest`: `ρ` bounds the rank, and from the `d`-th edge on an error is offered or the
Reader is ready. -/
structure Polling (env : Nat → Stalls) (cs : Csrs w k rb) (mem : BitVec aw → BitVec w) (ρ d : Nat)
    (errors : List BistError) (c : At (Board F G k rb)) : Prop where
  records : ∃ R, errors = R.map bistError ∧ Testing cs mem R c.device
  rank : Reader.rank cs.reader c.device.reader ≤ ρ
  offered : ∀ n, d ≤ n → (later board env c n).device.reader.error.fsm = .VALID ∨
    (later board env c n).device.reader.pattern.fsm = .READY

/-- A round that takes an error lowers the rank; one that finds none comes closer to the next. -/
theorem Polling.next (hfair : FairStalls env) {ρ d : Nat} {errors : List BistError} {c c' : At (Board F G k rb)}
    (h : Polling env cs mem ρ d errors c) {n : Nat} (hbusy : (later board env c n).device.reader.pattern.fsm ≠ .READY)
    {R : List (Reader.ErrorRecord w)} (hdrained : Drained env cs mem (later board env c (n + 1)) R c') (m : Nat) :
    ∃ ρ' d', (ρ' < ρ ∨ ρ' = ρ ∧ d' < d) ∧ Polling env cs mem ρ' d' (R.map bistError) (later board env c' m) := by
  obtain ⟨R₀, -, htest⟩ := h.records
  have hrank : Reader.rank cs.reader (later board env c (n + 1)).device.reader ≤ ρ :=
    Nat.le_trans (htest.later_rank _) h.rank
  have htest' : Testing cs mem R (later board env c' m).device := hdrained.test.later m
  have hrank' : Reader.rank cs.reader (later board env c' m).device.reader ≤ Reader.rank cs.reader c'.device.reader :=
    hdrained.test.later_rank m
  obtain hlt | ⟨i, rfl, hfree⟩ := hdrained.rank
  · obtain ⟨d', hd'⟩ := htest'.exists_offered hfair
    exact ⟨_, d', Or.inl (by omega), ⟨R, rfl, htest'⟩, Nat.le_refl _, hd'⟩
  · -- nothing was offered, so the next offer is still ahead
    have hahead : n < d := by
      apply Nat.lt_of_not_le
      intro hle
      obtain hvalid | hready := h.offered n hle
      · rw [later_later, Nat.add_assoc, ← later_later, Testing.later_error hvalid, hvalid] at hfree
        cases hfree
      · exact hbusy hready
    refine ⟨ρ, d - (n + 1), Or.inr ⟨rfl, by omega⟩, ⟨R, rfl, htest'⟩, ?_, fun j hj => ?_⟩
    · refine Nat.le_trans hrank' (Nat.le_trans ?_ h.rank)
      rw [later_later]
      exact htest.later_rank _
    · rw [later_later, later_later, later_later]
      exact h.offered _ (by omega)

/-- The host takes the errors until the Reader is ready. -/
theorem waitReader_spec (hwait : ∀ t, 7 ≤ wait t) (hlag : ∀ q, G.lag q ≤ 3) (hfair : FairStalls env) {count : Nat}
    (hcount : count ≠ 0) (h : Testing cs mem R c₀.device) :
    Triple board env wait (fun c => c = c₀) (fun g => waitReader g count (R.map bistError)) fun errors c =>
      ∃ R', errors = R'.map bistError ∧ Testing cs mem R' c.device ∧ c.device.reader.pattern.fsm = .READY := by
  obtain ⟨d, hd⟩ := h.exists_offered hfair
  have hstart : Polling env cs mem _ d (R.map bistError) c₀ := ⟨⟨R, rfl, h⟩, Nat.le_refl _, hd⟩
  unfold waitReader
  apply Triple.at_of hstart
  apply Triple.loop (fun x : ℕ ×ₗ ℕ => Polling env cs mem (ofLex x).1 (ofLex x).2) ?_ (toLex (_, d))
  intro x errors
  apply Triple.of_forall
  intro c hc
  refine (read_spec .readerReady c).bind fun v => ?_
  apply Triple.of_forall
  rintro c' ⟨rfl, rfl⟩
  obtain ⟨R₀, rfl, htest⟩ := hc.records
  by_cases hf : (later board env c (wait c.time)).device.reader.pattern.fsm = .READY
  · refine Triple.ite_pos ?_ (Triple.done _ ?_)
    · rw [Board.answer, Reader.ready, hf]
      decide
    · rintro _ rfl
      exact ⟨R₀, rfl, htest.later _, clock_reader_of_ready hf rfl⟩
  · refine Triple.ite_neg ?_ ((appendErrors_spec hwait hlag hcount (htest.later _)).bind fun errors => ?_)
    · rw [Board.answer, Reader.ready, beq_eq_false_iff_ne.mpr hf]
      decide
    · apply Triple.of_forall
      rintro c' ⟨R', rfl, hdrained⟩
      have hsince : Since env c' c' := ⟨0, rfl⟩
      apply Triple.at_of hsince
      refine (progress_since hcount).bind fun _ => (progress_since hcount).bind fun _ => Triple.done _ ?_
      rintro _ ⟨m, rfl⟩
      obtain ⟨ρ, d, hless, hnext⟩ := hc.next hfair hf hdrained m
      exact ⟨toLex (ρ, d), Prod.Lex.toLex_lt_toLex.mpr hless, hnext⟩

theorem startReader_spec (hskip : cs.skipFifo = false) :
    Triple board env wait (Rest (F := F) (G := G) cs mem) (fun _ => write .readerStart 1) fun _ c =>
      Testing cs mem [] c.device := by
  apply Triple.access
  intro c hc
  apply Triple.done
  rintro c' rfl
  have hrest : Resting cs mem (later board env c (wait c.time)).device := Resting.later hc _
  exact hrest.start_reader hskip 1

/-- The last assertions of `hw_memtest` hold, and the Reader is idle after them. -/
theorem assertDrained_spec (h : Testing cs mem R c₀.device) (hready : c₀.device.reader.pattern.fsm = .READY)
    (hnone : Reader.held c₀.device.reader = []) {α : Type} (a : α) :
    Triple board env wait (fun c => c = c₀) (fun _ => do
      let ready ← read .readerReady
      assert (ready = 1) ""
      let errorReady ← read .readerErrorReady
      assert (errorReady = 0) ""
      return a) fun x c => x = a ∧ Rest cs mem c := by
  refine (read_spec .readerReady c₀).bind fun v => ?_
  apply Triple.of_forall
  rintro _ ⟨rfl, rfl⟩
  refine (Triple.check ?_).bind fun _ => (read_spec .readerErrorReady _).bind fun v => ?_
  · rw [Board.answer, Reader.ready, Testing.later_ready hready]
    rfl
  · apply Triple.of_forall
    rintro _ ⟨rfl, rfl⟩
    rw [later_later]
    refine (Triple.check ?_).bind fun _ => Triple.done _ ?_
    · rw [later_later, Board.answer, error_of_held (held_later h hready hnone _)]
      rfl
    · rintro _ rfl
      exact ⟨rfl, resting_later h hready hnone _⟩

/-- `hw_memtest` returns the errors of the transfer of the Reader that covers the range, and leaves the modules idle. -/
theorem hwMemtest_rest (hwait : ∀ t, 7 ≤ wait t) (hlag : ∀ q, G.lag q ≤ 3) (hfair : FairStalls env)
    {offset size p : Nat}
    (hsize : size % (w / 8) = 0) (hcount : size / (w / 8) ≠ 0) :
    Triple board env wait (Rest (F := F) (G := G) cs mem) (fun g => hwMemtest w g offset size [p]) fun errors c =>
      errors = (Reader.errors (covering cs.reader (offset / (w / 8)) (size / (w / 8)) (p &&& 0xffffffff))
        (answers mem) 0 (BitVec.ofNat 32 (size / (w / 8))).toNat).map bistError ∧
      Rest ⟨loaded cs.writer (offset / (w / 8)) (p &&& 0xffffffff),
        covering cs.reader (offset / (w / 8)) (size / (w / 8)) (p &&& 0xffffffff), false⟩ mem c := by
  unfold hwMemtest
  refine (Triple.check hsize).bind fun _ => (Triple.check rfl).bind fun _ => (write_rest _ _ rfl rfl).bind fun _ =>
    (write_rest _ _ rfl rfl).bind fun _ => ?_
  apply assertReady_rest (Or.inr rfl)
  refine (write_rest _ _ rfl rfl).bind fun _ => (storePatterns_rest _ _ _).bind fun _ =>
    (write_rest _ _ rfl rfl).bind fun _ => (write_rest _ _ rfl rfl).bind fun _ =>
    (startReader_spec rfl).bind fun _ => ?_
  apply Triple.of_forall
  intro c htest
  refine (waitReader_spec hwait hlag hfair hcount htest).bind fun errors => ?_
  apply Triple.of_forall
  rintro c₁ ⟨R, rfl, htest₁, hready₁⟩
  have hsince : Since env c₁ c₁ := ⟨0, rfl⟩
  apply Triple.at_of hsince
  refine (progress_since hcount).bind fun _ => ?_
  apply Triple.of_forall
  rintro c₂ ⟨n, rfl⟩
  refine (appendErrors_spec hwait hlag hcount (htest₁.later n)).bind fun errors => ?_
  apply Triple.of_forall
  rintro c₃ ⟨R', rfl, hdrained⟩
  obtain ⟨hready, hnone⟩ := hdrained.ready (Testing.later_ready hready₁ n)
  apply (assertDrained_spec hdrained.test hready hnone _).conseq (fun _ h => h)
  rintro _ _ ⟨rfl, hrest⟩
  have hall := errors_of_ready hdrained.test hready
  rw [hnone, List.append_nil] at hall
  rw [hall]
  exact ⟨rfl, hrest⟩

theorem hwMemtest_spec (hwait : ∀ t, 7 ≤ wait t) (hlag : ∀ q, G.lag q ≤ 3) (hfair : FairStalls env)
    {offset size p : Nat}
    (hsize : size % (w / 8) = 0) (hcount : size / (w / 8) ≠ 0) :
    Triple board env wait (Rest (F := F) (G := G) cs mem) (fun g => hwMemtest w g offset size [p]) fun errors _ =>
      errors = (Reader.errors (covering cs.reader (offset / (w / 8)) (size / (w / 8)) (p &&& 0xffffffff))
        (answers mem) 0 (BitVec.ofNat 32 (size / (w / 8))).toNat).map bistError :=
  (hwMemtest_rest hwait hlag hfair hsize hcount).conseq (fun _ h => h) fun _ _ h => h.1

end Testing

end Specs

end RowhammerTester.Scripts
