import RowhammerTester.Scripts.RowHammer.Summary

/-!
# The error logs

The scripts and the payload generators write the flips of a row by columns, and their number. The records of a row may
come from several banks, and several words of a row may be in one column.

* `LogGenerator`, `LoggedRowList.processErrors`, `Idle.updateLog`, `Idle.processErrors` : the logs of the playbook;
* `hwCheckErrors` : the records of the script that uses the BIST modules;
* `Produced` : the dictionaries of records; `Recorded` : what is known of them (`Produced.recorded`);
* `Balanced` : an entry lists as many flips as it counts;
* `log_balanced_iff` : all entries of a call are balanced exactly if every row has records, no two of them in the same
  column.
-/

namespace RowhammerTester.Playbook
open RowhammerTester.Scripts DramAddressConverter

/-! ## The payload generators -/

/-- The attributes of `LoggedRowListPayloadGenerator` and `IdlePayloadGenerator` that their logs read. -/
structure LogGenerator where
  settings : Settings
  converter : DramAddressConverter
  load_eq : settings.load = .ok converter
  rowMapping : RowMapping
  bank : Nat
  logDir : Bool

structure LogState where
  iteration : Nat
  /-- One dictionary for every iteration, by logical rows. -/
  errSummary : List (List (Nat × RowEntry))
  cache : Cache

section Generators
variable (g : LogGenerator) (st : LogState) (rowErrors : RowErrors)

/-- The assignments to `err_desc`. -/
def logWrites : Py (List (Nat × RowEntry) × EntryVars) :=
  assignments g.settings g.converter g.bank true g.rowMapping.physicalToLogical st.cache rowErrors

/-- The log of an iteration, the same in both generators. -/
def logErrors : Py LogState := do
  let (writes, v) ← logWrites g st rowErrors
  return { st with errSummary := st.errSummary ++ [Dictionary.assign writes], cache := v.cache }

/-- `process_errors` of `LoggedRowListPayloadGenerator`, which first counts the iteration as any row list does. -/
def LoggedRowList.processErrors : Py LogState :=
  let st := { st with iteration := st.iteration + 1 }
  if g.logDir then logErrors g st rowErrors else .ok st

def Idle.updateLog : Py LogState := logErrors g st rowErrors

/-- `process_errors` of `IdlePayloadGenerator`. -/
def Idle.processErrors : Py LogState := do
  let st ← if g.logDir then Idle.updateLog g st rowErrors else .ok st
  return { st with iteration := st.iteration + 1 }

end Generators

/-! ## The records -/

/-- A round of the loop of `HwRowHammer.check_errors`. -/
def hwCheckError (r : RowHammer) (mainRamBase : Int) (st : RowErrors × Cache) (e : BistError) :
    Py (RowErrors × Cache) := do
  let addr := mainRamBase + (e.offset * r.settings.dmaDataBytes : Nat)
  let (_, row, _) ← r.converter.decodeBus addr 0x40000000 32
  let (addresses, cache) ← addressesPerRow r.settings r.converter st.2 r.bank row.toNat
  let baseAddr ← Py.min addresses
  return (Dictionary.append st.1 row.toNat ⟨(addr - baseAddr).fdiv 4, e.data, e.expected⟩, cache)

/-- `HwRowHammer.check_errors`, from the errors of `hw_memtest` on. -/
def hwCheckErrors (r : RowHammer) (mainRamBase : Int) (cache : Cache) (errors : List BistError) :
    Py (RowErrors × Cache) :=
  errors.foldlM (hwCheckError r mainRamBase) ([], cache)

/-- The dictionaries of records: from `decode_errors`, `HwRowHammer.check_errors` or `RowHammer.check_errors`. The BIST
modules report words that are not as expected. -/
inductive Produced (settings : Settings) (c : DramAddressConverter) : RowErrors → Prop
  | decodeErrors {mainRamBase : Int} {cache cache' : Cache} {errors : List BistError} {rowErrors : RowErrors}
      (hdiffer : ∀ e ∈ errors, e.data ≠ e.expected)
      (h : decodeErrors settings c mainRamBase cache errors = .ok (rowErrors, cache')) : Produced settings c rowErrors
  | hwCheckErrors (r : RowHammer) (hs : r.settings = settings) (hconv : r.converter = c) {mainRamBase : Int}
      {cache cache' : Cache} {errors : List BistError} {rowErrors : RowErrors}
      (hdiffer : ∀ e ∈ errors, e.data ≠ e.expected)
      (h : hwCheckErrors r mainRamBase cache errors = .ok (rowErrors, cache')) : Produced settings c rowErrors
  | checkErrors (r : RowHammer) (hs : r.settings = settings) (hconv : r.converter = c) {mem : BusMemory}
      {rowPatterns : Nat → Option Nat} {cache cache' : Cache} {rowErrors : RowErrors}
      (hcache : Reached r.settings r.converter r.bank cache)
      (h : r.checkErrors mem rowPatterns cache = .ok (rowErrors, cache')) : Produced settings c rowErrors

/-- The rows are different ones of the module, and the records are of words that are not as expected. -/
structure Recorded (c : DramAddressConverter) (rowErrors : RowErrors) : Prop where
  nodup : (rowErrors.map Prod.fst).Nodup
  row_lt : ∀ row ∈ rowErrors.map Prod.fst, row < 2 ^ c.rowbits
  shift_eq : ∀ row ∈ rowErrors.map Prod.fst, ∃ shift, c.getBusShift 32 = .ok shift
  differ : ∀ p ∈ rowErrors, ∀ e ∈ p.2, e.value ≠ e.expected

section Recorded
variable {settings : Settings} {c : DramAddressConverter} {rowErrors : RowErrors}

theorem Recorded.append (h : Recorded c rowErrors) {row : Nat} {e : RowError} (hrow : row < 2 ^ c.rowbits)
    (hshift : ∃ shift, c.getBusShift 32 = .ok shift) (he : e.value ≠ e.expected) :
    Recorded c (Dictionary.append rowErrors row e) where
  nodup := Dictionary.nodup_keys_append h.nodup row e
  row_lt row' hmem := (Dictionary.mem_keys_append.mp hmem).elim (fun heq => heq ▸ hrow) (h.row_lt row')
  shift_eq row' hmem := (Dictionary.mem_keys_append.mp hmem).elim (fun _ => hshift) (h.shift_eq row')
  differ := Dictionary.forall_mem_append h.differ row he

/-- A loop that appends a record for every error. -/
theorem recorded_of_foldlM {step : RowErrors × Cache → BistError → Py (RowErrors × Cache)}
    (hstep : ∀ {st e st'}, step st e = .ok st' → (∃ shift, c.getBusShift 32 = .ok shift) ∧
      ∃ row < 2 ^ c.rowbits, ∃ i, st'.1 = Dictionary.append st.1 row ⟨i, e.data, e.expected⟩)
    {errors : List BistError} (hdiffer : ∀ e ∈ errors, e.data ≠ e.expected) {st st' : RowErrors × Cache}
    (hst : Recorded c st.1) (h : errors.foldlM step st = .ok st') : Recorded c st'.1 := by
  apply Py.foldlM_invariant (I := fun st => Recorded c st.1) _ hst h
  intro e he st st' hst hone
  obtain ⟨hshift, row, hrow, i, heq⟩ := hstep hone
  rw [heq]
  exact hst.append hrow hshift (hdiffer e he)

/-- A round that appends to the row of an address; the requested addresses only give the index. -/
theorem exists_append_of_decodeBus {addr : Int} (requested : Int × Int × Int → Py (List Int × Cache))
    {st st' : RowErrors × Cache} {e : BistError} (h : (do
      let loc ← c.decodeBus addr 0x40000000 32
      let (addresses, cache) ← requested loc
      let baseAddr ← Py.min addresses
      return (Dictionary.append st.1 loc.2.1.toNat ⟨(addr - baseAddr).fdiv 4, e.data, e.expected⟩, cache)) = .ok st') :
    (∃ shift, c.getBusShift 32 = .ok shift) ∧
      ∃ row < 2 ^ c.rowbits, ∃ i, st'.1 = Dictionary.append st.1 row ⟨i, e.data, e.expected⟩ := by
  obtain ⟨loc, hloc, h⟩ := Py.bind_eq_ok.mp h
  obtain ⟨hshift, row, hrow, hlt⟩ := exists_of_decodeBus hloc
  obtain ⟨_, -, h⟩ := Py.bind_eq_ok.mp h
  obtain ⟨_, -, h⟩ := Py.bind_eq_ok.mp h
  cases h
  exact ⟨hshift, _, by rw [hrow]; exact hlt, _, rfl⟩

theorem recorded_nil : Recorded c [] := ⟨List.nodup_nil, by simp, by simp, by simp⟩

theorem Produced.recorded (h : Produced settings c rowErrors) : Recorded c rowErrors := by
  cases h with
  | decodeErrors hdiffer h =>
    refine recorded_of_foldlM (fun hone => ?_) hdiffer recorded_nil h
    exact exists_append_of_decodeBus (fun loc => addressesPerRow settings c _ loc.1.toNat loc.2.1.toNat) hone
  | hwCheckErrors r hs hconv hdiffer h =>
    subst hconv
    refine recorded_of_foldlM (fun hone => ?_) hdiffer recorded_nil h
    exact exists_append_of_decodeBus (fun loc => addressesPerRow r.settings r.converter _ r.bank loc.2.1.toNat) hone
  | checkErrors r hs hconv hcache h =>
    subst hconv
    obtain ⟨-, hchecked⟩ := RowHammer.checked_of_checkErrors hcache h
    refine ⟨hchecked.nodup, fun row hmem => ?_, fun row hmem => ?_, hchecked.differ⟩
    · obtain ⟨p, hp, rfl⟩ := List.mem_map.mp hmem
      exact (hchecked.addressable p hp).row_lt
    · obtain ⟨p, hp, rfl⟩ := List.mem_map.mp hmem
      exact ⟨_, (hchecked.addressable p hp).shift_eq⟩

theorem produced_of_resultOf {mainRamBase : Int} {calls : Nat → List BistError} {t : Nat}
    (h : resultOf settings c mainRamBase calls t = .ok rowErrors) (hdiffer : ∀ e ∈ calls t, e.data ≠ e.expected) :
    Produced settings c rowErrors := by
  obtain ⟨_, -, h⟩ := Py.bind_eq_ok.mp h
  obtain ⟨_, hdecode, h⟩ := Py.bind_eq_ok.mp h
  cases h
  exact .decodeErrors hdiffer hdecode

theorem Recorded.addressable (h : Recorded c rowErrors) {bank : Nat} (hb : bank < 2 ^ c.bankbits)
    (p : Nat × List RowError) (hp : p ∈ rowErrors) : c.Addressable bank p.1 := by
  have hmem : p.1 ∈ rowErrors.map Prod.fst := List.mem_map_of_mem hp
  obtain ⟨shift, hshift⟩ := h.shift_eq p.1 hmem
  exact (addressable_of_shift hshift hb (h.row_lt p.1 hmem)).1

end Recorded

/-! ## Balanced entries -/

/-- The columns list as many flips as the entry counts. -/
def Balanced (entry : RowEntry) : Prop := Dictionary.weight List.length entry.col = entry.bitflips

instance (entry : RowEntry) : Decidable (Balanced entry) :=
  inferInstanceAs (Decidable (Dictionary.weight List.length entry.col = entry.bitflips))

/-- The row has records, no two of them in a column. -/
def Kept (c : DramAddressConverter) (bank : Nat) (p : Nat × List RowError) : Prop :=
  p.2 ≠ [] ∧ (p.2.map (recordColumn c bank p.1)).Nodup

section Balance
variable {c : DramAddressConverter} {bank row : Nat} {errors : List RowError}

theorem weight_recordColumns (c : DramAddressConverter) (bank row : Nat) (errors : List RowError) :
    Dictionary.weight List.length (recordColumns c bank row errors) = flips errors := by
  unfold Dictionary.weight recordColumns flips
  rw [List.map_map]
  congr 1
  apply List.map_congr_left
  intro e _
  exact RowHammer.length_bitflipList e.value e.expected

theorem balanced_iff (hdiffer : ∀ e ∈ errors, e.value ≠ e.expected) {x : Int} :
    Balanced ⟨x, Dictionary.assign (recordColumns c bank row errors), flips errors⟩ ↔
      (errors.map (recordColumn c bank row)).Nodup := by
  have hlists : ∀ l ∈ (recordColumns c bank row errors).map Prod.snd, 0 < l.length := by
    intro l hl
    unfold recordColumns at hl
    rw [List.map_map, List.mem_map] at hl
    obtain ⟨e, he, rfl⟩ := hl
    exact List.length_pos_iff.mpr (RowHammer.bitflipList_ne_nil (hdiffer e he))
  have hweight := (Dictionary.weight_assign List.length hlists).2
  have hkeys : (recordColumns c bank row errors).map Prod.fst = errors.map (recordColumn c bank row) := by
    unfold recordColumns
    rw [List.map_map]
    rfl
  rw [weight_recordColumns, hkeys] at hweight
  exact hweight

theorem flips_pos (hdiffer : ∀ e ∈ errors, e.value ≠ e.expected) (hne : errors ≠ []) : 0 < flips errors := by
  obtain ⟨e, rest, rfl⟩ := List.exists_cons_of_ne_nil hne
  have hone := List.length_pos_iff.mpr (RowHammer.bitflipList_ne_nil (hdiffer e List.mem_cons_self))
  rw [RowHammer.length_bitflipList] at hone
  unfold flips
  rw [List.map_cons, List.sum_cons]
  omega

theorem exists_lastRow (before : Option Int) (hne : errors ≠ []) : ∃ x, lastRow c bank row before errors = some x := by
  unfold lastRow
  rw [← List.dropLast_append_getLast hne, List.foldl_append]
  exact ⟨_, rfl⟩

/-- The entries of the rows are balanced exactly if every row keeps its records. -/
theorem balanced_rowEntries_iff (c : DramAddressConverter) (bank : Nat) (asserted : Bool) (rowErrors : RowErrors) :
    ∀ (decodedRow : Option Int) (total : Option Nat), (∀ p ∈ rowErrors, ∀ e ∈ p.2, e.value ≠ e.expected) →
    (∀ t, total = some t → 0 < t) →
    ((∃ entries, rowEntries c bank asserted decodedRow total rowErrors = some entries ∧
      ∀ q ∈ entries, Balanced q.2) ↔
        ∀ p ∈ rowErrors, Kept c bank p ∧ (asserted = true → InRow c bank p.1 p.2)) := by
  induction rowErrors with
  | nil =>
    intro decodedRow total _ _
    exact ⟨fun _ => by simp, fun _ => ⟨[], rfl, by simp⟩⟩
  | cons p rest ih =>
    intro decodedRow total hdiffer hpos
    obtain ⟨row, errors⟩ := p
    obtain ⟨hfirst, hothers⟩ := List.forall_mem_cons.mp hdiffer
    rw [List.forall_mem_cons]
    by_cases hin : asserted = true → InRow c bank row errors
    · by_cases hne : errors = []
      · -- the row has no flips and the number of another row
        subst hne
        refine ⟨fun hall => ?_, fun hall => absurd rfl hall.1.1.1⟩
        obtain ⟨entries, hentries, hbal⟩ := hall
        obtain ⟨x, t, entries', -, ht, rfl⟩ := exists_of_rowEntries_nil_cons hentries
        have hzero : (0 : Nat) = t := hbal _ List.mem_cons_self
        have ht' := hpos t ht
        omega
      · obtain ⟨x, hx⟩ : ∃ x, lastRow c bank row decodedRow errors = some x := exists_lastRow decodedRow hne
        have hnext : ∀ t, some (flips errors) = some t → 0 < t := by
          intro t heq
          cases heq
          exact flips_pos hfirst hne
        rw [exists_rowEntries_cons_iff hin hne hx, ← ih (some x) (some (flips errors)) hothers hnext]
        constructor
        · intro hall
          obtain ⟨entries, hentries, hbal⟩ := hall
          obtain ⟨hbal, hrest⟩ := List.forall_mem_cons.mp hbal
          exact ⟨⟨⟨hne, (balanced_iff hfirst).mp hbal⟩, hin⟩, entries, hentries, hrest⟩
        · intro hall
          obtain ⟨⟨⟨-, hnodup⟩, -⟩, entries, hentries, hrest⟩ := hall
          exact ⟨entries, hentries, List.forall_mem_cons.mpr ⟨(balanced_iff hfirst).mpr hnodup, hrest⟩⟩
    · refine ⟨fun hall => ?_, fun hall => absurd hall.1.2 hin⟩
      obtain ⟨entries, hentries, -⟩ := hall
      rw [rowEntries, if_neg hin] at hentries
      cases hentries

end Balance

/-! ## The logs -/

/-- A call of the generator logs the iteration, and every entry that it writes is balanced. -/
def LogsFlips (g : LogGenerator) (call : LogState → RowErrors → Py LogState) (st : LogState) (rowErrors : RowErrors) :
    Prop :=
  ∃ writes v st', logWrites g st rowErrors = .ok (writes, v) ∧ (∀ w ∈ writes, Balanced w.2) ∧
    call st rowErrors = .ok st' ∧ st'.errSummary = st.errSummary ++ [Dictionary.assign writes]

/-- The summary of the script is returned, with balanced entries. -/
def DisplaysFlips (r : RowHammer) (cache : Cache) (rowErrors : RowErrors) : Prop :=
  ∃ errDict cache', r.displayErrors true cache rowErrors = .ok (some errDict, cache') ∧ ∀ q ∈ errDict, Balanced q.2

section Logs
variable {rowErrors : RowErrors}

/-- A call that appends the dictionary of the assignments logs as much as the assignments do. -/
theorem logsFlips_iff_writes {g : LogGenerator} {call : LogState → RowErrors → Py LogState} {st : LogState}
    (hcall : ∀ writes v, logWrites g st rowErrors = .ok (writes, v) →
      ∃ st', call st rowErrors = .ok st' ∧ st'.errSummary = st.errSummary ++ [Dictionary.assign writes]) :
    LogsFlips g call st rowErrors ↔
      ∃ writes v, logWrites g st rowErrors = .ok (writes, v) ∧ ∀ w ∈ writes, Balanced w.2 := by
  constructor
  · intro h
    obtain ⟨writes, v, st', hw, hbal, -⟩ := h
    exact ⟨writes, v, hw, hbal⟩
  · intro h
    obtain ⟨writes, v, hw, hbal⟩ := h
    obtain ⟨st', hst', hsum⟩ := hcall writes v hw
    exact ⟨writes, v, st', hw, hbal, hst', hsum⟩

theorem processErrors_of_writes {g : LogGenerator} (hlog : g.logDir = true) {st : LogState}
    {writes : List (Nat × RowEntry)} {v : EntryVars} (hw : logWrites g st rowErrors = .ok (writes, v)) :
    LoggedRowList.processErrors g st rowErrors =
      .ok ⟨st.iteration + 1, st.errSummary ++ [Dictionary.assign writes], v.cache⟩ := by
  have hw' : logWrites g { st with iteration := st.iteration + 1 } rowErrors = .ok (writes, v) := hw
  unfold LoggedRowList.processErrors logErrors
  dsimp only
  rw [if_pos hlog, hw']
  rfl

theorem updateLog_of_writes {g : LogGenerator} {st : LogState} {writes : List (Nat × RowEntry)} {v : EntryVars}
    (hw : logWrites g st rowErrors = .ok (writes, v)) : Idle.updateLog g st rowErrors =
      .ok ⟨st.iteration, st.errSummary ++ [Dictionary.assign writes], v.cache⟩ := by
  unfold Idle.updateLog logErrors
  rw [hw]
  rfl

/-- **The error logs.** For every dictionary of records, `process_errors` of the logged row lists and `update_log` of
the idle payloads write an entry for every row that lists as many flips as it counts exactly if every row has records,
no two of them decode to the same column, and all decode to the row; and the summary of `display_errors` has such
entries exactly if every row has records and no two of them decode to the same column. -/
theorem log_balanced_iff (settings : Settings) (c : DramAddressConverter) (rowErrors : RowErrors)
    (hprod : Produced settings c rowErrors) :
    (∀ g : LogGenerator, g.settings = settings → g.converter = c → g.logDir = true → g.bank < 2 ^ c.bankbits →
      ∀ st, Reached settings c g.bank st.cache →
        (LogsFlips g (LoggedRowList.processErrors g) st rowErrors ↔
          ∀ p ∈ rowErrors, Kept c g.bank p ∧ InRow c g.bank p.1 p.2) ∧
        (LogsFlips g (Idle.updateLog g) st rowErrors ↔
          ∀ p ∈ rowErrors, Kept c g.bank p ∧ InRow c g.bank p.1 p.2)) ∧
    ∀ r : RowHammer, r.settings = settings → r.converter = c → r.bank < 2 ^ c.bankbits →
      ∀ cache, Reached settings c r.bank cache →
        (DisplaysFlips r cache rowErrors ↔ ∀ p ∈ rowErrors, Kept c r.bank p) := by
  have hrec := hprod.recorded
  refine ⟨fun g hs hconv hlog hb st hc => ?_, fun r hs hconv hb cache hc => ?_⟩
  · subst hs hconv
    have hwrites := exists_assignments_iff true g.rowMapping.physicalToLogical g.load_eq (hrec.addressable hb) hc
      fun writes => ∀ w ∈ writes, Balanced w.2
    have hentries := balanced_rowEntries_iff g.converter g.bank true rowErrors none none hrec.differ (by simp)
    simp only [List.forall_mem_map, hentries, forall_const] at hwrites
    rw [logsFlips_iff_writes fun writes v hw => ⟨_, processErrors_of_writes hlog hw, rfl⟩,
      logsFlips_iff_writes fun writes v hw => ⟨_, updateLog_of_writes hw, rfl⟩]
    exact ⟨hwrites, hwrites⟩
  · subst hs hconv
    unfold DisplaysFlips
    rw [RowHammer.exists_displayErrors_iff (hrec.addressable hb) hrec.nodup hc]
    simp only [List.forall_mem_map]
    rw [balanced_rowEntries_iff r.converter r.bank false rowErrors none none hrec.differ (by simp)]
    simp

end Logs

/-! ## One bank and two banks -/

/-- A generator with a log, for a DDR3 module. -/
def ddr3Log : LogGenerator where
  settings := ddr3Settings
  converter := ddr3Converter
  load_eq := ddr3Settings_load
  rowMapping := .TrivialRowMapping
  bank := 0
  logDir := true

def startLog : LogState := ⟨0, [], fun _ => none⟩

/-- What the errors of the first call are recorded as. -/
theorem produced_ddr3 {errors : List BistError} {rowErrors : RowErrors} (hdiffer : ∀ e ∈ errors, e.data ≠ e.expected)
    (h : Dictionary.collect (errors.map (recorded ddr3Converter (portView ddr3Converter 7)
      (history (fun _ => errors) 1))) = rowErrors) :
    Produced ddr3Settings ddr3Converter rowErrors := by
  have hresult : resultOf ddr3Settings ddr3Converter 0x40000000 (fun _ => errors) 0 = .ok rowErrors := by
    rw [resultOf_eq _ 0 ddr3Settings_load (portView_of (a := 7) ddr3Settings_load rfl (by decide)), h]
  exact produced_of_resultOf hresult hdiffer

/-- The errors of one bank are logged completely. -/
theorem log_balanced_iff_oneBank : LogsFlips ddr3Log (LoggedRowList.processErrors ddr3Log) startLog
      [(0, [⟨4, 1, 0⟩, ⟨8, 1, 0⟩])] ∧
    DisplaysFlips RowHammer.firstRow (fun _ => none) [(0, [⟨4, 1, 0⟩, ⟨8, 1, 0⟩])] := by
  have hprod : Produced ddr3Settings ddr3Converter [(0, [⟨4, 1, 0⟩, ⟨8, 1, 0⟩])] :=
    produced_ddr3 (show ∀ e ∈ oneBank, e.data ≠ e.expected by decide) (by decide +kernel)
  obtain ⟨hlog, hdisplay⟩ := log_balanced_iff ddr3Settings ddr3Converter _ hprod
  have hkept : ∀ p ∈ [((0 : Nat), [(⟨4, 1, 0⟩ : RowError), ⟨8, 1, 0⟩])], Kept ddr3Converter 0 p ∧
      InRow ddr3Converter 0 p.1 p.2 := by
    intro p hp
    rw [List.mem_singleton.mp hp]
    exact ⟨⟨by simp, by decide +kernel⟩, by decide +kernel⟩
  exact ⟨(hlog ddr3Log rfl rfl rfl (by decide) startLog .empty).1.mpr hkept,
    (hdisplay RowHammer.firstRow rfl rfl (by decide) _ .empty).mpr fun p hp => (hkept p hp).1⟩

/-- Of the flips in column 0 of row 0 in the banks 0 and 1, only the second is logged. -/
theorem second_bank_overwrites :
    Produced ddr3Settings ddr3Converter [(0, [⟨0, 1, 0⟩, ⟨512, 1, 0⟩])] ∧
    (∃ v, logWrites ddr3Log startLog [(0, [⟨0, 1, 0⟩, ⟨512, 1, 0⟩])] = .ok ([(0, ⟨0, [(0, [0])], 2⟩)], v)) ∧
    ¬ LogsFlips ddr3Log (LoggedRowList.processErrors ddr3Log) startLog [(0, [⟨0, 1, 0⟩, ⟨512, 1, 0⟩])] ∧
    ¬ LogsFlips ddr3Log (Idle.updateLog ddr3Log) startLog [(0, [⟨0, 1, 0⟩, ⟨512, 1, 0⟩])] ∧
    ¬ DisplaysFlips RowHammer.firstRow (fun _ => none) [(0, [⟨0, 1, 0⟩, ⟨512, 1, 0⟩])] := by
  have hprod : Produced ddr3Settings ddr3Converter [(0, [⟨0, 1, 0⟩, ⟨512, 1, 0⟩])] :=
    produced_ddr3 (show ∀ e ∈ twoBanks, e.data ≠ e.expected by decide) (by decide +kernel)
  have hrec := hprod.recorded
  have hentries : ∀ asserted, rowEntries ddr3Converter 0 asserted none none [(0, [⟨0, 1, 0⟩, ⟨512, 1, 0⟩])] =
      some [(0, ⟨0, [(0, [0])], 2⟩)] := by
    decide +kernel
  have hunbalanced : ¬ Balanced ⟨0, [(0, [0])], 2⟩ := by decide
  obtain ⟨writes, v, hwrites, rfl⟩ := (exists_assignments_iff true ddr3Log.rowMapping.physicalToLogical ddr3Log.load_eq
    (hrec.addressable (show 0 < 2 ^ ddr3Converter.bankbits by decide)) .empty (· = [(0, ⟨0, [(0, [0])], 2⟩)])).mpr
      ⟨_, hentries true, rfl⟩
  have hlog : logWrites ddr3Log startLog [(0, [⟨0, 1, 0⟩, ⟨512, 1, 0⟩])] = .ok ([(0, ⟨0, [(0, [0])], 2⟩)], v) := hwrites
  have hnot : ∀ call, ¬ LogsFlips ddr3Log call startLog [(0, [⟨0, 1, 0⟩, ⟨512, 1, 0⟩])] := by
    intro call h
    obtain ⟨writes, v', -, hw, hbal, -⟩ := h
    rw [hlog] at hw
    cases hw
    exact hunbalanced (hbal _ List.mem_cons_self)
  refine ⟨hprod, ⟨v, hlog⟩, hnot _, hnot _, fun h => ?_⟩
  obtain ⟨entries, hsome, hbal⟩ := (RowHammer.exists_displayErrors_iff
    (hrec.addressable (show 0 < 2 ^ ddr3Converter.bankbits by decide)) hrec.nodup .empty _).mp h
  rw [show rowEntries RowHammer.firstRow.converter RowHammer.firstRow.bank false none none _ = _ from hentries false]
    at hsome
  cases hsome
  exact hunbalanced (hbal _ List.mem_cons_self)

end RowhammerTester.Playbook
