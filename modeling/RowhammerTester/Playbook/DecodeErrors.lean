import RowhammerTester.Dictionary
import RowhammerTester.Playbook.RowErrors
import RowhammerTester.Scripts.AddressConverter
import RowhammerTester.Scripts.MemTest.Script

/-!
# `decode_errors`

The playbook sorts the errors that `hw_memtest` has found by their rows, the words of a row counted from its column 0.
The bus addresses of a row are kept in a dictionary that lives as long as the program.

* `Settings`, `load` : the geometry; `addressesPerRow`, `decodeErrors` : the functions, with the dictionary as a state;
* `ownEntry`, `ownEntries` : what an error is to be recorded as, from the error alone;
* `cacheAfter`, `resultOf` : a history of calls; `RecordsOwn` : a call records its errors so, one after the other;
* `BusView` : the banks and rows that the bus addresses of the errors decode to, and the shift of the addresses;
  `portView` : with a port of `2 ^ a` bits, 32 or more, those of the DMA addresses;
* `CountedFromOwn` : the bus has the error in its own row, and counts it from the same word as its own bank does;
* `resultOf_eq_iff` : the calls record the errors so exactly if all errors are counted so; behind a port of `2 ^ a` bits
  exactly if no row has errors in two banks, since the dictionary knows rows only: all errors of a row are counted from
  the bank of the first.
-/

namespace RowhammerTester.Playbook
open RowhammerTester.Scripts DramAddressConverter RowhammerTester.Gateware

/-- The settings that `decode_errors` and the converter read. -/
structure Settings where
  colbits : Nat
  rowbits : Nat
  bankbits : Nat
  nphases : Nat
  dfiDatabits : Nat
  /-- `nphases` for SDR, else LiteDRAM's `burst_lengths[memtype]`. -/
  burstLength : Nat

/-- `DRAMAddressConverter.load`. -/
def Settings.load (settings : Settings) : Py DramAddressConverter := do
  let addressAlign ← Encoder.log2Int settings.burstLength
  return { colbits := settings.colbits
           rowbits := settings.rowbits
           bankbits := settings.bankbits
           addressAlign := addressAlign
           dramPortWidth := settings.nphases * settings.dfiDatabits }

/-- `dma_data_bytes`. -/
def Settings.dmaDataBytes (settings : Settings) : Nat := settings.dfiDatabits * settings.nphases / 8

/-- `_addresses_per_row`. -/
abbrev Cache := Nat → Option (List Int)

section Functions
variable (settings : Settings) (c : DramAddressConverter)

def addressesPerRow (cache : Cache) (bank row : Nat) : Py (List Int × Cache) :=
  match cache row with
  | some addresses => .ok (addresses, cache)
  | none => do
    let addresses ← (List.range (2 ^ settings.colbits)).mapM fun col => c.encodeBus bank row col 0x40000000 32
    return (addresses, Function.update cache row (some addresses))

variable (mainRamBase : Int)

/-- A round of the loop of `decode_errors`. -/
def decodeError (st : RowErrors × Cache) (e : BistError) : Py (RowErrors × Cache) := do
  let addr := mainRamBase + (e.offset * settings.dmaDataBytes : Nat)
  let (bank, row, _) ← c.decodeBus addr 0x40000000 32
  let (addresses, cache) ← addressesPerRow settings c st.2 bank.toNat row.toNat
  let baseAddr ← Py.min addresses
  return (Dictionary.append st.1 row.toNat ⟨(addr - baseAddr).fdiv 4, e.data, e.expected⟩, cache)

/-- `decode_errors`, with the dictionary before and after. -/
def decodeErrors (cache : Cache) (errors : List BistError) : Py (RowErrors × Cache) :=
  errors.foldlM (decodeError settings c mainRamBase) ([], cache)

/-! ## What the errors are to be recorded as -/

/-- The row of an error and its entry, counted from column 0 of its own bank and row. -/
def ownEntry (e : BistError) : Py (Nat × RowError) := do
  let addr := mainRamBase + (e.offset * settings.dmaDataBytes : Nat)
  let (bank, row, _) := c.decodeDma e.offset
  let columnZero ← c.encodeBus bank.toNat row.toNat 0 mainRamBase 32
  return (row.toNat, ⟨(addr - columnZero).fdiv 4, e.data, e.expected⟩)

def ownEntries (errors : List BistError) : Py RowErrors := do
  let entries ← errors.mapM (ownEntry settings c mainRamBase)
  return Dictionary.collect entries

/-! ## Histories -/

variable (calls : Nat → List BistError)

/-- The dictionary after `t` calls. -/
def cacheAfter : Nat → Py Cache
  | 0 => .ok fun _ => none
  | t + 1 => do
    let before ← cacheAfter t
    let (_, after) ← decodeErrors settings c mainRamBase before (calls t)
    return after

/-- What call `t` returns. -/
def resultOf (t : Nat) : Py RowErrors := do
  let before ← cacheAfter settings c mainRamBase calls t
  let (rowErrors, _) ← decodeErrors settings c mainRamBase before (calls t)
  return rowErrors

/-- What call `t` has recorded after the rounds of its loop for `done`. -/
def recordedAfter (t : Nat) (done : List BistError) : Py RowErrors := do
  let before ← cacheAfter settings c mainRamBase calls t
  let (rowErrors, _) ← decodeErrors settings c mainRamBase before done
  return rowErrors

/-- After every round of its loop call `t` has recorded the errors as it should. -/
def RecordsOwn (t : Nat) : Prop :=
  ∀ done, done <+: calls t → ∃ rowErrors, ownEntries settings c mainRamBase done = .ok rowErrors ∧
    recordedAfter settings c mainRamBase calls t done = .ok rowErrors

end Functions

/-- The bank of an error. -/
def bankOf (c : DramAddressConverter) (e : BistError) : Nat := (c.decodeDma e.offset).1.toNat

/-- The row of an error. -/
def rowOf (c : DramAddressConverter) (e : BistError) : Nat := (c.decodeDma e.offset).2.1.toNat

section Locations
variable {c : DramAddressConverter} {a : Nat} {e e' : BistError}

theorem decodeDma_offset (c : DramAddressConverter) (e : BistError) :
    ∃ col : Nat, c.decodeDma e.offset = ((bankOf c e : Int), (rowOf c e : Int), (col : Int)) := by
  refine ⟨(e.offset * 2 ^ c.addressAlign) % 2 ^ c.colbits, ?_⟩
  unfold bankOf rowOf
  rw [decodeDma_eq, decode_natCast]
  rfl

theorem inRange_of (e : BistError) {col : Nat} (h : col < 2 ^ c.colbits) :
    c.InRange (bankOf c e) (rowOf c e) col := by
  refine ⟨?_, ?_, h⟩
  · unfold bankOf
    rw [decodeDma_eq, decode_natCast]
    exact Nat.mod_lt _ (Nat.two_pow_pos _)
  · unfold rowOf
    rw [decodeDma_eq, decode_natCast]
    exact Nat.mod_lt _ (Nat.two_pow_pos _)

/-- Column 0 of an error's bank and row as a number. -/
def columnZero (c : DramAddressConverter) (e : BistError) : Nat := c.flat (bankOf c e) (rowOf c e) 0

theorem columnZero_eq : columnZero c e =
    2 ^ c.colbits * (e.offset * 2 ^ c.addressAlign / 2 ^ c.colbits % 2 ^ (c.bankbits + c.rowbits)) := by
  unfold columnZero flat bankOf rowOf
  rw [decodeDma_eq, decode_natCast, pow_add, Nat.mod_mul]
  simp only [Int.toNat_natCast, Nat.zero_add]

theorem two_pow_dvd_mod {i j x : Nat} (h : 2 ^ i ∣ x) : 2 ^ i ∣ x % 2 ^ j := by
  rcases Nat.le_total i j with hij | hji
  · exact (Nat.dvd_mod_iff (pow_dvd_pow 2 hij)).mpr h
  · rw [Nat.mod_eq_zero_of_dvd ((pow_dvd_pow 2 hji).trans h)]
    exact Nat.dvd_zero _

/-- Rows start with a DMA word. -/
theorem two_pow_dvd_columnZero : 2 ^ c.addressAlign ∣ columnZero c e := by
  rw [columnZero_eq]
  rcases Nat.le_total c.addressAlign c.colbits with hle | hle
  · exact (pow_dvd_pow 2 hle).mul_right _
  · obtain ⟨d, hd⟩ := Nat.exists_eq_add_of_le hle
    rw [hd, pow_add, Nat.mul_left_comm, Nat.mul_div_cancel_left _ (Nat.two_pow_pos _)]
    exact Nat.mul_dvd_mul_left _ (two_pow_dvd_mod (Nat.dvd_mul_left _ _))

theorem columnZero_inj (hrow : rowOf c e = rowOf c e') :
    columnZero c e = columnZero c e' ↔ bankOf c e = bankOf c e' := by
  constructor
  · intro h
    exact (flat_injective (inRange_of e (Nat.two_pow_pos _)) (inRange_of e' (Nat.two_pow_pos _)) h).1
  · intro h
    unfold columnZero
    rw [h, hrow]

variable (hport : c.dramPortWidth = 2 ^ a) (ha : 5 ≤ a)
include hport ha

/-- The bus address of an error has the location of its DMA address. -/
theorem decodeBus_offset (base : Int) (w : Nat) :
    c.decodeBus (base + (w * 2 ^ (a - 3) : Nat)) base 32 = .ok (c.decodeDma w) := by
  rw [show (32 : Nat) = 2 ^ 5 from rfl, decodeDma_eq]
  rcases Nat.le_total (3 + c.addressAlign) a with hle | hle
  · obtain ⟨s, hs⟩ := Nat.exists_eq_add_of_le hle
    rw [decodeBus_eq base _ hport (by decide) ha hs, show a - 3 = c.addressAlign + s by omega, pow_add, ← Nat.mul_assoc,
      Nat.mul_div_cancel _ (Nat.two_pow_pos s)]
  · obtain ⟨k, hk⟩ := Nat.exists_eq_add_of_le hle
    rw [decodeBus_eq_of_neg base _ hport (by decide) ha hk, Nat.mul_assoc, ← pow_add,
      show a - 3 + k = c.addressAlign by omega]

omit hport in
/-- Locations that start a DMA word are as many words from the base as their number says. -/
theorem shiftBy_of_dvd {n : Nat} (h : 2 ^ c.addressAlign ∣ n) :
    shiftBy (n : Int) ((a : Int) - 3 - c.addressAlign) = (n / 2 ^ c.addressAlign * 2 ^ (a - 3) : Nat) := by
  obtain ⟨m, rfl⟩ := h
  rw [Nat.mul_div_cancel_left _ (Nat.two_pow_pos _)]
  rcases Nat.le_total (3 + c.addressAlign) a with hle | hle
  · obtain ⟨s, hs⟩ := Nat.exists_eq_add_of_le hle
    rw [show (a : Int) - 3 - c.addressAlign = (s : Nat) by omega, shiftBy_left,
      show a - 3 = c.addressAlign + s by omega, pow_add]
    congr 1
    ring
  · obtain ⟨k, hk⟩ := Nat.exists_eq_add_of_le hle
    rw [show (a : Int) - 3 - c.addressAlign = -(k : Int) by omega, shiftBy_right,
      show c.addressAlign = a - 3 + k by omega, pow_add, Nat.mul_comm, ← Nat.mul_assoc,
      Nat.mul_div_cancel _ (Nat.two_pow_pos k)]

end Locations

/-! ## The view of the bus -/

/-- The banks and rows of the errors as the bus has them, the shift from locations to bus addresses, and the bytes of a
DMA word. -/
@[ext] structure BusView where
  bank : BistError → Nat
  row : BistError → Nat
  shift : Int
  bytes : Nat

/-- The view of a converter. -/
structure BusView.Of (settings : Settings) (c : DramAddressConverter) (v : BusView) : Prop where
  shift : c.getBusShift 32 = .ok v.shift
  bytes : settings.dmaDataBytes = v.bytes
  decode : ∀ e : BistError, ∃ col : Nat,
    c.decode (shiftBy (e.offset * v.bytes : Nat) (-v.shift)) = ((v.bank e : Int), (v.row e : Int), (col : Int))

section View
variable {settings : Settings} {c : DramAddressConverter} {v v' : BusView} {a : Nat}

/-- Every field of an address has its width. -/
theorem exists_decode (c : DramAddressConverter) (address : Int) : ∃ bank row col : Nat,
    c.decode address = ((bank : Int), (row : Int), (col : Int)) ∧ bank < 2 ^ c.bankbits ∧ row < 2 ^ c.rowbits := by
  obtain ⟨row, hrow, hrlt⟩ := extract_lt address c.rowbits (c.bankbits + c.colbits)
  obtain ⟨bank, hbank, hblt⟩ := extract_lt address c.bankbits c.colbits
  obtain ⟨col, hcol, -⟩ := extract_lt address c.colbits 0
  refine ⟨bank, row, col, ?_, hblt, hrlt⟩
  unfold decode
  rw [hrow, hbank, hcol]

/-- A converter with a bus shift has a view. -/
theorem exists_busView {shift : Int} (h : c.getBusShift 32 = .ok shift) : ∃ v : BusView, v.Of settings c := by
  choose bank row col hdecode _ _ using fun e : BistError =>
    exists_decode c (shiftBy (e.offset * settings.dmaDataBytes : Nat) (-shift))
  exact ⟨⟨bank, row, shift, settings.dmaDataBytes⟩, h, rfl, fun e => ⟨col e, hdecode e⟩⟩

theorem BusView.Of.unique (h : v.Of settings c) (h' : v'.Of settings c) : v = v' := by
  have hshift : v.shift = v'.shift := Except.ok.inj (h.shift.symm.trans h'.shift)
  have hbytes : v.bytes = v'.bytes := h.bytes.symm.trans h'.bytes
  have hloc : ∀ e, v.bank e = v'.bank e ∧ v.row e = v'.row e := by
    intro e
    obtain ⟨col, hcol⟩ := h.decode e
    obtain ⟨col', hcol'⟩ := h'.decode e
    rw [hshift, hbytes, hcol'] at hcol
    simp only [Prod.mk.injEq, Nat.cast_inj] at hcol
    exact ⟨hcol.1.symm, hcol.2.1.symm⟩
  ext e
  · exact (hloc e).1
  · exact (hloc e).2
  · exact hshift
  · exact hbytes

theorem BusView.Of.inRange (h : v.Of settings c) (e : BistError) {col : Nat} (hcol : col < 2 ^ c.colbits) :
    c.InRange (v.bank e) (v.row e) col := by
  obtain ⟨_, hdecode⟩ := h.decode e
  obtain ⟨bank, row, _, hdecode', hb, hr⟩ := exists_decode c (shiftBy (e.offset * v.bytes : Nat) (-v.shift))
  rw [hdecode'] at hdecode
  simp only [Prod.mk.injEq, Nat.cast_inj] at hdecode
  exact ⟨hdecode.1 ▸ hb, hdecode.2.1 ▸ hr, hcol⟩

/-- The view behind a port of `2 ^ a` bits: that of the DMA addresses. -/
def portView (c : DramAddressConverter) (a : Nat) : BusView :=
  { bank := bankOf c, row := rowOf c, shift := (a : Int) - 3 - c.addressAlign, bytes := 2 ^ (a - 3) }

theorem load_eq (hload : settings.load = .ok c) :
    c.colbits = settings.colbits ∧ c.dramPortWidth = settings.nphases * settings.dfiDatabits := by
  obtain ⟨k, -, h⟩ := Py.bind_eq_ok.mp hload
  cases h
  exact ⟨rfl, rfl⟩

theorem dmaDataBytes_eq (hwidth : settings.nphases * settings.dfiDatabits = 2 ^ a) (ha : 5 ≤ a) :
    settings.dmaDataBytes = 2 ^ (a - 3) := by
  unfold Settings.dmaDataBytes
  rw [Nat.mul_comm, hwidth, show (8 : Nat) = 2 ^ 3 from rfl, Nat.pow_div (by omega) (by decide)]

theorem portView_of (hload : settings.load = .ok c) (hwidth : settings.nphases * settings.dfiDatabits = 2 ^ a)
    (ha : 5 ≤ a) : (portView c a).Of settings c := by
  have hport : c.dramPortWidth = 2 ^ a := (load_eq hload).2.trans hwidth
  have hshift : c.getBusShift 32 = .ok ((a : Int) - 3 - c.addressAlign) :=
    getBusShift_eq (b := 5) hport (by decide) ha
  refine ⟨hshift, dmaDataBytes_eq hwidth ha, fun e => ?_⟩
  obtain ⟨col, hdma⟩ := decodeDma_offset c e
  have hbus : c.decodeBus (0 + (e.offset * 2 ^ (a - 3) : Nat)) 0 32 = _ := decodeBus_of_shift hshift _
  rw [decodeBus_offset hport ha, Except.ok.injEq] at hbus
  exact ⟨col, hbus.symm.trans hdma⟩

end View

/-! ## The dictionary -/

theorem shiftBy_mono {n m : Nat} (h : n ≤ m) (shift : Int) : shiftBy (n : Int) shift ≤ shiftBy (m : Int) shift := by
  unfold shiftBy
  split
  · rw [← Int.natCast_shiftLeft, ← Int.natCast_shiftLeft, Nat.shiftLeft_eq, Nat.shiftLeft_eq]
    exact_mod_cast Nat.mul_le_mul_right _ h
  · rw [← Int.natCast_shiftRight, ← Int.natCast_shiftRight, Nat.shiftRight_eq_div_pow, Nat.shiftRight_eq_div_pow]
    exact_mod_cast Nat.div_le_div_right h

section Cached
variable (c : DramAddressConverter) (v : BusView)

/-- The bus address of a location. -/
def busAddress (bank row col : Nat) : Int := 0x40000000 + shiftBy (c.flat bank row col) v.shift

/-- The bus addresses of the bank and row of an error. -/
def rowAddresses (e : BistError) : List Int :=
  (List.range (2 ^ c.colbits)).map fun col => busAddress c v (v.bank e) (v.row e) col

/-- The dictionary after the errors `hist`. -/
def cacheOf (hist : List BistError) : Cache := Dictionary.filled (hist.map fun e => (v.row e, rowAddresses c v e))

/-- The first error in the row of `e`. -/
def first (hist : List BistError) (e : BistError) : BistError := (hist.find? fun e' => v.row e' = v.row e).getD e

/-- The entry of `e`, counted from column 0 of a bank and row. -/
def entryFrom (bank row : Nat) (e : BistError) : RowError :=
  ⟨(0x40000000 + (e.offset * v.bytes : Nat) - busAddress c v bank row 0).fdiv 4, e.data, e.expected⟩

/-- What is recorded of `e` after the errors `hist`. -/
def recorded (hist : List BistError) (e : BistError) : Nat × RowError :=
  (v.row e, entryFrom c v (v.bank (first v hist e)) (v.row e) e)

/-- What is to be recorded of `e`. -/
def own (e : BistError) : Nat × RowError := (rowOf c e, entryFrom c v (bankOf c e) (rowOf c e) e)

end Cached

/-- The bus address of `e` has the row of its DMA address, and the error is as many words behind column 0 of this row in
the bank, as the bus has it, of the first error of the row as in its own bank. -/
def CountedFromOwn (settings : Settings) (c : DramAddressConverter) (hist : List BistError) (e : BistError) : Prop :=
  ∃ v : BusView, v.Of settings c ∧ v.row e = rowOf c e ∧
    entryFrom c v (v.bank (first v hist e)) (rowOf c e) e = entryFrom c v (bankOf c e) (rowOf c e) e

section Cached
variable {c : DramAddressConverter} {v : BusView} {e e' : BistError} {hist : List BistError}

theorem row_first : v.row (first v hist e) = v.row e := by
  unfold first
  cases h : hist.find? fun e' => v.row e' = v.row e with
  | none => rfl
  | some e₀ => simpa using List.find?_some h

theorem first_append_cons (rest : List BistError) : first v (hist ++ e :: rest) e = first v hist e := by
  unfold first
  rw [List.find?_append, List.find?_cons_of_pos (by simp)]
  cases hist.find? fun e' => v.row e' = v.row e with
  | none => rfl
  | some e₀ => rfl

/-- The first error of a row is one of the errors. -/
theorem first_mem (h : e ∈ hist) : first v hist e ∈ hist := by
  unfold first
  cases hfind : hist.find? fun e' => v.row e' = v.row e with
  | none => exact h
  | some e₀ => exact List.mem_of_find?_eq_some hfind

theorem exists_find_of_mem (h : e ∈ hist) : ∃ e₀, hist.find? (fun e' => v.row e' = v.row e) = some e₀ := by
  rw [← Option.isSome_iff_exists, List.find?_isSome]
  exact ⟨e, h, by simp⟩

theorem first_congr (h' : e' ∈ hist) (hrow : v.row e = v.row e') : first v hist e = first v hist e' := by
  obtain ⟨e₀, he₀⟩ := exists_find_of_mem (v := v) h'
  unfold first
  rw [hrow, he₀]
  rfl

theorem first_append_of_mem (h : e ∈ hist) (rest : List BistError) : first v (hist ++ rest) e = first v hist e := by
  obtain ⟨e₀, he₀⟩ := exists_find_of_mem (v := v) h
  unfold first
  rw [List.find?_append, he₀]
  rfl

theorem cacheOf_apply (row : Nat) :
    cacheOf c v hist row = (hist.find? fun e => v.row e = row).map (rowAddresses c v) := by
  unfold cacheOf Dictionary.filled
  rw [List.find?_map, Option.map_map]
  rfl

theorem cacheOf_concat :
    cacheOf c v (hist ++ [e]) = Dictionary.fill (cacheOf c v hist) (v.row e) (rowAddresses c v e) := by
  unfold cacheOf
  rw [Dictionary.fill_filled, List.map_append]
  rfl

theorem min_rowAddresses : Py.min (rowAddresses c v e) = .ok (busAddress c v (v.bank e) (v.row e) 0) := by
  have hmin : (rowAddresses c v e).min? = some (busAddress c v (v.bank e) (v.row e) 0) := by
    rw [List.min?_eq_some_iff]
    refine ⟨List.mem_map_of_mem (List.mem_range.mpr (Nat.two_pow_pos _)), ?_⟩
    intro address hmem
    obtain ⟨col, -, rfl⟩ := List.mem_map.mp hmem
    have hle : c.flat (v.bank e) (v.row e) 0 ≤ c.flat (v.bank e) (v.row e) col := by
      unfold flat
      omega
    exact Int.add_le_add_left (shiftBy_mono hle _) _
  unfold Py.min
  rw [hmin]

section Calls
variable {settings : Settings} (hload : settings.load = .ok c) (hv : v.Of settings c)
include hload hv

/-- The dictionary answers with the bank of the first error of the row. -/
theorem addressesPerRow_eq : addressesPerRow settings c (cacheOf c v hist) (v.bank e) (v.row e) =
    .ok (rowAddresses c v (first v hist e), cacheOf c v (hist ++ [e])) := by
  have hcol := (load_eq hload).1
  have hcache : cacheOf c v hist (v.row e) = _ := cacheOf_apply (v.row e)
  unfold addressesPerRow first
  rw [cacheOf_concat]
  cases h : hist.find? fun e' => v.row e' = v.row e with
  | some e₀ =>
    rw [h, Option.map_some] at hcache
    rw [Dictionary.fill_of_some hcache, hcache]
    rfl
  | none =>
    rw [h, Option.map_none] at hcache
    rw [Dictionary.fill_of_none hcache, hcache, ← hcol]
    have hmap : (List.range (2 ^ c.colbits)).mapM (fun col => c.encodeBus (v.bank e) (v.row e) col 0x40000000 32) =
        .ok (rowAddresses c v e) := Py.mapM_eq_ok fun col hmem =>
      encodeBus_eq_ok.mpr ⟨v.shift, hv.shift, hv.inRange e (List.mem_range.mp hmem), rfl⟩
    dsimp only
    rw [hmap]
    rfl

theorem decodeError_eq (d : RowErrors) : decodeError settings c 0x40000000 (d, cacheOf c v hist) e =
    .ok (Dictionary.append d (recorded c v hist e).1 (recorded c v hist e).2, cacheOf c v (hist ++ [e])) := by
  obtain ⟨col, hdecode⟩ := hv.decode e
  unfold decodeError
  dsimp only
  rw [hv.bytes, decodeBus_of_shift hv.shift, hdecode]
  refine Py.bind_eq_ok.mpr ⟨_, rfl, ?_⟩
  dsimp only
  rw [Int.toNat_natCast, Int.toNat_natCast, addressesPerRow_eq hload hv]
  refine Py.bind_eq_ok.mpr ⟨_, rfl, ?_⟩
  refine Py.bind_eq_ok.mpr ⟨_, min_rowAddresses, ?_⟩
  rw [row_first]
  rfl

theorem decodeErrors_eq (errors : List BistError) (d : RowErrors) :
    errors.foldlM (decodeError settings c 0x40000000) (d, cacheOf c v hist) =
      .ok ((errors.map (recorded c v (hist ++ errors))).foldl (fun d p => Dictionary.append d p.1 p.2) d,
        cacheOf c v (hist ++ errors)) := by
  induction errors generalizing hist d with
  | nil => rw [List.append_nil]; rfl
  | cons e errors ih =>
    have hfirst : recorded c v (hist ++ e :: errors) e = recorded c v hist e := by
      unfold recorded
      rw [first_append_cons]
    rw [List.foldlM_cons, decodeError_eq hload hv, List.map_cons, List.foldl_cons, hfirst]
    have h := @ih (hist ++ [e]) (Dictionary.append d (recorded c v hist e).1 (recorded c v hist e).2)
    rw [List.append_assoc, List.singleton_append] at h
    exact h

omit hload in
theorem ownEntry_eq : ownEntry settings c 0x40000000 e = .ok (own c v e) := by
  obtain ⟨col, hdma⟩ := decodeDma_offset c e
  unfold ownEntry
  dsimp only
  rw [hv.bytes, hdma]
  dsimp only
  rw [Int.toNat_natCast, Int.toNat_natCast,
    encodeBus_eq_ok.mpr ⟨v.shift, hv.shift, inRange_of e (Nat.two_pow_pos _), rfl⟩]
  rfl

omit hload in
theorem ownEntries_eq (errors : List BistError) : ownEntries settings c 0x40000000 errors =
    .ok (Dictionary.collect (errors.map (own c v))) := by
  unfold ownEntries
  rw [Py.mapM_eq_ok fun e _ => ownEntry_eq hv]
  rfl

end Calls

/-! ## Histories of calls -/

section Histories
variable (calls : Nat → List BistError) (t : Nat)

/-- The errors of the first `t` calls. -/
def history : List BistError := (List.range t).flatMap calls

theorem history_succ : history calls (t + 1) = history calls t ++ calls t := by
  unfold history
  rw [List.range_succ, List.flatMap_append, List.flatMap_singleton]

theorem mem_history : e ∈ history calls t ↔ ∃ u < t, e ∈ calls u := by
  unfold history
  simp only [List.mem_flatMap, List.mem_range]

theorem history_prefix {t n : Nat} (h : t ≤ n) : history calls t <+: history calls n := by
  obtain ⟨d, rfl⟩ := Nat.exists_eq_add_of_le h
  unfold history
  rw [List.range_add, List.flatMap_append]
  exact List.prefix_append _ _

variable {settings : Settings} (hload : settings.load = .ok c) (hv : v.Of settings c)
include hload hv

theorem cacheAfter_eq : cacheAfter settings c 0x40000000 calls t = .ok (cacheOf c v (history calls t)) := by
  induction t with
  | zero => rfl
  | succ t ih =>
    rw [cacheAfter, ih, history_succ]
    refine Py.bind_eq_ok.mpr ⟨_, rfl, ?_⟩
    unfold decodeErrors
    rw [decodeErrors_eq hload hv]
    rfl

theorem recordedAfter_eq (done : List BistError) : recordedAfter settings c 0x40000000 calls t done =
    .ok (Dictionary.collect (done.map (recorded c v (history calls t ++ done)))) := by
  unfold recordedAfter decodeErrors
  rw [cacheAfter_eq calls t hload hv]
  refine Py.bind_eq_ok.mpr ⟨_, rfl, ?_⟩
  rw [decodeErrors_eq hload hv]
  rfl

theorem resultOf_eq : resultOf settings c 0x40000000 calls t =
    .ok (Dictionary.collect ((calls t).map (recorded c v (history calls (t + 1))))) := by
  rw [history_succ]
  exact recordedAfter_eq calls t hload hv (calls t)

/-- A call records its errors as it should exactly if it records each of them so. -/
theorem recordsOwn_iff_forall : RecordsOwn settings c 0x40000000 calls t ↔
    ∀ e ∈ calls t, recorded c v (history calls (t + 1)) e = own c v e := by
  rw [← Dictionary.forall_collect_eq_iff]
  unfold RecordsOwn
  refine forall₂_congr fun done hdone => ?_
  obtain ⟨rest, hrest⟩ := hdone
  have hrecorded : done.map (recorded c v (history calls t ++ done)) =
      done.map (recorded c v (history calls (t + 1))) := by
    refine List.map_congr_left fun e he => ?_
    unfold recorded
    rw [history_succ, ← hrest, ← List.append_assoc, first_append_of_mem (List.mem_append_right _ he)]
  rw [ownEntries_eq hv, recordedAfter_eq calls t hload hv, hrecorded]
  constructor
  · rintro ⟨rowErrors, hown, hres⟩
    exact Except.ok.inj (hres.trans hown.symm)
  · intro h
    exact ⟨_, rfl, congrArg Except.ok h⟩

theorem recordsOwn_iff : RecordsOwn settings c 0x40000000 calls t ↔
    ∀ e ∈ calls t, CountedFromOwn settings c (history calls (t + 1)) e := by
  rw [recordsOwn_iff_forall calls t hload hv]
  refine forall₂_congr fun e _ => ?_
  unfold recorded own
  constructor
  · intro h
    obtain ⟨hrow, hentry⟩ := Prod.mk.inj h
    rw [hrow] at hentry
    exact ⟨v, hv, hrow, hentry⟩
  · rintro ⟨v', hv', hrow, hentry⟩
    rw [hv'.unique hv] at hrow hentry
    rw [hrow, hentry]

end Histories

/-! ## Converters without a bus shift -/

section NoShift
variable {settings : Settings} (hshift : ∀ shift, c.getBusShift 32 ≠ .ok shift)
include hshift

/-- No error can be recorded. -/
theorem not_recordsOwn {mainRamBase : Int} {calls : Nat → List BistError} {t : Nat} (he : e ∈ calls t) :
    ¬ RecordsOwn settings c mainRamBase calls t := by
  intro h
  obtain ⟨rowErrors, hown, -⟩ := h (calls t) (List.prefix_refl _)
  obtain ⟨entries, hentries, -⟩ := Py.bind_eq_ok.mp hown
  obtain ⟨entry, hentry⟩ := Py.exists_of_mapM hentries he
  obtain ⟨address, haddress, -⟩ := Py.bind_eq_ok.mp hentry
  obtain ⟨shift, h, -⟩ := encodeBus_eq_ok.mp haddress
  exact hshift shift h

omit hshift in
/-- Calls without errors leave the dictionary empty. -/
theorem cacheAfter_of_empty {mainRamBase : Int} {calls : Nat → List BistError} {t : Nat} (h : ∀ u < t, calls u = []) :
    cacheAfter settings c mainRamBase calls t = .ok fun _ => none := by
  induction t with
  | zero => rfl
  | succ t ih =>
    rw [cacheAfter, ih fun u hu => h u (by omega), h t (Nat.lt_succ_self t)]
    rfl

omit hshift in
theorem recordsOwn_of_empty {mainRamBase : Int} {calls : Nat → List BistError} {t : Nat} (h : ∀ u ≤ t, calls u = []) :
    RecordsOwn settings c mainRamBase calls t := by
  intro done hdone
  rw [h t (Nat.le_refl t), List.prefix_nil] at hdone
  subst hdone
  refine ⟨[], rfl, ?_⟩
  unfold recordedAfter
  rw [cacheAfter_of_empty fun u hu => h u (Nat.le_of_lt hu)]
  rfl

end NoShift

/-! ## Ports of `2 ^ a` bits -/

section Port
variable {a : Nat} (ha : 5 ≤ a)
include ha

/-- The entry of an error in steps of a DMA word. -/
theorem entryFrom_index (e' : BistError) : (entryFrom c (portView c a) (bankOf c e') (rowOf c e') e).index =
    ((e.offset : Int) - (columnZero c e' / 2 ^ c.addressAlign : Nat)) * 2 ^ (a - 5) := by
  have hbytes : (2 : Int) ^ (a - 3) = 4 * 2 ^ (a - 5) := by
    rw [show a - 3 = 2 + (a - 5) by omega, pow_add]
    rfl
  have hbase : busAddress c (portView c a) (bankOf c e') (rowOf c e') 0 =
      0x40000000 + (columnZero c e' / 2 ^ c.addressAlign * 2 ^ (a - 3) : Nat) := by
    rw [← shiftBy_of_dvd ha two_pow_dvd_columnZero]
    rfl
  have hdiff : 0x40000000 + (e.offset * 2 ^ (a - 3) : Nat) - busAddress c (portView c a) (bankOf c e') (rowOf c e') 0 =
      4 * (((e.offset : Int) - (columnZero c e' / 2 ^ c.addressAlign : Nat)) * 2 ^ (a - 5)) := by
    rw [hbase]
    push_cast
    rw [hbytes]
    ring
  change Int.fdiv _ 4 = _
  rw [show (portView c a).bytes = 2 ^ (a - 3) from rfl, hdiff, Int.mul_fdiv_cancel_left _ (by decide)]

/-- Errors of one row have entries counted from the same word exactly if they have the same bank. -/
theorem entryFrom_inj (hrow : rowOf c e' = rowOf c e) :
    entryFrom c (portView c a) (bankOf c e') (rowOf c e) e = entryFrom c (portView c a) (bankOf c e) (rowOf c e) e ↔
      bankOf c e' = bankOf c e := by
  constructor
  · intro h
    have hindex := congrArg RowError.index h
    rw [← hrow, entryFrom_index ha, hrow, entryFrom_index ha] at hindex
    have hne : (2 : Int) ^ (a - 5) ≠ 0 := pow_ne_zero _ (by decide)
    have hdiv : columnZero c e' / 2 ^ c.addressAlign = columnZero c e / 2 ^ c.addressAlign := by
      have := Int.eq_of_mul_eq_mul_right hne hindex
      omega
    exact (columnZero_inj hrow).mp ((Nat.div_left_inj two_pow_dvd_columnZero two_pow_dvd_columnZero).mp hdiv)
  · intro h
    rw [h]

variable {settings : Settings} (hload : settings.load = .ok c)
  (hwidth : settings.nphases * settings.dfiDatabits = 2 ^ a)
include hload hwidth

theorem countedFromOwn_iff : CountedFromOwn settings c hist e ↔
    bankOf c (first (portView c a) hist e) = bankOf c e := by
  have hrow : rowOf c (first (portView c a) hist e) = rowOf c e := row_first (v := portView c a)
  rw [← entryFrom_inj ha hrow]
  constructor
  · rintro ⟨v, hv, -, h⟩
    rwa [hv.unique (portView_of hload hwidth ha)] at h
  · exact fun h => ⟨portView c a, portView_of hload hwidth ha, rfl, h⟩

/-- All errors are counted from their own banks exactly if no row has errors in two banks. -/
theorem forall_countedFromOwn_iff (calls : Nat → List BistError) (n : Nat) :
    (∀ t < n, ∀ e ∈ calls t, CountedFromOwn settings c (history calls (t + 1)) e) ↔
      ∀ t < n, ∀ u < n, ∀ e ∈ calls t, ∀ e' ∈ calls u, rowOf c e = rowOf c e' → bankOf c e = bankOf c e' := by
  simp only [countedFromOwn_iff ha hload hwidth]
  have hcall : ∀ t < n, ∀ e ∈ calls t,
      first (portView c a) (history calls (t + 1)) e = first (portView c a) (history calls n) e := by
    intro t ht e he
    obtain ⟨rest, hrest⟩ := history_prefix calls (show t + 1 ≤ n from ht)
    rw [← hrest, first_append_of_mem ((mem_history calls (t + 1)).mpr ⟨t, Nat.lt_succ_self t, he⟩)]
  constructor
  · intro h t ht u hu e he e' he' hrow
    have hbank := h t ht e he
    have hbank' := h u hu e' he'
    rw [hcall t ht e he] at hbank
    rw [hcall u hu e' he'] at hbank'
    have hfirst := first_congr (v := portView c a) ((mem_history calls n).mpr ⟨u, hu, he'⟩) hrow
    rw [← hbank, ← hbank', hfirst]
  · intro h t ht e he
    have hmem : e ∈ history calls (t + 1) := (mem_history calls (t + 1)).mpr ⟨t, Nat.lt_succ_self t, he⟩
    obtain ⟨u, hu, hfirst⟩ := (mem_history calls (t + 1)).mp (first_mem (v := portView c a) hmem)
    exact h u (by omega) t ht _ hfirst e he (row_first (v := portView c a))

end Port

end Cached

/-- In a history of calls every error is recorded in its row, counted from column 0 of its own bank and row, exactly if
the bus has it in this row and counts it so from the bank of the first error of the row. Behind a port of `2 ^ a` bits,
32 or more, that is so exactly if no row has errors in two banks. -/
theorem resultOf_eq_iff (settings : Settings) (c : DramAddressConverter) (hload : settings.load = .ok c)
    (mainRamBase : Int) (hbase : mainRamBase = 0x40000000) (calls : Nat → List BistError) (n : Nat) :
    ((∀ t < n, RecordsOwn settings c mainRamBase calls t) ↔
      ∀ t < n, ∀ e ∈ calls t, CountedFromOwn settings c (history calls (t + 1)) e) ∧
    ∀ a, settings.nphases * settings.dfiDatabits = 2 ^ a → 5 ≤ a →
      ((∀ t < n, ∀ e ∈ calls t, CountedFromOwn settings c (history calls (t + 1)) e) ↔
        ∀ t < n, ∀ u < n, ∀ e ∈ calls t, ∀ e' ∈ calls u, rowOf c e = rowOf c e' → bankOf c e = bankOf c e') := by
  subst hbase
  refine ⟨?_, fun a hwidth ha => forall_countedFromOwn_iff ha hload hwidth calls n⟩
  by_cases hshift : ∃ shift, c.getBusShift 32 = .ok shift
  · obtain ⟨shift, hshift⟩ := hshift
    obtain ⟨v, hv⟩ : ∃ v : BusView, v.Of settings c := exists_busView hshift
    exact forall₂_congr fun t _ => recordsOwn_iff calls t hload hv
  · have hnone : ∀ shift, c.getBusShift 32 ≠ .ok shift := fun shift h => hshift ⟨shift, h⟩
    constructor
    · intro h t ht e he
      exact absurd (h t ht) (not_recordsOwn hnone he)
    · intro h t ht
      refine recordsOwn_of_empty fun u hu => List.eq_nil_iff_forall_not_mem.mpr fun e he => ?_
      obtain ⟨v, hv, -⟩ := h u (Nat.lt_of_le_of_lt hu ht) e he
      exact hnone _ hv.shift

/-- A DDR3 module of 16 bits with four phases. -/
def ddr3Settings : Settings :=
  { colbits := 10, rowbits := 14, bankbits := 3, nphases := 4, dfiDatabits := 32, burstLength := 8 }

theorem ddr3Settings_load : ddr3Settings.load = .ok ddr3Converter := by decide +kernel

/-- Two errors of row 0 in bank 0. -/
def oneBank : List BistError := [⟨1, 1, 0⟩, ⟨2, 1, 0⟩]

theorem resultOf_eq_iff_oneBank :
    ∃ rowErrors, ownEntries ddr3Settings ddr3Converter 0x40000000 oneBank = .ok rowErrors ∧
      resultOf ddr3Settings ddr3Converter 0x40000000 (fun _ => oneBank) 1 = .ok rowErrors := by
  have hiff := resultOf_eq_iff ddr3Settings ddr3Converter ddr3Settings_load 0x40000000 rfl (fun _ => oneBank) 2
  have hbanks := (hiff.2 7 rfl (by decide)).mpr fun t _ u _ => by decide +kernel
  exact hiff.1.mpr hbanks 1 (by decide) oneBank (List.prefix_refl _)

/-- Two errors of row 0, in the banks 0 and 1. -/
def twoBanks : List BistError := [⟨0, 1, 0⟩, ⟨128, 1, 0⟩]

/-- The error of bank 1 is word 0 of its row and recorded as word 512. -/
theorem second_bank_displaced :
    ownEntries ddr3Settings ddr3Converter 0x40000000 twoBanks = .ok [(0, [⟨0, 1, 0⟩, ⟨0, 1, 0⟩])] ∧
    resultOf ddr3Settings ddr3Converter 0x40000000 (fun _ => twoBanks) 0 = .ok [(0, [⟨0, 1, 0⟩, ⟨512, 1, 0⟩])] := by
  have hv := portView_of (a := 7) ddr3Settings_load rfl (by decide)
  rw [ownEntries_eq hv, resultOf_eq _ 0 ddr3Settings_load hv]
  constructor
  · decide +kernel
  · decide +kernel

end RowhammerTester.Playbook
