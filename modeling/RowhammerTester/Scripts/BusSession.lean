import RowhammerTester.Firmware.Etherbone.Session
import RowhammerTester.Scripts.Bus

/-!
# Bus scripts over the Etherbone server

The transfers of `memwrite` and `memread`, sent to the server as requests, are the writes and reads of a memory of words.

* `writeTransfer`, `readTransfer` : the transfers as the server sees them;
* `Shows mem bus` : the bytes behind the server are the words of the bus;
* `shows_foldl`, `answers_readTransfers` : the transfers of a script, one after the other;
* `memwrite_memread_served` : `memwrite`, then `memread`, over the server.
-/

namespace RowhammerTester.Scripts
open RowhammerTester.Firmware.Etherbone

/-- `wb.write(addr, words)` as a transfer. -/
def writeTransfer (t : Int × List Nat) : Transfer := .write (BitVec.ofInt 32 t.1) (t.2.map (BitVec.ofNat 32))

/-- `wb.read(addr, length)` as a transfer. -/
def readTransfer (t : Int × Nat) : Transfer :=
  .read ((List.range t.2).map fun j : Nat => BitVec.ofInt 32 (t.1 + 4 * j))

/-- The words of the bus, up to the address `2 ^ 32`, are in the memory behind the server. -/
def Shows (mem : PlMem) (bus : BusMemory) : Prop :=
  ∀ k : Nat, 4 * k < 2 ^ 32 → (plMemRead mem (BitVec.ofNat 32 (4 * k))).toNat = bus (4 * k)

section Shows
variable {mem : PlMem} {bus : BusMemory}

theorem ofInt_mul_four (k : Nat) : BitVec.ofInt 32 (4 * (k : Int)) = BitVec.ofNat 32 (4 * k) := by
  rw [← BitVec.ofInt_natCast, Nat.cast_mul]
  rfl

theorem toNat_mul_four {k : Nat} (h : 4 * k < 2 ^ 32) : (BitVec.ofNat 32 (4 * k)).toNat = 4 * k := by
  rw [BitVec.toNat_ofNat, Nat.mod_eq_of_lt h]

theorem shows_write (h : Shows mem bus) {k w : Nat} (hk : 4 * k < 2 ^ 32) (hw : w < 2 ^ 32) :
    Shows (plMemWrite mem (BitVec.ofNat 32 (4 * k)) (BitVec.ofNat 32 w)) (Function.update bus (4 * k) w) := by
  intro j hj
  by_cases heq : j = k
  · rw [heq, plMemRead_self, Function.update_self, BitVec.toNat_ofNat, Nat.mod_eq_of_lt hw]
  · rw [Function.update_of_ne (by omega), plMemRead_of_apart _ _ (by
      rw [toNat_mul_four hj, toNat_mul_four hk]
      omega)]
    exact h j hj

theorem shows_store (words : List Nat) : ∀ {mem : PlMem} {bus : BusMemory} {k : Nat},
    Shows mem bus → 4 * (k + words.length) ≤ 2 ^ 32 → (∀ w ∈ words, w < 2 ^ 32) →
    Shows (Transfer.store mem (BitVec.ofNat 32 (4 * k)) (words.map (BitVec.ofNat 32))) (wbWrite bus (4 * k) words) := by
  induction words with
  | nil => exact fun h _ _ => h
  | cons w words ih =>
    intro mem bus k h hspace hwords
    rw [List.length_cons] at hspace
    obtain ⟨hw, hwords⟩ := List.forall_mem_cons.mp hwords
    have hnext : BitVec.ofNat 32 (4 * k) + 4 = BitVec.ofNat 32 (4 * (k + 1)) := by
      rw [Nat.mul_succ, BitVec.ofNat_add]
      rfl
    have haddr : (4 * (k : Int)) + 4 = 4 * ((k + 1 : Nat) : Int) := by
      push_cast
      ring
    rw [List.map_cons, Transfer.store, wbWrite, hnext, haddr]
    exact ih (shows_write h (by omega) hw) (by omega) hwords

/-- A write of 32-bit words within the 32-bit addresses. -/
def Writes32 (t : Int × List Nat) : Prop :=
  ∃ k : Nat, t.1 = 4 * (k : Int) ∧ 4 * (k + t.2.length) ≤ 2 ^ 32 ∧ ∀ w ∈ t.2, w < 2 ^ 32

/-- The writes of a script. -/
theorem shows_foldl (ws : List (Int × List Nat)) : ∀ {mem : PlMem} {bus : BusMemory}, Shows mem bus →
    (∀ t ∈ ws, Writes32 t) → Shows ((ws.map writeTransfer).foldl Transfer.next mem)
      (ws.foldl (fun bus t => wbWrite bus t.1 t.2) bus) := by
  induction ws with
  | nil => exact fun h _ => h
  | cons t ws ih =>
    intro mem bus h hws
    obtain ⟨ht, hws⟩ := List.forall_mem_cons.mp hws
    obtain ⟨k, haddr, hspace, hwords⟩ := ht
    have hnext : (writeTransfer t).next mem =
        Transfer.store mem (BitVec.ofNat 32 (4 * k)) (t.2.map (BitVec.ofNat 32)) := by
      rw [writeTransfer, haddr, ofInt_mul_four]
      rfl
    rw [List.map_cons, List.foldl_cons, List.foldl_cons, hnext, haddr]
    exact ih (shows_store t.2 h hspace hwords) hws

/-- A read within the 32-bit addresses. -/
def Reads32 (t : Int × Nat) : Prop := ∃ k : Nat, t.1 = 4 * (k : Int) ∧ 4 * (k + t.2) ≤ 2 ^ 32

theorem answer_readTransfer (h : Shows mem bus) {t : Int × Nat} (ht : Reads32 t) :
    ((readTransfer t).answer mem).map BitVec.toNat = wbRead bus t.1 t.2 := by
  obtain ⟨k, haddr, hspace⟩ := ht
  rw [readTransfer, Transfer.answer, wbRead, List.map_map, List.map_map]
  apply List.map_congr_left
  intro j hj
  have hword : t.1 + 4 * (j : Int) = 4 * ((k + j : Nat) : Int) := by
    rw [haddr]
    push_cast
    ring
  have hlt := List.mem_range.mp hj
  simp only [Function.comp_apply, hword, ofInt_mul_four]
  exact h (k + j) (by omega)

/-- The reads of a script leave the memory as it is. -/
theorem answers_readTransfers (h : Shows mem bus) {rs : List (Int × Nat)} (hrs : ∀ t ∈ rs, Reads32 t) :
    (rs.map readTransfer).foldl Transfer.next mem = mem ∧
      (Transfer.answers mem (rs.map readTransfer)).flatten.map BitVec.toNat =
        rs.flatMap fun t => wbRead bus t.1 t.2 := by
  induction rs with
  | nil => exact ⟨rfl, rfl⟩
  | cons t rs ih =>
    obtain ⟨ht, hrs⟩ := List.forall_mem_cons.mp hrs
    obtain ⟨hmem, hanswers⟩ := ih hrs
    refine ⟨hmem, ?_⟩
    rw [List.map_cons, Transfer.answers, List.flatten_cons, List.map_append, List.flatMap_cons, answer_readTransfer h ht]
    exact congrArg _ hanswers

/-- The writes bring nothing back. -/
theorem answers_append (ws : List (Int × List Nat)) (ts : List Transfer) : ∀ mem : PlMem,
    Transfer.answers mem (ws.map writeTransfer ++ ts) =
      List.replicate ws.length [] ++ Transfer.answers ((ws.map writeTransfer).foldl Transfer.next mem) ts := by
  induction ws with
  | nil => exact fun mem => rfl
  | cons t ws ih =>
    intro mem
    rw [List.map_cons, List.cons_append, Transfer.answers, ih, List.length_cons, List.replicate_succ]
    rfl

end Shows

/-! ## Scripts -/

section Scripts
variable {data : List Nat} {b n burst : Nat}

/-- The transfers of a range start inside of it. -/
theorem rangeStep_eq (hburst : 0 < burst) : ∃ starts, rangeStep n burst = .ok starts ∧ ∀ i ∈ starts, i < n := by
  refine ⟨(List.range ((n + burst - 1) / burst)).map (· * burst), ?_, ?_⟩
  · unfold rangeStep
    rw [Py.check_of_pos (by omega)]
    rfl
  · intro i hi
    obtain ⟨q, hq, rfl⟩ := List.mem_map.mp hi
    have hle : (q + 1) * burst ≤ n + burst - 1 :=
      Nat.le_trans (Nat.mul_le_mul_right _ (List.mem_range.mp hq)) (Nat.div_mul_le_self _ _)
    rw [Nat.succ_mul] at hle
    omega

/-- The transfers of `memwrite`. -/
theorem writes32_of_memwrite (hburst : 0 < burst) (hspace : 4 * (b + data.length) ≤ 2 ^ 32)
    (hdata : ∀ w ∈ data, w < 2 ^ 32) : ∃ ws, writeTransfers data (4 * (b : Int)) burst = .ok ws ∧
      (∀ t ∈ ws, Writes32 t) ∧ ∀ bus : BusMemory, ws.foldl (fun bus t => wbWrite bus t.1 t.2) bus =
        wbWrite bus (4 * (b : Int)) data := by
  obtain ⟨starts, hstarts, hlt⟩ := rangeStep_eq (n := data.length) hburst
  have hws : writeTransfers data (4 * (b : Int)) burst = .ok (starts.map fun i : Nat =>
      (4 * (b : Int) + 4 * i, Py.slice data i (min (i + burst) data.length))) := by
    rw [writeTransfers, hstarts]
    rfl
  refine ⟨_, hws, ?_, ?_⟩
  · intro t ht
    obtain ⟨i, hi, rfl⟩ := List.mem_map.mp ht
    have hi := hlt i hi
    have hlen : (Py.slice data i (min (i + burst) data.length)).length ≤ data.length - i := by
      rw [slice_eq, List.length_take, List.length_drop]
      exact Nat.min_le_right _ _
    refine ⟨b + i, ?_, ?_, ?_⟩
    · push_cast
      ring
    · dsimp only
      omega
    · intro w hw
      rw [slice_eq] at hw
      exact hdata w (List.mem_of_mem_drop (List.mem_of_mem_take hw))
  · intro bus
    have hall := memwrite_eq bus data (4 * (b : Int)) hburst
    rw [memwrite, hws] at hall
    exact Except.ok.inj hall

/-- The transfers of `memread`. -/
theorem reads32_of_memread (hburst : 0 < burst) (hspace : 4 * (b + n) ≤ 2 ^ 32) :
    ∃ rs, readTransfers n (4 * (b : Int)) burst = .ok rs ∧ (∀ t ∈ rs, Reads32 t) ∧
      ∀ bus : BusMemory, (rs.flatMap fun t => wbRead bus t.1 t.2) = wbRead bus (4 * (b : Int)) n := by
  obtain ⟨starts, hstarts, hlt⟩ := rangeStep_eq (n := n) hburst
  have hrs : readTransfers n (4 * (b : Int)) burst = .ok (starts.map fun i : Nat =>
      (4 * (b : Int) + 4 * i, min burst (n - i))) := by
    rw [readTransfers, hstarts]
    rfl
  refine ⟨_, hrs, ?_, ?_⟩
  · intro t ht
    obtain ⟨i, hi, rfl⟩ := List.mem_map.mp ht
    have hi := hlt i hi
    refine ⟨b + i, ?_, ?_⟩
    · push_cast
      ring
    · dsimp only
      omega
  · intro bus
    obtain ⟨rs, hok, -, hall⟩ := readTransfers_le (4 * (b : Int)) n hburst
    have hread := (hall bus).symm.trans (memread_eq bus n (4 * (b : Int)) hburst)
    rw [hrs] at hok
    obtain rfl := Except.ok.inj hok
    exact Except.ok.inj hread

end Scripts

/-- **Writing and reading over the server.** In every session of the server that a `memwrite` and a `memread` make
together, in whatever datagrams their transfers are sent, the server answers with the words that the scripts read from a
memory of words, and the memory behind it is left as that memory is. -/
theorem memwrite_memread_served (data : List Nat) (b b' n : Nat) {b₁ b₂ : Nat} (h₁ : 0 < b₁) (h₂ : 0 < b₂)
    (hwrite : 4 * (b + data.length) ≤ 2 ^ 32) (hread : 4 * (b' + n) ≤ 2 ^ 32) (hdata : ∀ w ∈ data, w < 2 ^ 32)
    (bus : BusMemory) : ∃ ws rs written words, writeTransfers data (4 * (b : Int)) b₁ = .ok ws ∧
      readTransfers n (4 * (b' : Int)) b₂ = .ok rs ∧ memwrite bus data (4 * (b : Int)) b₁ = .ok written ∧
      memread written n (4 * (b' : Int)) b₂ = .ok words ∧
      ∀ (etherboneAbort : Bool) (bufSize : Nat) (turns : List Turn) (buf : Firmware.Buffer) (mem mem' : PlMem),
        Shows mem bus → List.Forall₂ (Sends bufSize) turns (ws.map writeTransfer ++ rs.map readTransfer) →
        replay mem ((udpServerRun etherboneAbort bufSize buf turns).flatMap Report.calls) = some mem' →
        Shows mem' written ∧ ∃ answers, List.Forall₂ Brings ((udpServerRun etherboneAbort bufSize buf turns).map
          Report.sent) (List.replicate ws.length [] ++ answers) ∧ answers.flatten.map BitVec.toNat = words := by
  obtain ⟨ws, hws, hwrites, hwritten⟩ := writes32_of_memwrite h₁ hwrite hdata
  obtain ⟨rs, hrs, hreads, hwords⟩ := reads32_of_memread h₂ hread
  refine ⟨ws, rs, _, _, hws, hrs, memwrite_eq bus data _ h₁, memread_eq _ n _ h₂, ?_⟩
  intro etherboneAbort bufSize turns buf mem mem' hshows hturns hreplay
  obtain ⟨hmem, hbrings⟩ := session_refines etherboneAbort bufSize hturns buf hreplay
  have hafter := shows_foldl ws hshows hwrites
  rw [hwritten] at hafter
  obtain ⟨hstays, hanswers⟩ := answers_readTransfers hafter hreads
  rw [List.foldl_append, hstays] at hmem
  rw [answers_append] at hbrings
  refine ⟨hmem ▸ hafter, _, hbrings, ?_⟩
  rw [hanswers, hwords]

/-- Two words are written at `0x80` and read back. -/
theorem memwrite_memread_served_twoWords : ∃ ws rs, writeTransfers [7, 9] 0x80 255 = .ok ws ∧
    readTransfers 2 0x80 255 = .ok rs ∧
    List.Forall₂ (Sends 4096) sampleTurns (ws.map writeTransfer ++ rs.map readTransfer) ∧
    ∃ answers, List.Forall₂ Brings ((udpServerRun true 4096 (fun _ => 0) sampleTurns).map Report.sent)
      (List.replicate ws.length [] ++ answers) ∧ answers.flatten.map BitVec.toNat = [7, 9] := by
  obtain ⟨ws, rs, written, words, hws, hrs, hwritten, hwords, hserved⟩ := memwrite_memread_served [7, 9] 0x20 0x20 2
    (show 0 < 255 by decide) (show 0 < 255 by decide) (by decide) (by decide) (by decide) (fun _ => 0)
  cases hws
  cases hrs
  have hsends : List.Forall₂ (Sends 4096) sampleTurns
      [.write 0x80 [7, 9], .read [0x80, 0x84]] := sampleTurns_sends
  have hzero : Shows (fun _ => 0) (fun _ => 0) := by
    intro k _
    change (0#8 ++ 0#8 ++ 0#8 ++ 0#8).toNat = 0
    decide
  obtain ⟨-, answers, hbrings, hanswers⟩ := hserved true 4096 sampleTurns (fun _ => 0) (fun _ => 0) _ hzero hsends
    sampleTurns_replay
  refine ⟨_, _, rfl, rfl, hsends, answers, hbrings, hanswers.trans ?_⟩
  have hsame := (memwrite_eq (fun _ => 0) [7, 9] (4 * ((0x20 : Nat) : Int)) (show 0 < 255 by decide)).symm.trans hwritten
  obtain rfl := Except.ok.inj hsame
  rw [memread_eq _ _ _ (by decide)] at hwords
  exact (Except.ok.inj hwords).symm.trans (wbRead_wbWrite _ _ [7, 9])

end RowhammerTester.Scripts
