import Cairo.Proofs.Action
import Cairo.Proofs.Felt.Conversion
import Cairo.Trace.Binary

/-!
# Binary traces and memories can be read

A file is a sequence of records of one size, and `readMemory` and `readTrace` read the fields of
each of them.  Whether a list can be written depends on single items only: a memory is written if
the addresses of its written cells are words (`cellsFrom_eq`), and a trace if its registers are
(`trace_eq`).  From the file the written cells are read back with their addresses, or the rows with
their registers, in order.
-/

namespace Cairo.Binary

/-! ## Records -/

/-- The given number of pieces of one size from the beginning of some bytes. -/
def pieces (size : Nat) : Nat → List UInt8 → List (List UInt8)
  | 0, _ => []
  | n + 1, bytes => bytes.take size :: pieces size n (bytes.drop size)

/-- Bytes cut into records of one size, if they are a whole number of them. -/
def records (size : Nat) (bytes : List UInt8) : Option (List (List UInt8)) :=
  if bytes.length % size = 0 then some (pieces size (bytes.length / size) bytes) else none

/-- The pieces of bytes that are made of records are the records. -/
theorem pieces_flatten {size : Nat} {l : List (List UInt8)} (hl : ∀ r ∈ l, r.length = size) :
    pieces size l.length l.flatten = l := by
  induction l with
  | nil => rfl
  | cons r rest ih =>
    obtain ⟨hr, hrest⟩ := List.forall_mem_cons.mp hl
    rw [List.flatten_cons, List.length_cons, pieces, List.take_left' hr, List.drop_left' hr,
      ih hrest]

/-- Bytes that are made of records are cut into them. -/
theorem records_flatten {size : Nat} (hsize : 0 < size) {l : List (List UInt8)}
    (hl : ∀ r ∈ l, r.length = size) : records size l.flatten = some l := by
  have hlength : l.flatten.length = l.length * size := by
    rw [List.length_flatten, List.map_congr_left hl, List.map_const', List.sum_replicate_nat]
  unfold records
  rw [hlength, if_pos (Nat.mul_mod_left _ _), Nat.mul_div_cancel _ hsize, pieces_flatten hl]

/-- The records of items are read back as the items if each single one is. -/
theorem read_flatten {α β : Type} {size : Nat} (hsize : 0 < size) {record : α → List UInt8}
    {read : List UInt8 → β} {item : α → β} {l : List α} (hlength : ∀ a, (record a).length = size)
    (hread : ∀ a ∈ l, read (record a) = item a) :
    (records size (l.map record).flatten).map (·.map read) = some (l.map item) := by
  have hl : ∀ r ∈ l.map record, r.length = size := by
    intro r hr
    obtain ⟨a, -, rfl⟩ := List.mem_map.mp hr
    exact hlength a
  rw [records_flatten hsize hl, Option.map_some, List.map_map]
  exact congrArg some (List.map_congr_left hread)

/-! ## Words -/

/-- The integer fits in a word. -/
def IsWord (n : Int) : Prop := 0 ≤ n ∧ n < wordBound

instance : DecidablePred IsWord := fun _ => inferInstanceAs (Decidable (_ ∧ _))

/-- The number in eight of the bytes of a record. -/
def wordAt (offset : Nat) (record : List UInt8) : Nat :=
  Bytes.ofLittleEndian ((record.drop offset).take 8)

/-- An integer is written as a word if it is one. -/
theorem word_eq (n : Int) :
    word n = if IsWord n then .ok (Bytes.littleEndian 8 n.toNat) else .error .tooLarge := rfl

/-- The bytes of a number below the bound of the words are read as the number. -/
theorem ofLittleEndian_word {n : Nat} (h : n < wordBound) :
    Bytes.ofLittleEndian (Bytes.littleEndian 8 n) = n := by
  rw [Bytes.ofLittleEndian_littleEndian]
  exact Nat.mod_eq_of_lt (Nat.lt_of_lt_of_le h (by decide))

/-- The bytes of a word are read as the word. -/
theorem IsWord.ofLittleEndian {n : Int} (h : IsWord n) :
    (Bytes.ofLittleEndian (Bytes.littleEndian 8 n.toNat) : Int) = n := by
  have hlt : n.toNat < wordBound := (Int.toNat_lt h.1).mpr h.2
  rw [ofLittleEndian_word hlt, Int.toNat_of_nonneg h.1]

/-! ## Traces -/

/-- All registers of a row are words. -/
def HasWords (r : TraceRow) : Prop := IsWord r.ap ∧ IsWord r.fp ∧ IsWord r.pc

instance : DecidablePred HasWords := fun _ => inferInstanceAs (Decidable (_ ∧ _))

/-- The record of a row. -/
def rowRecord (r : TraceRow) : List UInt8 :=
  Bytes.littleEndian 8 r.ap.toNat ++ Bytes.littleEndian 8 r.fp.toNat ++
    Bytes.littleEndian 8 r.pc.toNat

/-- The row whose record is read, with the registers in the order `ap`, `fp`, `pc`. -/
def readRow (record : List UInt8) : TraceRow where
  ap := wordAt 0 record
  fp := wordAt 8 record
  pc := wordAt 16 record

/-- The rows that the bytes of a file state, if it consists of records of 24 bytes. -/
def readTrace (bytes : List UInt8) : Option (List TraceRow) :=
  (records 24 bytes).map (·.map readRow)

/-- A row is written as its record if its registers are words. -/
theorem row_eq (r : TraceRow) :
    row r = if HasWords r then .ok (rowRecord r) else .error .tooLarge := by
  unfold row
  rw [word_eq, word_eq, word_eq]
  by_cases hap : IsWord r.ap
  · by_cases hfp : IsWord r.fp
    · by_cases hpc : IsWord r.pc
      · rw [if_pos hap, if_pos hfp, if_pos hpc]
        exact (if_pos ⟨hap, hfp, hpc⟩ : ite (HasWords r) _ _ = _).symm
      · rw [if_pos hap, if_pos hfp, if_neg hpc]
        exact (if_neg fun h : HasWords r => hpc h.2.2).symm
    · rw [if_pos hap, if_neg hfp]
      exact (if_neg fun h : HasWords r => hfp h.2.1).symm
  · rw [if_neg hap]
    exact (if_neg fun h : HasWords r => hap h.1).symm

/-- The record of a row is read as the row. -/
theorem readRow_rowRecord {r : TraceRow} (h : HasWords r) : readRow (rowRecord r) = r := by
  obtain ⟨hap, hfp, hpc⟩ := h
  have hlength : ∀ n, (Bytes.littleEndian 8 n).length = 8 := Bytes.length_littleEndian 8
  have hap' : (wordAt 0 (rowRecord r) : Int) = r.ap := by
    unfold wordAt rowRecord
    rw [List.drop_zero, List.append_assoc, List.take_left' (hlength _), hap.ofLittleEndian]
  have hfp' : (wordAt 8 (rowRecord r) : Int) = r.fp := by
    unfold wordAt rowRecord
    rw [List.append_assoc, List.drop_left' (hlength _), List.take_left' (hlength _),
      hfp.ofLittleEndian]
  have hpc' : (wordAt 16 (rowRecord r) : Int) = r.pc := by
    have hboth : (Bytes.littleEndian 8 r.ap.toNat ++ Bytes.littleEndian 8 r.fp.toNat).length = 16 :=
      by rw [List.length_append, hlength, hlength]
    unfold wordAt rowRecord
    rw [List.drop_left' hboth, List.take_of_length_le (Nat.le_of_eq (hlength _)),
      hpc.ofLittleEndian]
  unfold readRow
  rw [hap', hfp', hpc']

/-- A trace is written as the records of its rows if all registers are words. -/
theorem trace_eq (rows : List TraceRow) :
    trace rows = if ∀ r ∈ rows, HasWords r then .ok (rows.map rowRecord).flatten
      else .error .tooLarge := by
  unfold trace
  rw [Answer.mapM_eq_ite row_eq]
  split <;> rfl

/-- The records of rows are read as the rows. -/
theorem readTrace_flatten {rows : List TraceRow} (h : ∀ r ∈ rows, HasWords r) :
    readTrace (rows.map rowRecord).flatten = some rows := by
  have hlength : ∀ r, (rowRecord r).length = 24 := by
    intro r
    simp only [rowRecord, List.length_append, Bytes.length_littleEndian]
  have hread := read_flatten (by decide) hlength fun r hr => readRow_rowRecord (h r hr)
  exact hread.trans (congrArg some (List.map_id rows))

/-! ## Memories -/

/-- The written cells of a list from an address on, with their addresses, in order. -/
def written (start : Nat) (cells : List (Option Felt)) : List (Nat × Felt) :=
  (cells.zipIdx start).filterMap fun (c, address) => c.map fun x => (address, x)

/-- The record of a written cell. -/
def cellRecord (c : Nat × Felt) : List UInt8 := Bytes.littleEndian 8 c.1 ++ c.2.toLittleEndian

/-- The address and the number that the record of a cell states. -/
def readCell (record : List UInt8) : Nat × Nat :=
  (wordAt 0 record, Bytes.ofLittleEndian (record.drop 8))

/-- The addresses and the numbers that the bytes of a file state, if it consists of records of 40
bytes. -/
def readMemory (bytes : List UInt8) : Option (List (Nat × Nat)) :=
  (records 40 bytes).map (·.map readCell)

/-- A written cell is written as its record if its address is a word. -/
theorem cell_eq (c : Nat × Felt) :
    cell c.1 (some c.2) = if IsWord c.1 then .ok (cellRecord c) else .error .tooLarge := by
  unfold cell
  rw [word_eq]
  by_cases h : IsWord c.1
  · rw [if_pos h, if_pos h]
    rfl
  · rw [if_neg h, if_neg h]
    rfl

/-- The record of a cell is read as its address and the representative of its content. -/
theorem readCell_cellRecord {c : Nat × Felt} (h : c.1 < wordBound) :
    readCell (cellRecord c) = (c.1, c.2.val) := by
  have hlength : (Bytes.littleEndian 8 c.1).length = 8 := Bytes.length_littleEndian 8 c.1
  have haddress : wordAt 0 (cellRecord c) = c.1 := by
    unfold wordAt cellRecord
    rw [List.drop_zero, List.take_left' hlength]
    exact ofLittleEndian_word h
  have hcontent : Bytes.ofLittleEndian ((cellRecord c).drop 8) = c.2.val := by
    unfold cellRecord
    rw [List.drop_left' hlength, Bytes.ofLittleEndian_toLittleEndian]
  unfold readCell
  rw [haddress, hcontent]

/-- The cells of a memory are written as its written cells one after the other. -/
theorem cellsFrom_eq_mapM (start : Nat) (cells : List (Option Felt)) :
    cellsFrom start cells =
      (do return (← (written start cells).mapM fun c => cell c.1 (some c.2)).flatten) := by
  induction cells generalizing start with
  | nil => rfl
  | cons c rest ih =>
    cases c with
    | none =>
      show (cellsFrom (start + 1) rest >>= pure) = _
      rw [bind_pure, ih]
      rfl
    | some x =>
      have hwritten : written start (some x :: rest) = (start, x) :: written (start + 1) rest := rfl
      unfold cellsFrom
      rw [hwritten, List.mapM_cons, ih]
      simp only [bind_assoc, pure_bind, List.flatten_cons]

/-- The cells of a memory are written as the records of the written ones if their addresses are
words. -/
theorem cellsFrom_eq (start : Nat) (cells : List (Option Felt)) :
    cellsFrom start cells =
      if ∀ c ∈ written start cells, IsWord c.1 then
        .ok ((written start cells).map cellRecord).flatten
      else .error .tooLarge := by
  rw [cellsFrom_eq_mapM, Answer.mapM_eq_ite cell_eq]
  split
  · rfl
  · rfl

/-- The records of written cells are read as their addresses and contents. -/
theorem readMemory_flatten {l : List (Nat × Felt)} (h : ∀ c ∈ l, c.1 < wordBound) :
    readMemory (l.map cellRecord).flatten = some (l.map fun c => (c.1, c.2.val)) := by
  have hlength : ∀ c, (cellRecord c).length = 40 := by
    intro c
    simp only [cellRecord, Felt.toLittleEndian, List.length_append, Bytes.length_littleEndian]
  exact read_flatten (by decide) hlength fun c hc => readCell_cellRecord (h c hc)

/-- The written cells are those that are not empty. -/
theorem mem_written {cells : List (Option Felt)} {c : Nat × Felt} :
    c ∈ written 0 cells ↔ cells[c.1]? = some (some c.2) := by
  unfold written
  rw [List.mem_filterMap]
  constructor
  · rintro ⟨⟨x?, i⟩, hmem, hx⟩
    obtain ⟨x, rfl, rfl⟩ := Option.map_eq_some_iff.mp hx
    exact List.mem_zipIdx_iff_getElem?.mp hmem
  · intro h
    exact ⟨(some c.2, c.1), List.mem_zipIdx_iff_getElem?.mpr h, rfl⟩

/-- A memory of no more cells than there are words is written to a file of records, from which its
written cells are read back with their addresses, in order; and a trace whose registers are words is
written to one from which its rows are read back.  Writing a memory fails just if there is a written
cell whose address is no word, and writing a trace just if there is a register that is none. -/
theorem memory_and_trace_are_read_back :
    (∀ cells : List (Option Felt), cells.length ≤ wordBound → ∃ bytes,
      memory cells = .ok bytes ∧
        readMemory bytes = some ((written 0 cells).map fun c => (c.1, c.2.val))) ∧
    (∀ rows : List TraceRow, (∀ r ∈ rows, HasWords r) → ∃ bytes,
      trace rows = .ok bytes ∧ readTrace bytes = some rows) ∧
    (∀ cells : List (Option Felt), (∃ e, memory cells = .error e) ↔
      ∃ (address : Nat) (x : Felt), cells[address]? = some (some x) ∧ ¬ IsWord address) ∧
    ∀ rows : List TraceRow, (∃ e, trace rows = .error e) ↔ ∃ r ∈ rows, ¬ HasWords r := by
  refine ⟨fun cells hlength => ?_, fun rows h => ?_, fun cells => ?_, fun rows => ?_⟩
  · have hwords : ∀ c ∈ written 0 cells, c.1 < wordBound := by
      intro c hc
      obtain ⟨hlt, -⟩ := List.getElem?_eq_some_iff.mp (mem_written.mp hc)
      exact Nat.lt_of_lt_of_le hlt hlength
    refine ⟨_, (cellsFrom_eq 0 cells).trans (if_pos fun c hc => ?_), readMemory_flatten hwords⟩
    exact ⟨Int.natCast_nonneg _, Int.ofNat_lt.mpr (hwords c hc)⟩
  · exact ⟨_, (trace_eq rows).trans (if_pos h), readTrace_flatten h⟩
  · unfold memory
    rw [cellsFrom_eq, Answer.exists_ite_eq_error]
    constructor
    · intro h
      simp only [Classical.not_forall] at h
      obtain ⟨c, hc, hword⟩ := h
      exact ⟨c.1, c.2, mem_written.mp hc, hword⟩
    · rintro ⟨address, x, hcell, hword⟩ h
      exact hword (h (address, x) (mem_written.mpr hcell))
  · rw [trace_eq, Answer.exists_ite_eq_error]
    simp only [Classical.not_forall, exists_prop]

/-- A memory with holes and the greatest content, and a row with the greatest word. -/
theorem memory_and_trace_are_read_back_extremes :
    (∃ bytes, memory [none, some (.ofInt (-1)), none, some 5] = .ok bytes ∧
      readMemory bytes = some [(1, prime - 1), (3, 5)]) ∧
    ∃ bytes, trace [⟨wordBound - 1, 256, 0⟩, ⟨1, 2, 3⟩] = .ok bytes ∧
      readTrace bytes = some [⟨wordBound - 1, 256, 0⟩, ⟨1, 2, 3⟩] := by
  have hwritten : ((written 0 [none, some (.ofInt (-1)), none, some 5]).map
      fun c => (c.1, c.2.val)) = [(1, prime - 1), (3, 5)] := by decide +kernel
  have hmemory := memory_and_trace_are_read_back.1 [none, some (.ofInt (-1)), none, some 5]
    (by decide +kernel)
  rw [hwritten] at hmemory
  exact ⟨hmemory, memory_and_trace_are_read_back.2.1 _ (by decide +kernel)⟩

end Cairo.Binary
