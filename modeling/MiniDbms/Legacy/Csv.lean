import MiniDbms.Legacy.Load

/-!
# CSV files of short lines

What scanning a file leaves in the slots, when each of its lines fits the line
buffer: the offset of every row, from which the row is read again.
-/

namespace MiniDbms.Legacy

open Bptree

/-! ## Files -/

/-- A line without its line feed: a text, behind which a carriage return may stand. -/
structure CsvLine where
  text : Bytes
  cr : Bool := false

def CsvLine.bytes (line : CsvLine) : Bytes := line.text ++ if line.cr then [13] else []

structure CsvLine.Fine (line : CsvLine) : Prop where
  chars : ∀ c ∈ line.text, c ≠ 0 ∧ isLineEnd c = false
  short : line.bytes.length + 2 ≤ RECORD_SIZE

/-- A file with a header line; `last` is the text behind the last line feed. -/
structure CsvFile where
  header : CsvLine
  lines : List CsvLine
  last : CsvLine := ⟨[], false⟩

namespace CsvFile

variable (csv : CsvFile)

/-- The part behind the header. -/
def body : Bytes := unlines (csv.lines.map CsvLine.bytes) ++ csv.last.bytes

def bytes : Bytes := csv.header.bytes ++ 10 :: csv.body

/-- The lines that are not blank. -/
def rows : List Bytes := ((csv.lines ++ [csv.last]).map CsvLine.text).filter (· ≠ [])

def schema : Schema := parseHeader (csv.header.bytes ++ [10])

end CsvFile

/-- The key of the `i`-th row in the id index: its PK, or else its number. -/
def rowKey (schema : Schema) (row : Bytes) (i : Nat) : Int :=
  match schema.pkIdx with
  | some pk => (fieldLong row pk).getD 0
  | none => i + 1

/-- The rows with their keys. -/
def CsvFile.keyed (csv : CsvFile) : List (Int × Bytes) :=
  csv.rows.zipIdx.map fun e => (rowKey csv.schema e.1 e.2, e.1)

/-- Every row has a PK, no two have the same key, and no two the same non-empty value in
a UK column. -/
structure CsvFile.WellFormed (csv : CsvFile) : Prop where
  fine : ∀ line ∈ csv.header :: (csv.lines ++ [csv.last]), line.Fine
  ids : ∀ row ∈ csv.rows, ∀ pk ∈ csv.schema.pkIdx, (fieldLong row pk).isSome
  distinct : (csv.keyed.map Prod.fst).Nodup
  uks : ∀ col ∈ csv.schema.ukIndices, ((csv.rows.map (ukKey · col)).filter (· ≠ [])).Nodup

/-! ## Lines -/

namespace CsvLine

variable {line : CsvLine}

theorem Fine.text_length (h : line.Fine) : line.text.length + 2 ≤ RECORD_SIZE := by
  have hshort := h.short
  rw [bytes, List.length_append] at hshort
  omega

theorem Fine.fits (h : line.Fine) : Fits RECORD_SIZE line.bytes := by
  refine ⟨h.short, ?_⟩
  rw [List.all_eq_true]
  intro c hc
  obtain hc | hc := List.mem_append.1 hc
  · have hend := (h.chars c hc).2
    rw [isLineEnd, Bool.or_eq_false_iff] at hend
    simpa using hend.1
  · split at hc
    · rw [List.mem_singleton.1 hc]
      rfl
    · exact absurd hc List.not_mem_nil

theorem ends (line : CsvLine) (tail : Bytes) (htail : tail = [] ∨ tail = [10]) :
    ∀ c ∈ (if line.cr then [13] else []) ++ tail, isLineEnd c = true := by
  intro c hc
  obtain hc | hc := List.mem_append.1 hc
  · split at hc
    · rw [List.mem_singleton.1 hc]
      rfl
    · exact absurd hc List.not_mem_nil
  · obtain rfl | rfl := htail
    · exact absurd hc List.not_mem_nil
    · rw [List.mem_singleton.1 hc]
      rfl

theorem Fine.chomp (h : line.Fine) (tail : Bytes) (htail : tail = [] ∨ tail = [10]) :
    chomp RECORD_SIZE (line.bytes ++ tail) = some line.text := by
  rw [bytes, List.append_assoc]
  exact chomp_text h.chars (line.ends tail htail) h.text_length

end CsvLine

/-! ## Reading a row again -/

theorem fgets_fst (size : Nat) (s : Bytes) :
    ∃ n, (fgets size s).1 = s.take n ∧ (((s.take (size - 1)).takeWhile (· != 10)).length ≤ n) := by
  unfold fgets
  simp only
  split
  · exact ⟨_, rfl, Nat.le_succ _⟩
  · refine ⟨((s.take (size - 1)).takeWhile (· != 10)).length, ?_, Nat.le_refl _⟩
    have hfirst : (s.take (size - 1)).takeWhile (· != 10) <+: s :=
      (List.takeWhile_prefix _).trans (List.take_prefix _ _)
    exact (List.prefix_iff_eq_take.1 hfirst)

theorem rowAt_text {front text tail : Bytes} (hne : text ≠ [])
    (htext : ∀ c ∈ text, c ≠ 0 ∧ isLineEnd c = false) (hlen : text.length + 2 ≤ RECORD_SIZE)
    (htail : ∀ c ∈ tail.head?, isLineEnd c = true) :
    rowAt (front ++ (text ++ tail)) front.length = some text := by
  have hall : text.all (!isLineEnd ·) = true := by
    rw [List.all_eq_true]
    intro c hc
    rw [(htext c hc).2]
    rfl
  have hfeed : text.all (· != 10) = true := by
    rw [List.all_eq_true]
    intro c hc
    have hend := (htext c hc).2
    rw [isLineEnd, Bool.or_eq_false_iff] at hend
    simpa using hend.1
  have hcut : ∀ n, text.length ≤ n → ((text ++ tail).take n).takeWhile (!isLineEnd ·) = text := by
    intro n hn
    rw [List.take_append, List.take_of_length_le hn]
    refine (span_append hall fun c hc => ?_).1
    rw [List.head?_take] at hc
    split at hc
    · exact absurd hc (by simp)
    · rw [htail c hc]
      rfl
  have hpos : 0 < text.length := List.length_pos_iff.2 hne
  unfold rowAt
  rw [if_neg (by simp only [List.length_append]; omega)]
  simp only [List.drop_left]
  rw [Option.some_inj]
  generalize PAGE_CACHE_PAGE_SIZE - front.length % PAGE_CACHE_PAGE_SIZE = room
  split
  · -- the row reaches the end of its page
    obtain ⟨n, hread, hn⟩ := fgets_fst RECORD_SIZE (text ++ tail)
    have hbody : text.length ≤
        (((text ++ tail).take (RECORD_SIZE - 1)).takeWhile (· != 10)).length := by
      rw [List.take_append, List.take_of_length_le (by omega)]
      have hfirst : text <+: (text ++ tail.take (RECORD_SIZE - 1 - text.length)).takeWhile
          (· != 10) := by
        rw [List.takeWhile_append_of_pos fun c hc => List.all_eq_true.1 hfeed c hc]
        exact List.prefix_append _ _
      exact hfirst.length_le
    rw [hread, hcut n (by omega)]
    exact cstr_eq_self fun c hc => (htext c hc).1
  · rename_i hroom
    by_cases hle : text.length ≤ room
    · rw [hcut _ hle]
      exact cstr_eq_self fun c hc => (htext c hc).1
    · exfalso
      apply hroom
      rw [List.take_append_of_le_length (by omega)]
      have htake : (text.take room).takeWhile (!isLineEnd ·) = text.take room := by
        rw [List.takeWhile_eq_self_iff]
        exact fun c hc => List.all_eq_true.1 hall c (List.mem_of_mem_take hc)
      rw [htake, List.length_take]
      omega

/-! ## The rows and their offsets -/

/-- The rows among some lines, with the offsets of the lines. -/
def rowsFrom : Nat → List CsvLine → List (Nat × Bytes)
  | _, [] => []
  | offset, line :: lines =>
    if line.text = [] then rowsFrom (offset + line.bytes.length + 1) lines
    else (offset, line.text) :: rowsFrom (offset + line.bytes.length + 1) lines

theorem rowsFrom_texts : ∀ (lines : List CsvLine) (offset : Nat),
    (rowsFrom offset lines).map Prod.snd = (lines.map CsvLine.text).filter (· ≠ [])
  | [], _ => rfl
  | line :: lines, offset => by
      unfold rowsFrom
      split
      · rename_i hnil
        rw [rowsFrom_texts lines, List.map_cons, List.filter_cons_of_neg (by simp [hnil])]
      · rename_i hne
        rw [List.map_cons, rowsFrom_texts lines, List.map_cons,
          List.filter_cons_of_pos (by simp [hne])]

theorem rowAt_rowsFrom {last : CsvLine} : ∀ {lines : List CsvLine} {front : Bytes},
    (∀ line ∈ lines ++ [last], line.Fine) → ∀ e ∈ rowsFrom front.length (lines ++ [last]),
      rowAt (front ++ (unlines (lines.map CsvLine.bytes) ++ last.bytes)) e.1 = some e.2
  | [], front, hfine, e, he => by
      have hlast : last.Fine := hfine last (by simp)
      simp only [List.nil_append, rowsFrom] at he
      split at he
      · exact absurd he List.not_mem_nil
      · rename_i hne
        rw [List.mem_singleton.1 he]
        have hbody : unlines (([] : List CsvLine).map CsvLine.bytes) ++ last.bytes =
            last.text ++ if last.cr then [13] else [] := rfl
        rw [hbody]
        refine rowAt_text hne hlast.chars hlast.text_length fun c hc => ?_
        have hend := last.ends [] (Or.inl rfl) c
        rw [List.append_nil] at hend
        exact hend (List.mem_of_mem_head? hc)
  | line :: lines, front, hfine, e, he => by
      have hline : line.Fine := hfine line (by simp)
      have hfront : front ++ (unlines ((line :: lines).map CsvLine.bytes) ++ last.bytes) =
          (front ++ line.bytes ++ [10]) ++ (unlines (lines.map CsvLine.bytes) ++ last.bytes) := by
        simp [unlines]
      have hlen : (front ++ line.bytes ++ [10]).length = front.length + line.bytes.length + 1 := by
        simp [Nat.add_assoc]
      have hrest : ∀ e ∈ rowsFrom (front.length + line.bytes.length + 1) (lines ++ [last]),
          rowAt (front ++ (unlines ((line :: lines).map CsvLine.bytes) ++ last.bytes)) e.1 =
            some e.2 := by
        rw [hfront, ← hlen]
        exact rowAt_rowsFrom fun l hl => hfine l (List.mem_cons_of_mem line hl)
      rw [List.cons_append, rowsFrom] at he
      split at he
      · exact hrest e he
      · rename_i hne
        obtain rfl | he := List.mem_cons.1 he
        · have hbody : unlines ((line :: lines).map CsvLine.bytes) ++ last.bytes =
              line.text ++ ((if line.cr then [13] else []) ++
                10 :: (unlines (lines.map CsvLine.bytes) ++ last.bytes)) := by
            simp [unlines, CsvLine.bytes]
          rw [hbody]
          refine rowAt_text hne hline.chars hline.text_length fun c hc => ?_
          split at hc <;> rw [← Option.mem_some.1 hc] <;> rfl
        · exact hrest e he

/-! ## Scanning -/

/-- The slots of the rows that have been read. -/
def loadedSlots (done : List (Nat × Bytes)) : List Slot :=
  (done.take MAX_RECORDS).zipIdx.map fun e =>
    { active := true, rowId := e.2 + 1, store := .csv, offset := e.1.1 }

/-- The state of a scan that builds no indexes. -/
structure Scanned (csv : Bytes) (done : List (Nat × Bytes)) (scan : Scan) : Prop where
  file : scan.tc.file = csv
  schema : scan.tc.schema = (openTable csv).schema
  idIndex : scan.tc.idIndex = create Int
  ukIndexes : scan.tc.ukIndexes = (openTable csv).ukIndexes
  slots : scan.tc.slots = loadedSlots done
  next : scan.tc.nextRowId = done.length + 1
  tail : done = [] → scan.tc.tail = []

theorem length_loadedSlots (done : List (Nat × Bytes)) :
    (loadedSlots done).length = min MAX_RECORDS done.length := by
  simp [loadedSlots]

theorem activeCount_loaded {tc : TableCache} {done : List (Nat × Bytes)}
    (h : tc.slots = loadedSlots done) : tc.activeCount = min MAX_RECORDS done.length := by
  rw [TableCache.activeCount, h, ← length_loadedSlots, List.countP_eq_length]
  intro slot hslot
  obtain ⟨e, -, rfl⟩ := List.mem_map.1 hslot
  rfl

theorem loadedSlots_concat {done : List (Nat × Bytes)} (h : done.length < MAX_RECORDS)
    (e : Nat × Bytes) :
    loadedSlots (done ++ [e]) = loadedSlots done ++
      [{ active := true, rowId := done.length + 1, store := .csv, offset := e.1 }] := by
  unfold loadedSlots
  rw [List.take_of_length_le (by simp; omega), List.take_of_length_le (by omega),
    List.zipIdx_append, List.map_append]
  simp

theorem scanRow_bare {tc : TableCache} {done : List (Nat × Bytes)} (hslots : tc.slots = loadedSlots done)
    (hnext : tc.nextRowId = done.length + 1) (id : Int) (row : Bytes) (offset : Nat) :
    ∃ tc', tc.scanRow true id row offset = some tc' ∧
      tc'.slots = loadedSlots (done ++ [(offset, row)]) ∧ tc'.nextRowId = done.length + 2 ∧
      tc'.file = tc.file ∧ tc'.schema = tc.schema ∧ tc'.idIndex = tc.idIndex ∧
      tc'.ukIndexes = tc.ukIndexes := by
  have hactive := activeCount_loaded hslots
  have hlen : tc.slots.length = min MAX_RECORDS done.length := by
    rw [hslots, length_loadedSlots]
  unfold TableCache.scanRow
  simp only
  by_cases hroom : done.length < MAX_RECORDS
  · have hcount : ({ tc with nextRowId := tc.nextRowId + 1 } : TableCache).activeCount <
        MAX_RECORDS := by
      change tc.activeCount < MAX_RECORDS
      omega
    rw [if_pos hcount]
    unfold TableCache.appendRecordRawMemory
    rw [if_neg (by simp only; omega)]
    refine ⟨_, rfl, ?_, ?_, rfl, rfl, rfl, rfl⟩
    · rw [loadedSlots_concat hroom, ← hslots, hnext]
    · simp only [hnext]
      omega
  · have hcount : ¬ ({ tc with nextRowId := tc.nextRowId + 1 } : TableCache).activeCount <
        MAX_RECORDS := by
      change ¬ tc.activeCount < MAX_RECORDS
      omega
    rw [if_neg hcount]
    refine ⟨_, rfl, ?_, ?_, rfl, rfl, rfl, rfl⟩
    · rw [hslots, loadedSlots, loadedSlots, List.take_append_of_le_length (by omega)]
    · simp only [hnext]
      omega

/-- A blank line is skipped, any other one is put into a slot or behind them. -/
theorem Scanned.line {file : Bytes} {done : List (Nat × Bytes)} {scan : Scan} {line : CsvLine}
    (h : Scanned file done scan) (hfine : line.Fine) {tail : Bytes}
    (htail : tail = [] ∨ tail = [10])
    (hid : line.text ≠ [] → (scanId (openTable file).schema line.text).isSome) :
    ∃ scan', scanLine true scan (line.bytes ++ tail) = some scan' ∧
      Scanned file (if line.text = [] then done else done ++ [(scan.offset, line.text)]) scan' ∧
      scan'.offset = scan.offset + (line.bytes ++ tail).length := by
  unfold scanLine
  rw [hfine.chomp tail htail]
  simp only [Option.bind_eq_bind, Option.bind_some]
  by_cases hnil : line.text = []
  · rw [if_pos hnil, if_pos hnil]
    exact ⟨_, rfl, ⟨h.file, h.schema, h.idIndex, h.ukIndexes, h.slots, h.next, h.tail⟩, rfl⟩
  · rw [if_neg hnil, if_neg hnil]
    obtain ⟨id, hscan⟩ := Option.isSome_iff_exists.1 (hid hnil)
    obtain ⟨tc, hrow, hslots, hnext, hfile, hschema, hindex, huks⟩ :=
      scanRow_bare h.slots h.next id line.text scan.offset
    rw [h.schema, hscan]
    simp only [Option.bind_some]
    rw [hrow]
    refine ⟨_, rfl, ⟨hfile.trans h.file, hschema.trans h.schema, hindex.trans h.idIndex,
      huks.trans h.ukIndexes, hslots, ?_, fun hdone => ?_⟩, rfl⟩
    · rw [hnext, List.length_append]
      simp only [List.length_singleton, Nat.cast_add, Nat.cast_one]
      omega
    · exact absurd hdone (by simp)

theorem Scanned.lines {file : Bytes} {last : CsvLine} : ∀ {lines : List CsvLine}
    {done : List (Nat × Bytes)} {scan : Scan}, Scanned file done scan →
      (∀ line ∈ lines ++ [last], line.Fine) →
      (∀ line ∈ lines ++ [last], line.text ≠ [] →
        (scanId (openTable file).schema line.text).isSome) →
      ∃ scan', (lines.map (fun line => line.bytes ++ [10]) ++
          (if last.bytes = [] then [] else [last.bytes])).foldlM (scanLine true) scan = some scan' ∧
        Scanned file (done ++ rowsFrom scan.offset (lines ++ [last])) scan'
  | [], done, scan, h, hfine, hid => by
      have hlast : last.Fine := hfine last (by simp)
      by_cases hnil : last.bytes = []
      · have htext : last.text = [] := by
          rw [CsvLine.bytes, List.append_eq_nil_iff] at hnil
          exact hnil.1
        refine ⟨scan, by rw [if_pos hnil]; rfl, ?_⟩
        rw [List.nil_append, rowsFrom, if_pos htext, rowsFrom, List.append_nil]
        exact h
      · obtain ⟨scan', hscan, h', -⟩ := h.line hlast (Or.inl rfl) (hid last (by simp))
        rw [List.append_nil] at hscan
        refine ⟨scan', ?_, ?_⟩
        · rw [if_neg hnil, List.map_nil, List.nil_append, List.foldlM_cons, hscan]
          rfl
        · rw [List.nil_append, rowsFrom, rowsFrom]
          split at h'
          · rename_i htext
            rw [if_pos htext, List.append_nil]
            exact h'
          · rename_i htext
            rw [if_neg htext]
            exact h'
  | line :: lines, done, scan, h, hfine, hid => by
      obtain ⟨scan₁, hscan, h₁, hoffset⟩ :=
        h.line (hfine line (by simp)) (Or.inr rfl) (hid line (by simp))
      obtain ⟨scan', hrest, h'⟩ := Scanned.lines h₁
        (fun l hl => hfine l (List.mem_cons_of_mem line hl))
        (fun l hl => hid l (List.mem_cons_of_mem line hl))
      refine ⟨scan', ?_, ?_⟩
      · rw [List.map_cons, List.cons_append, List.foldlM_cons, hscan]
        exact hrest
      · rw [List.length_append, List.length_singleton, ← Nat.add_assoc] at hoffset
        rw [List.cons_append, rowsFrom]
        split at h'
        · rename_i htext
          rw [if_pos htext, ← hoffset]
          exact h'
        · rename_i htext
          rw [if_neg htext, ← hoffset]
          rw [List.append_assoc, List.singleton_append] at h'
          exact h'

/-! ## The scanned table -/

/-- The rows of the file with their offsets. -/
def CsvFile.placed (csv : CsvFile) : List (Nat × Bytes) :=
  rowsFrom (csv.header.bytes.length + 1) (csv.lines ++ [csv.last])

namespace CsvFile

variable {csv : CsvFile}

theorem placed_rows (csv : CsvFile) : csv.placed.map Prod.snd = csv.rows :=
  rowsFrom_texts _ _

theorem mem_rows {line : CsvLine} (hline : line ∈ csv.lines ++ [csv.last]) (hne : line.text ≠ []) :
    line.text ∈ csv.rows := by
  rw [rows, List.mem_filter]
  exact ⟨List.mem_map_of_mem hline, by simpa using hne⟩

theorem WellFormed.fgets_header (h : csv.WellFormed) :
    fgets RECORD_SIZE csv.bytes = (csv.header.bytes ++ [10], csv.body) :=
  fgets_line (h.fine csv.header List.mem_cons_self).fits

theorem WellFormed.schema_eq (h : csv.WellFormed) : (openTable csv.bytes).schema = csv.schema := by
  unfold openTable
  rw [h.fgets_header]
  rfl

theorem WellFormed.scanId (h : csv.WellFormed) {row : Bytes} (hrow : row ∈ csv.rows) :
    (scanId csv.schema row).isSome := by
  unfold Legacy.scanId
  cases hpk : csv.schema.pkIdx with
  | none => rfl
  | some pk =>
      have hid := h.ids row hrow pk hpk
      rw [fieldLong] at hid
      rw [Option.bind_some]
      cases hfield : field row pk with
      | none => rfl
      | some value =>
          rw [hfield] at hid
          exact hid

theorem WellFormed.scan (h : csv.WellFormed) :
    ∃ scan, scanTable true csv.bytes = some scan ∧ Scanned csv.bytes csv.placed scan := by
  have hfine : ∀ line ∈ csv.lines ++ [csv.last], line.Fine :=
    fun line hline => h.fine line (List.mem_cons_of_mem _ hline)
  have hstart : Scanned csv.bytes []
      ⟨openTable csv.bytes, (fgets RECORD_SIZE csv.bytes).1.length, 1⟩ :=
    ⟨rfl, rfl, rfl, rfl, rfl, rfl, fun _ => rfl⟩
  obtain ⟨scan, hscan, hscanned⟩ := hstart.lines hfine fun line hline hne => by
    rw [h.schema_eq]
    exact h.scanId (mem_rows hline hne)
  have hlines : ∀ line ∈ csv.lines.map CsvLine.bytes, Fits RECORD_SIZE line := by
    intro line hline
    obtain ⟨l, hl, rfl⟩ := List.mem_map.1 hline
    exact (hfine l (List.mem_append_left _ hl)).fits
  refine ⟨scan, ?_, ?_⟩
  · unfold scanTable
    rw [← hscan, h.fgets_header, body,
      readLines_unlines (hfine csv.last (by simp)).fits hlines, List.map_map]
    rfl
  · have hlen : (fgets RECORD_SIZE csv.bytes).1.length = csv.header.bytes.length + 1 := by
      rw [h.fgets_header, List.length_append, List.length_singleton]
    simp only [List.nil_append, hlen] at hscanned
    exact hscanned

theorem WellFormed.rowAt (h : csv.WellFormed) :
    ∀ e ∈ csv.placed, rowAt csv.bytes e.1 = some e.2 := by
  have hfront : csv.bytes = (csv.header.bytes ++ [10]) ++ csv.body := by
    rw [bytes, List.append_assoc, List.singleton_append]
  have hlen : csv.header.bytes.length + 1 = (csv.header.bytes ++ [10]).length := by
    rw [List.length_append, List.length_singleton]
  rw [placed, hfront, hlen, body]
  exact rowAt_rowsFrom fun line hline => h.fine line (List.mem_cons_of_mem _ hline)

end CsvFile

end MiniDbms.Legacy
