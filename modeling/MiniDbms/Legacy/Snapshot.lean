import MiniDbms.Legacy.Reach

/-!
# Index snapshots

`<table>.idx` holds the slots and the entries of the indexes, with the size and the time of
the files that they were taken from.  `load_table_parse_snapshot` reads them instead of the
rows of the CSV file, and fills the table while it reads.  Where it fails the rows are read,
and `load_index_snapshot` may still take the indexes from the snapshot.
-/

namespace MiniDbms.Legacy

open Bptree

/-! ## Lines -/

/-- `read_expected_line`, over a whole file. -/
def expectedLines (idx : Bytes) : List Bytes :=
  (readLines DELTA_LINE_SIZE idx).map fun line => (cstr line).takeWhile (!isLineEnd ·)

/-- The next line, if there is one, and what is made of it. -/
def takeLine {α : Type} (scan : Bytes → Option α) : List Bytes → Option (α × List Bytes)
  | [] => none
  | line :: lines => (scan line).map (·, lines)

/-- One number that `sscanf` or `strtol` reads; a number that is too large saturates. -/
def scanLong (s : Bytes) : Option (Int × Bytes) :=
  let (negative, digits) := takeSign (s.dropWhile isSpace)
  let number := digits.takeWhile isDigit
  if number = [] then none
  else
    some (max LONG_MIN (min LONG_MAX
      (if negative then -(digitsVal number : Int) else digitsVal number)),
      digits.dropWhile isDigit)

/-- A `long` in an `int`. -/
def wrapInt (n : Int) : Int := (n + 2 ^ 31) % 2 ^ 32 - 2 ^ 31

/-- `%d` and `%ld`. -/
inductive Conversion
  | int
  | long

/-- Numbers, with any space in front of each. -/
def scanNumbers : List Conversion → Bytes → Option (List Int)
  | [], _ => some []
  | conversion :: conversions, s => do
    let (n, rest) ← scanLong s
    let ns ← scanNumbers conversions rest
    match conversion with
    | .int => some (wrapInt n :: ns)
    | .long => some (n :: ns)

/-- `sscanf` of a word and numbers behind it. -/
def sscanf (word : Bytes) (conversions : List Conversion) (line : Bytes) : Option (List Int) :=
  if word <+: line then scanNumbers conversions (line.drop word.length) else none

/-- `atoi`. -/
def atoi (s : Bytes) : Int := wrapInt (((scanLong s).map Prod.fst).getD 0)

/-! ## The files of a table -/

/-- `get_file_stamp`. -/
structure FileStamp where
  present : Int := 0
  size : Int := 0
  mtime : Int := 0
deriving DecidableEq

/-- The files of a table; the CSV file and the delta log have the times of their last change. -/
structure TableFiles where
  name : Bytes
  csv : Bytes
  csvMtime : Int
  delta : Option (Bytes × Int)
  idx : Option Bytes

def TableFiles.csvStamp (files : TableFiles) : FileStamp := ⟨1, files.csv.length, files.csvMtime⟩

def TableFiles.deltaStamp (files : TableFiles) : FileStamp :=
  match files.delta with
  | none => {}
  | some (log, mtime) => ⟨1, log.length, mtime⟩

/-! ## The head of a snapshot -/

/-- The line `ROWS`. -/
structure RowsLine where
  recordCount : Int
  activeCount : Int
  cacheTruncated : Int
  tailCount : Int
  nextAutoId : Int
  nextRowId : Int
deriving DecidableEq

def scanStamp (word line : Bytes) : Option FileStamp :=
  match sscanf word [.int, .long, .long] line with
  | some [present, size, mtime] => some ⟨present, size, mtime⟩
  | _ => none

def scanRowsLine (line : Bytes) : Option RowsLine :=
  match sscanf (str "ROWS") [.int, .int, .int, .int, .long, .long] line with
  | some [recordCount, activeCount, cacheTruncated, tailCount, nextAutoId, nextRowId] =>
    some ⟨recordCount, activeCount, cacheTruncated, tailCount, nextAutoId, nextRowId⟩
  | _ => none

/-- `sscanf(line, "TABLE %255s", ·)`. -/
def scanTableName (line : Bytes) : Option Bytes :=
  if str "TABLE" <+: line then
    let name := (((line.drop 5).dropWhile isSpace).takeWhile (!isSpace ·)).take 255
    if name = [] then none else some name
  else none

/-- The pointer behind a number and the space that follows. -/
def skipToken (s : Bytes) : Bytes := (s.dropWhile (!isSpace ·)).dropWhile isSpace

def scanColumns : Nat → Bytes → Option (List Int)
  | 0, _ => some []
  | n + 1, s => do
    let (col, _) ← scanLong s
    let cols ← scanColumns n (skipToken s)
    some (wrapInt col :: cols)

/-- Whether the line `SCHEMA` is that of the table. -/
def Schema.hasLine (schema : Schema) (line : Bytes) : Bool :=
  if str "SCHEMA " <+: line then
    let p := line.drop 7
    match scanNumbers [.int, .int, .int] p with
    | some [colCount, pkIdx, ukCount] =>
      match scanColumns (min ukCount.toNat MAX_UKS) (skipToken (skipToken (skipToken p))) with
      | some cols =>
        colCount == schema.cols.length && pkIdx == (schema.pkIdx.map Int.ofNat).getD (-1) &&
          ukCount == schema.ukIndices.length && cols == schema.ukIndices.map Int.ofNat
      | none => false
    | _ => false
  else false

/-- The lines up to `ROWS`, of one of these versions.  A stamp of the delta log counts where
there is none, or always. -/
def TableFiles.readHead (files : TableFiles) (schema : Schema) (versions : List Bytes)
    (deltaCounts : Bool) (lines : List Bytes) : Option ((Bytes × RowsLine) × List Bytes) := do
  let (version, lines) ← takeLine some lines
  let (name, lines) ← takeLine scanTableName lines
  let (csv, lines) ← takeLine (scanStamp (str "CSV")) lines
  let (delta, lines) ← takeLine (scanStamp (str "DELTA")) lines
  let (schemaLine, lines) ← takeLine some lines
  let (rows, lines) ← takeLine scanRowsLine lines
  if version ∈ versions ∧ name = files.name ∧ csv = files.csvStamp ∧
      (deltaCounts = true ∨ files.delta = none → delta = files.deltaStamp) ∧
      schema.hasLine schemaLine = true then
    some ((version, rows), lines)
  else none

namespace TableCache

variable (tc : TableCache)

/-! ## The sections -/

/-- `slot_is_active` of an `int`. -/
def rowIsActive (row : Int) : Bool := decide (0 ≤ row) && tc.slotIsActive row.toNat

/-- The lines of the section `ID`. -/
def readIdPairs : Nat → List Bytes → Option (List (Int × Nat) × List Bytes)
  | 0, lines => some ([], lines)
  | n + 1, lines =>
    match takeLine (sscanf [] [.long, .int]) lines with
    | some ([key, row], lines) =>
      if tc.rowIsActive row then (readIdPairs n lines).map fun e => ((key, row.toNat) :: e.1, e.2)
      else none
    | _ => none

/-- The lines of a section `UK`: a row, a tab and the key. -/
def readUkPairs : Nat → List Bytes → Option (List (Bytes × Nat) × List Bytes)
  | 0, lines => some ([], lines)
  | n + 1, lines =>
    match takeLine some lines with
    | none => none
    | some (line, lines) =>
      match line.dropWhile (· != 9) with
      | [] => none
      | _ :: key =>
        let row := atoi (line.takeWhile (· != 9))
        if tc.rowIsActive row then (readUkPairs n lines).map fun e => ((key, row.toNat) :: e.1, e.2)
        else none

/-- The sections `UK` of these columns. -/
def readUkSections : List Nat → List Bytes → Option (List UniqueIndex × List Bytes)
  | [], lines => some ([], lines)
  | col :: cols, lines =>
    match takeLine (sscanf (str "UK") [.int, .int]) lines with
    | some ([colIdx, count], lines) =>
      if colIdx = col ∧ 0 ≤ count ∧ count ≤ tc.activeTally then
        match tc.readUkPairs count.toNat lines with
        | none => none
        | some (pairs, lines) =>
          match bptreeStringBuildFromSorted (create Bytes) pairs with
          | (_, false) => none
          | (tree, true) => (readUkSections cols lines).map fun e => (⟨col, tree⟩ :: e.1, e.2)
      else none
    | _ => none

/-- From the line `UKSECTIONS` to `END`. -/
def readUks (lines : List Bytes) : Option (List UniqueIndex) :=
  match takeLine (sscanf (str "UKSECTIONS") [.int]) lines with
  | some ([count], lines) =>
    if count = tc.schema.ukIndices.length then
      match tc.readUkSections tc.schema.ukIndices lines with
      | some (indexes, line :: _) => if line = str "END" then some indexes else none
      | _ => none
    else none
  | _ => none

/-- The section `ID`. -/
def readIds (lines : List Bytes) : Option (List (Int × Nat) × List Bytes) :=
  match takeLine (sscanf (str "ID") [.int]) lines with
  | some ([count], lines) =>
    if count = tc.activeTally then tc.readIdPairs count.toNat lines else none
  | _ => none

/-! ## `load_table_parse_snapshot` -/

/-- As many slots as the snapshot says, none of them active. -/
def announceSlots (recordCount : Nat) : TableCache :=
  { tc with
    slots := (List.range recordCount).map fun i => (tc.slots[i]?).getD {}
    activeTally := 0
    tail := []
    uncachedStart := none }

/-- The lines of the section `SLOTS`, from a slot on: the table, and how many slots were
active and the lines behind the section if all were there. -/
def readSlots : Nat → Nat → Int → TableCache → List Bytes →
    TableCache × Option (Int × List Bytes)
  | 0, _, seen, tc, lines => (tc, some (seen, lines))
  | todo + 1, i, seen, tc, lines =>
    match takeLine (sscanf [] [.int, .int, .long, .int, .long]) lines with
    | some ([slotId, active, rowId, _, offset], lines) =>
      if slotId ≠ i then (tc, none)
      else if active ≠ 0 then
        readSlots todo (i + 1) (seen + 1)
          (tc.setSlot i { active := true, rowId := rowId, store := .csv, offset := offset }) lines
      else
        readSlots todo (i + 1) seen
          { tc.setSlot i { rowId := rowId } with freeSlots := tc.freeSlots ++ [i] } lines
    | _ => (tc, none)

/-- The part behind the line `ROWS`. -/
def readSections (rows : RowsLine) (lines : List Bytes) : TableCache × Bool :=
  let tc := tc.announceSlots rows.recordCount.toNat
  match takeLine (sscanf (str "SLOTS") [.int]) lines with
  | some ([slotCount], lines) =>
    if slotCount ≠ rows.recordCount then (tc, false)
    else
      match readSlots slotCount.toNat 0 0 tc lines with
      | (tc, none) => (tc, false)
      | (tc, some (seen, lines)) =>
        if seen ≠ rows.activeCount then (tc, false)
        else
          let tc := { tc with activeTally := seen }
          match tc.readIds lines with
          | none => (tc, false)
          | some (idPairs, lines) =>
            match bptreeBuildFromSorted tc.idIndex idPairs with
            | (tree, false) => ({ tc with idIndex := tree }, false)
            | (tree, true) =>
              let tc := { tc with idIndex := tree }
              match tc.readUks lines with
              | none => (tc, false)
              | some ukIndexes =>
                ({ tc with
                    ukIndexes := ukIndexes
                    nextAutoId := rows.nextAutoId
                    nextRowId := rows.nextRowId }, true)
  | _ => (tc, false)

end TableCache

/-- The snapshot up to the line `ROWS`, where `load_table_parse_snapshot` accepts that much. -/
def TableFiles.parsedHead (files : TableFiles) (schema : Schema) : Option (RowsLine × List Bytes) :=
  if files.name = [] then none
  else
    match files.idx.bind fun idx =>
        files.readHead schema [str "SQLPROC_IDX_V2"] false (expectedLines idx) with
    | none => none
    | some ((_, rows), lines) =>
      if 0 ≤ rows.recordCount ∧ rows.recordCount ≤ MAX_RECORDS ∧ 0 ≤ rows.activeCount ∧
          rows.cacheTruncated = 0 ∧ rows.tailCount = 0 then some (rows, lines)
      else none

namespace TableCache

variable (tc : TableCache)

/-- `load_table_parse_snapshot`: the table, and whether it returns 1. -/
def loadTableParseSnapshot (files : TableFiles) : TableCache × Bool :=
  match files.parsedHead tc.schema with
  | none => (tc, false)
  | some (rows, lines) => tc.readSections rows lines

end TableCache

/-! ## `load_index_snapshot` -/

/-- What `load_index_snapshot` takes from a snapshot. -/
structure IndexSnapshot where
  rows : RowsLine
  idPairs : List (Int × Nat)
  ukIndexes : List UniqueIndex

namespace TableCache

variable (tc : TableCache)

/-- The section `SLOTS` is only counted. -/
def skipSlots (lines : List Bytes) : Option (List Bytes) :=
  match takeLine (sscanf (str "SLOTS") [.int]) lines with
  | some ([slotCount], lines) =>
    if slotCount = tc.slots.length ∧ tc.slots.length ≤ lines.length then
      some (lines.drop tc.slots.length)
    else none
  | _ => none

/-- A snapshot that `load_index_snapshot` accepts, but for the order of the ids. -/
def readIndexSnapshot (files : TableFiles) : Option IndexSnapshot :=
  if files.name = [] ∨ tc.uncachedStart.isSome then none
  else
    match files.idx.bind fun idx =>
        files.readHead tc.schema [str "SQLPROC_IDX_V2", str "SQLPROC_IDX_V1"] true
          (expectedLines idx) with
    | none => none
    | some ((version, rows), lines) =>
      if rows.recordCount = tc.slots.length ∧ rows.activeCount = tc.activeTally ∧
          rows.cacheTruncated = 0 ∧ rows.tailCount = tc.tail.length then do
        let lines ← if version = str "SQLPROC_IDX_V2" then tc.skipSlots lines else some lines
        let (idPairs, lines) ← tc.readIds lines
        let ukIndexes ← tc.readUks lines
        some { rows := rows, idPairs := idPairs, ukIndexes := ukIndexes }
      else none

/-- The ids of a table without a PK are the numbers of its rows. -/
def numberRows (idPairs : List (Int × Nat)) : TableCache :=
  { tc with
    slots :=
      if tc.schema.pkIdx.isSome then tc.slots
      else
        idPairs.foldl (fun slots e =>
          slots.set e.2 { (slots[e.2]?).getD {} with rowId := e.1 }) tc.slots }

/-- `load_index_snapshot`: the table, and whether it returns 1. -/
def loadIndexSnapshot (files : TableFiles) : TableCache × Bool :=
  match tc.readIndexSnapshot files with
  | none => (tc, false)
  | some snapshot =>
    match bptreeBuildFromSorted tc.idIndex snapshot.idPairs with
    | (tree, false) => ({ tc with idIndex := tree }, false)
    | (tree, true) =>
      ({ tc.numberRows snapshot.idPairs with
          idIndex := tree
          ukIndexes := snapshot.ukIndexes
          nextAutoId := snapshot.rows.nextAutoId
          nextRowId := snapshot.rows.nextRowId }, true)

/-! ## `load_table_contents` -/

/-- `scanRow` of a table whose `active_count` may differ from its active slots. -/
def resumeRow (hasDelta : Bool) (id : Int) (row : Bytes) (offset : Nat) : Option TableCache :=
  let rowId := tc.nextRowId
  let key := if tc.schema.pkIdx.isSome then id else rowId
  let tc := { tc with nextRowId := rowId + 1 }
  if tc.activeTally < (MAX_RECORDS : Int) then do
    let tc' ← tc.appendRecordRawMemory rowId offset
    if hasDelta then some tc' else tc'.indexLoadedRow key row tc.slots.length
  else
    some { tc with
      tail := insertTail key offset tc.tail
      uncachedStart := some (tc.uncachedStart.getD offset) }

end TableCache

/-- `scanLine` for `resumeRow`. -/
def resumeLine (hasDelta : Bool) (scan : Scan) (line : Bytes) : Option Scan := do
  let row ← chomp RECORD_SIZE line
  let offset := scan.offset + line.length
  if row = [] then some { scan with offset := offset }
  else
    let id ← scanId scan.tc.schema row
    let tc ← scan.tc.resumeRow hasDelta id row scan.offset
    some
      { tc := tc
        offset := offset
        fileNextAutoId :=
          if scan.tc.schema.pkIdx.isSome ∧ scan.fileNextAutoId ≤ id then wrapL (id + 1)
          else scan.fileNextAutoId }

namespace TableCache

variable (tc : TableCache)

/-- The rows of the file, into a table that may have slots already. -/
def readRows (files : TableFiles) : Option Scan :=
  (readLines RECORD_SIZE (fgets RECORD_SIZE files.csv).2).foldlM (resumeLine files.delta.isSome)
    ⟨tc, (fgets RECORD_SIZE files.csv).1.length, 1⟩

/-- The part of `load_table_contents` behind a snapshot that was not accepted. -/
def loadRows (files : TableFiles) : Option TableCache := do
  let scan ← tc.readRows files
  match files.delta with
  | none =>
    let tc := if scan.tc.activeTally = 0 then scan.tc else (scan.tc.loadIndexSnapshot files).1
    some (tc.raiseAutoId scan.fileNextAutoId)
  | some (log, _) =>
    if scan.tc.activeTally = 0 ∧ scan.tc.tail = [] then
      some (scan.tc.raiseAutoId scan.fileNextAutoId)
    else
      let tc ← replayDeltaLog applyDeltaOps log scan.tc
      match tc.loadIndexSnapshot files with
      | (tc, true) => some tc
      | (tc, false) =>
        let tc ← tc.rebuildIdIndex
        let tc ← tc.rebuildUkIndexes
        some (tc.raiseAutoId scan.fileNextAutoId)

end TableCache

/-- `load_table_contents`. -/
def TableFiles.loadTableContents (files : TableFiles) : Option TableCache :=
  match (openTable files.csv).loadTableParseSnapshot files with
  | (tc, true) =>
    match files.delta with
    | none => some tc
    | some (log, _) => replayDeltaLog TableCache.applyDeltaOps log tc
  | (tc, false) => tc.loadRows files

end MiniDbms.Legacy
