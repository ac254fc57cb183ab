import MiniDbms.Legacy.Load
import MiniDbms.Db.Number

/-!
# INSERT of the legacy executor

`insert_row_data`: the row is built from the VALUES text, placed in a slot and in the
indexes, and then appended to the CSV file.  A full table is compacted first when it has
a delta log, and further rows are only appended to the file.
-/

namespace MiniDbms.Legacy

open Bptree

/-- The messages of `insert_row_data`, with what they print. -/
inductive InsertError
  | tooManyValues
  | pkNotInteger (column : Bytes)
  | duplicatePk (value : Bytes)
  | notNull (column : Bytes)
  | pkEmpty (column : Bytes)
  | ukUnavailable
  | duplicateUk (value : Bytes)
  | rowTooLong
  | compaction
  | index
deriving DecidableEq

/-- The text behind `[error] INSERT failed: `, for a table of this name. -/
def InsertError.text (table : Bytes) : InsertError → Bytes
  | .tooManyValues => str "too many values for table '" ++ table ++ str "'."
  | .pkNotInteger column => str "PK column '" ++ column ++ str "' must be an integer."
  | .duplicatePk value => str "duplicate PK value " ++ value ++ str "."
  | .notNull column => str "column '" ++ column ++ str "' violates NN constraint."
  | .pkEmpty column => str "PK column '" ++ column ++ str "' is empty."
  | .ukUnavailable => str "UK index is not available."
  | .duplicateUk value => str "'" ++ value ++ str "' violates UK constraint."
  | .rowTooLong => str "row is too long."
  | .compaction => str "could not compact pending delta log before tail append."
  | .index => str "could not update B+ tree index or RowRef store."

/-- `compare_value`: only the first 255 bytes count. -/
def compareValue (field searchVal : Bytes) : Bool := normV 256 field == normV 256 searchVal

namespace TableCache

variable (tc : TableCache)

/-! ## The row -/

/-- The entry of the `i`-th UK index for a key. -/
def ukSearch (i : Nat) (key : Bytes) : Option Nat :=
  (tc.ukIndexes[i]?).bind fun index => search index.tree key

/-- `get_uk_slot`. -/
def getUkSlot (col : Nat) : Option Nat := tc.schema.ukIndices.findIdx? (· == col)

/-- `unique_index_find` in the `i`-th UK index: a row that is gone does not count. -/
def uniqueIndexFind (i : Nat) (key : Bytes) : Option Nat :=
  if key = [] then none else (tc.ukSearch i key).filter tc.slotIsActive

def columnName (col : Nat) : Bytes := ((tc.schema.cols[col]?).map (·.name.bytes)).getD []

/-- Whether the PK value is left to `next_auto_id`. -/
def hasAutoId (vals : List Bytes) (pk : Nat) : Bool :=
  let value := (vals[pk]?).getD []
  (vals.length + 1 == tc.schema.cols.length && pk == 0) || value == [] ||
    compareValue value (str "NULL")

/-- The PK value of the new row, and whether it is an automatic one. -/
def insertId (vals : List Bytes) : Except InsertError (Int × Bool) :=
  match tc.schema.pkIdx with
  | none => .ok (0, false)
  | some pk =>
    let auto := tc.hasAutoId vals pk
    match if auto then some tc.nextAutoId else parseLongValue ((vals[pk]?).getD []) with
    | none => .error (.pkNotInteger (tc.columnName pk))
    | some id =>
      if (search tc.idIndex id).any tc.slotIsActive then .error (.duplicatePk (printL id))
      else .ok (id, auto)

/-- The value of a column.  With an automatic id in the first column the values are those
of the columns behind it, also where the text has a value for the PK. -/
def insertSource (vals : List Bytes) (id : Int) (auto : Bool) (i : Nat) : Bytes :=
  if auto ∧ tc.schema.pkIdx = some i then printL id
  else
    let source := if auto ∧ tc.schema.pkIdx = some 0 then i - 1 else i
    normV RECORD_SIZE ((vals[source]?).getD [])

/-- The constraints of one column. -/
def checkSource (i : Nat) (type : ColumnType) (source : Bytes) : Except InsertError Unit :=
  if type = .nn ∧ source = [] then .error (.notNull (tc.columnName i))
  else if tc.schema.pkIdx = some i ∧ source = [] then .error (.pkEmpty (tc.columnName i))
  else if type = .uk ∧ source ≠ [] then
    match tc.getUkSlot i with
    | none => .error .ukUnavailable
    | some uk =>
      if (tc.uniqueIndexFind uk source).isSome then .error (.duplicateUk source) else .ok ()
  else .ok ()

end TableCache

/-- A value with a comma is put in quotes; the buffer may cut off its end. -/
def csvField (source : Bytes) : Bytes :=
  if comma ∈ source then quote :: source.take (RECORD_SIZE - 3) ++ [quote] else source

namespace TableCache

variable (tc : TableCache)

/-- One round of the loop of `build_insert_row`. -/
def buildColumn (vals : List Bytes) (id : Int) (auto : Bool) (line : Bytes)
    (column : ColumnInfo × Nat) : Except InsertError Bytes := do
  let source := tc.insertSource vals id auto column.2
  tc.checkSource column.2 column.1.type source
  let text := csvField source ++
    if column.2 + 1 < tc.schema.cols.length then [comma] else []
  if RECORD_SIZE ≤ line.length + text.length then .error .rowTooLong else .ok (line ++ text)

/-- `build_insert_row`: the PK value and the line of the new row. -/
def buildInsertRow (vals : List Bytes) : Except InsertError (Int × Bytes) := do
  if tc.schema.cols.length < vals.length then .error .tooManyValues
  else
    let (id, auto) ← tc.insertId vals
    let line ← tc.schema.cols.zipIdx.foldlM (tc.buildColumn vals id auto) []
    .ok (id, line)

/-! ## Looking through the file -/

/-- The lines that `for_each_file_row_from` reads: those behind the slots, or all behind
the header. -/
def fileLines : List Bytes :=
  match tc.uncachedStart with
  | some start =>
    if 0 < start then readLines RECORD_SIZE (tc.file.drop start)
    else readLines RECORD_SIZE (fgets RECORD_SIZE tc.file).2
  | none => readLines RECORD_SIZE (fgets RECORD_SIZE tc.file).2

end TableCache

/-- `find_value_visitor` over the lines; one that is too long ends the search. -/
def linesHaveValue (col : Nat) (value : Bytes) : List Bytes → Bool
  | [] => false
  | line :: lines =>
    match chomp RECORD_SIZE line with
    | none => false
    | some row =>
      if row = [] then linesHaveValue col value lines
      else compareValue ((field row col).getD []) value || linesHaveValue col value lines

namespace TableCache

variable (tc : TableCache)

/-- `table_file_has_value`, on a field that may be missing. -/
def tableFileHasValue (col : Nat) : Option Bytes → Bool
  | none => false
  | some value => value != [] && linesHaveValue col value tc.fileLines

/-- `validate_file_duplicates_for_uncached_insert`. -/
def validateFileDuplicates (line : Bytes) : Except InsertError Unit :=
  if tc.uncachedStart = none ∧ tc.activeCount < MAX_RECORDS then .ok ()
  else
    match tc.schema.pkIdx.filter fun pk => tc.tableFileHasValue pk (field line pk) with
    | some pk => .error (.duplicatePk ((field line pk).getD []))
    | none =>
      match tc.schema.ukIndices.find? fun col => tc.tableFileHasValue col (field line col) with
      | some col => .error (.duplicateUk ((field line col).getD []))
      | none => .ok ()

/-- Whether the lines are looked through for a value. -/
def scansFile (line : Bytes) : Bool :=
  !(tc.uncachedStart == none && tc.activeCount < MAX_RECORDS) &&
    (tc.schema.pkIdx.any (fun pk => (field line pk).any (· != [])) ||
      tc.schema.ukIndices.any fun col => (field line col).any (· != []))

/-- The table behind that: the file stands at its end. -/
def soughtFor (line : Bytes) : TableCache := if tc.scansFile line then tc.seekEnd else tc

/-! ## The slot and the indexes -/

/-- `take_record_slot(tc, 1, ·)`. -/
def takeRecordSlot : Option (Nat × TableCache) :=
  match tc.freeSlots.getLast? with
  | some slotId => some (slotId, { tc with freeSlots := tc.freeSlots.dropLast })
  | none =>
    if MAX_RECORDS ≤ tc.slots.length then none
    else some (tc.slots.length, { tc with slots := tc.slots ++ [{}] })

/-- The slot becomes active with a row at an offset of the file. -/
def placeRow (slotId offset : Nat) : TableCache :=
  { tc.setSlot slotId
      { active := true, rowId := tc.nextRowId, store := .csv, offset := offset } with
    nextRowId := tc.nextRowId + 1
    activeTally := tc.activeTally + 1 }

/-- The entry of a row that is gone is taken out of the id index. -/
def clearIdKey (key : Int) (slotId : Nat) : TableCache × Bool :=
  match search tc.idIndex key with
  | none => (tc, true)
  | some existing =>
    if existing ≠ slotId ∧ tc.slotIsActive existing then (tc, false)
    else
      match bptreeDelete tc.idIndex key with
      | some tree => ({ tc with idIndex := tree }, true)
      | none =>
        match tc.rebuildIdIndex with
        | some tc' => (tc', true)
        | none => (tc, false)

/-- The entries of the new row. -/
def enterRow (key : Int) (row : Bytes) (slotId : Nat) : TableCache × Bool :=
  match bptreeInsert tc.idIndex key slotId with
  | none => (tc, false)
  | some tree => { tc with idIndex := tree }.indexRecordUksFromRow row slotId

/-- Give the slot back; the indexes stay as they are. -/
def abandonSlot (slotId : Nat) : TableCache := (tc.deactivateSlot slotId).getD tc

/-- The key of a new row in the id index. -/
def newKey (id : Int) : Int := if tc.schema.pkIdx.isSome then id else tc.nextRowId

/-- `append_record_csv_indexed`. -/
def appendRecordCsvIndexed (row : Bytes) (id : Int) (offset : Nat) : TableCache × Bool :=
  match tc.takeRecordSlot with
  | none => (tc, false)
  | some (slotId, taken) =>
    match (taken.placeRow slotId offset).clearIdKey (tc.newKey id) slotId with
    | (tc', false) => (tc'.abandonSlot slotId, false)
    | (tc', true) =>
      match tc'.enterRow (tc.newKey id) row slotId with
      | (tc'', false) => (tc''.abandonSlot slotId, false)
      | (tc'', true) =>
        ({ tc'' with
            nextAutoId :=
              if tc.schema.pkIdx.isSome ∧ tc''.nextAutoId ≤ id then wrapL (id + 1)
              else tc''.nextAutoId }, true)

/-- `append_record_file`. -/
def appendRecordFile (row : Bytes) : TableCache :=
  match tc.writePos with
  | none => { tc with file := tc.file ++ row ++ [10] }
  | some (pos, offset) =>
    { tc with
      file := tc.file.take pos ++ row ++ 10 :: tc.file.drop (pos + row.length + 1)
      writePos := some (pos + row.length + 1, offset + row.length + 1) }

/-- A row that no slot holds. -/
def appendTail (row : Bytes) (id : Int) : TableCache :=
  { tc.appendRecordFile row with
    uncachedStart := some (tc.uncachedStart.getD tc.appendOffset)
    tail := insertTail (tc.newKey id) tc.appendOffset tc.tail
    nextRowId := if tc.schema.pkIdx.isSome then tc.nextRowId else tc.nextRowId + 1
    nextAutoId := if tc.nextAutoId ≤ id then wrapL (id + 1) else tc.nextAutoId }

/-! ## Compaction -/

end TableCache

/-- What stands behind the name of a column in the header. -/
def columnSuffix : ColumnType → Bytes
  | .pk => str "(PK)"
  | .uk => str "(UK)"
  | .nn => str "(NN)"
  | .normal => []

/-- `write_table_header`. -/
def headerText (schema : Schema) : Bytes :=
  if schema.cols = [] then []
  else
    [comma].intercalate (schema.cols.map fun column =>
      column.name.bytes ++ columnSuffix column.type) ++ [10]

namespace TableCache

variable (tc : TableCache)

/-- `slot_row` while the file is closed: the row cache may still have the row. -/
def heldRow (slotId : Nat) : Option Bytes :=
  (tc.slots[slotId]?).bind fun slot =>
    if slot.record = none ∧ slotId ∈ tc.evicted then none else slot.row tc.file

/-- The file that `rewrite_file` writes; a row that cannot be read stops it. -/
def compactText : Option Bytes :=
  (((List.range tc.slots.length).filter tc.slotIsActive).mapM tc.heldRow).map fun rows =>
    headerText tc.schema ++ unlines rows

/-- `rewrite_file`: the table that is loaded from the new file, if it can be loaded. -/
def rewriteFile (text : Bytes) : Option TableCache := loadTableContents text none

/-- Whether the table is full and has a delta log. -/
def compacts (hasDelta : Bool) : Prop :=
  tc.uncachedStart = none ∧ MAX_RECORDS ≤ tc.activeCount ∧ hasDelta = true

instance (hasDelta : Bool) : Decidable (tc.compacts hasDelta) := inferInstanceAs (Decidable (_ ∧ _))

/-! ## The statement -/

/-- The part of `insert_row_data` behind a compaction. -/
def insertBuilt (id : Int) (line : Bytes) : TableCache × Except InsertError Int :=
  match tc.validateFileDuplicates line with
  | .error e => (tc, .error e)
  | .ok _ =>
    if tc.uncachedStart = none ∧ (tc.activeCount < MAX_RECORDS ∨ tc.freeSlots ≠ []) then
      match tc.appendRecordCsvIndexed line id tc.appendOffset with
      | (tc', false) => (tc', .error .index)
      | (tc', true) => (tc'.appendRecordFile line, .ok id)
    else (tc.appendTail line id, .ok id)

/-- `insert_row_data` on a VALUES text: the table, if a reload has not lost it, and the
id of the new row. -/
def insertRowData (hasDelta : Bool) (rowData : Bytes) :
    Option TableCache × Except InsertError Int :=
  match tc.buildInsertRow (parseCsvRow (cstr rowData)) with
  | .error e => (some tc, .error e)
  | .ok (idValue, line) =>
    if tc.compacts hasDelta then
      match tc.compactText with
      | none => (some tc.reopened, .error .compaction)
      | some text =>
        match rewriteFile text with
        | none => (none, .error .compaction)
        | some tc' => ((tc'.soughtFor line).insertBuilt idValue line).map some id
    else ((tc.soughtFor line).insertBuilt idValue line).map some id

end TableCache

end MiniDbms.Legacy
