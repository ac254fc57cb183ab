import MiniDbms.Legacy.TableCache
import Mathlib.Data.List.DropRight

/-!
# Loading a table

`load_table_contents` when there is no `.idx` file: the scan of the CSV file and,
where there is a delta log, its replay.
-/

namespace MiniDbms.Legacy

open Bptree

/-- The table, the offset of the next line, and `file_next_auto_id`. -/
structure Scan where
  tc : TableCache
  offset : Nat
  fileNextAutoId : Int := 1

/-- `append_tail_pk_offset`: behind the last id that is not greater. -/
def insertTail (id : Int) (offset : Nat) (tail : List (Int × Nat)) : List (Int × Nat) :=
  tail.rdropWhile (id < ·.1) ++ (id, offset) :: tail.rtakeWhile (id < ·.1)

/-- The PK value of a row; a row without the field counts as 0. -/
def scanId (schema : Schema) (row : Bytes) : Option Int :=
  match schema.pkIdx.bind (field row) with
  | none => some 0
  | some value => parseLongValue value

namespace TableCache

/-- `append_record_raw_memory`. -/
def appendRecordRawMemory (tc : TableCache) (rowId : Int) (offset : Nat) : Option TableCache :=
  if MAX_RECORDS ≤ tc.slots.length then none
  else
    some { tc with
      slots := tc.slots ++ [{ active := true, rowId := rowId, store := .csv, offset := offset }]
      activeTally := tc.activeTally + 1 }

/-- The index entries of a row that is loaded without a delta log. -/
def indexLoadedRow (tc : TableCache) (key : Int) (row : Bytes) (slotId : Nat) :
    Option TableCache :=
  match bptreeInsert tc.idIndex key slotId with
  | none => none
  | some tree => succeeded ({ tc with idIndex := tree }.indexRecordUksFromRow row slotId)

/-- A row of the file that has a number and a PK value, at an offset. -/
def scanRow (tc : TableCache) (hasDelta : Bool) (id : Int) (row : Bytes) (offset : Nat) :
    Option TableCache :=
  let rowId := tc.nextRowId
  let key := if tc.schema.pkIdx.isSome then id else rowId
  let tc := { tc with nextRowId := rowId + 1 }
  if tc.activeCount < MAX_RECORDS then do
    let tc' ← tc.appendRecordRawMemory rowId offset
    if hasDelta then some tc' else tc'.indexLoadedRow key row tc.slots.length
  else
    some { tc with
      tail := insertTail key offset tc.tail
      uncachedStart := some (tc.uncachedStart.getD offset) }

/-- Raise `next_auto_id` to what the file needs. -/
def raiseAutoId (tc : TableCache) (next : Int) : TableCache :=
  { tc with nextAutoId := max tc.nextAutoId next }

end TableCache

/-- One round of the loop of `load_table_contents`. -/
def scanLine (hasDelta : Bool) (scan : Scan) (line : Bytes) : Option Scan := do
  let row ← chomp RECORD_SIZE line
  let offset := scan.offset + line.length
  if row = [] then some { scan with offset := offset }
  else
    let id ← scanId scan.tc.schema row
    let tc ← scan.tc.scanRow hasDelta id row scan.offset
    some
      { tc := tc
        offset := offset
        fileNextAutoId :=
          if scan.tc.schema.pkIdx.isSome ∧ scan.fileNextAutoId ≤ id then wrapL (id + 1)
          else scan.fileNextAutoId }

/-- The empty table of a header line, before any row is read. -/
def openTable (file : Bytes) : TableCache :=
  let schema := parseHeader (fgets RECORD_SIZE file).1
  { file := file
    schema := schema
    ukIndexes := schema.ukIndices.map fun col => ⟨col, create Bytes⟩ }

/-- The rows of the file. -/
def scanTable (hasDelta : Bool) (file : Bytes) : Option Scan :=
  (readLines RECORD_SIZE (fgets RECORD_SIZE file).2).foldlM (scanLine hasDelta)
    ⟨openTable file, (fgets RECORD_SIZE file).1.length, 1⟩

/-- `load_table_contents` without a usable `.idx` file, on the CSV file and the delta
log if there is one. -/
def loadTableContents (file : Bytes) (delta : Option Bytes) : Option TableCache := do
  let scan ← scanTable delta.isSome file
  match delta with
  | none => some (scan.tc.raiseAutoId scan.fileNextAutoId)
  | some log =>
    if scan.tc.activeCount = 0 ∧ scan.tc.tail = [] then
      some (scan.tc.raiseAutoId scan.fileNextAutoId)
    else
      let tc ← replayDeltaLog TableCache.applyDeltaOps log scan.tc
      let tc ← tc.rebuildIdIndex
      let tc ← tc.rebuildUkIndexes
      some (tc.raiseAutoId scan.fileNextAutoId)

end MiniDbms.Legacy
