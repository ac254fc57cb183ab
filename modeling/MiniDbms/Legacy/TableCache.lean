import MiniDbms.Legacy.Schema
import MiniDbms.Legacy.DeltaLog
import MiniDbms.Bptree.Basic

/-!
# The table cache

A table in memory: its slots, most of which only hold the offset of a row in the
CSV file, the id index and an index for each UK column.  The row cache and the page
cache hold copies of what the file has at an offset, so a row is read from the file
here.  Allocation and I/O succeed.
-/

namespace MiniDbms.Legacy

open Bptree

def PAGE_CACHE_PAGE_SIZE : Nat := 65536

inductive RowStore
  | none
  | csv
  | memory
deriving DecidableEq

/-- A slot; `record` is the text of a row that is kept in memory only. -/
structure Slot where
  active : Bool := false
  rowId : Int := 0
  store : RowStore := .none
  offset : Int := 0
  record : Option Bytes := none
deriving DecidableEq

structure UniqueIndex where
  colIdx : Nat
  tree : BPlusTree Bytes

/-- `TableCache`.  `file` is the content of the CSV file, and `uncachedStart` the
offset of the first row behind the slots of a table that has more of them than fit.
`activeTally` is `active_count`, and `evicted` has the slots whose row is in the file
only: every read changes which these are, so it is left open.  `writePos` has the
position of the file and `append_offset` when these are not the end of the file. -/
structure TableCache where
  file : Bytes
  schema : Schema
  idIndex : BPlusTree Int := create Int
  ukIndexes : List UniqueIndex
  slots : List Slot := []
  freeSlots : List Nat := []
  tail : List (Int × Nat) := []
  uncachedStart : Option Nat := none
  nextAutoId : Int := 1
  nextRowId : Int := 1
  activeTally : Int := 0
  evicted : List Nat := []
  writePos : Option (Nat × Nat) := none

namespace TableCache

variable (tc : TableCache)

/-! ## Rows -/

def activeCount : Nat := tc.slots.countP Slot.active

def slotIsActive (slotId : Nat) : Bool := (tc.slots[slotId]?).any Slot.active

def setSlot (slotId : Nat) (slot : Slot) : TableCache :=
  { tc with slots := tc.slots.set slotId slot }

end TableCache

/-- A row of the file: up to the line end in its page or, where it reaches the end
of a full page, in a buffer of `RECORD_SIZE` bytes. -/
def rowAt (file : Bytes) (offset : Nat) : Option Bytes :=
  if file.length ≤ offset then none
  else
    let rest := file.drop offset
    let room := PAGE_CACHE_PAGE_SIZE - offset % PAGE_CACHE_PAGE_SIZE
    let text := (rest.take room).takeWhile (!isLineEnd ·)
    some (cstr (if text.length = room then (fgets RECORD_SIZE rest).1.takeWhile (!isLineEnd ·)
      else text))

def Slot.row (file : Bytes) (slot : Slot) : Option Bytes :=
  if slot.active then
    match slot.record with
    | some record => some record
    | none => if slot.store = .csv ∧ 0 ≤ slot.offset then rowAt file slot.offset.toNat else none
  else none

namespace TableCache

variable (tc : TableCache)

/-- `slot_row`. -/
def slotRow (slotId : Nat) : Option Bytes := (tc.slots[slotId]?).bind (Slot.row tc.file)

/-- The slots that hold a row, with their rows. -/
def rows : List (Nat × Bytes) :=
  tc.slots.zipIdx.filterMap fun e => (e.1.row tc.file).map (e.2, ·)

/-- `get_row_index_key`. -/
def rowIndexKey (row : Bytes) (slotId : Nat) : Option Int :=
  match tc.schema.pkIdx with
  | some pk => fieldLong row pk
  | none => ((tc.slots[slotId]?).map Slot.rowId).filter (0 < ·)

/-- `find_record_index_by_key`. -/
def findRecordIndexByKey (id : Int) : Option Nat :=
  match (search tc.idIndex id).filter tc.slotIsActive with
  | some rowIndex => some rowIndex
  | none => (tc.rows.find? fun e => tc.rowIndexKey e.2 e.1 = some id).map Prod.fst

/-- `replace_record_at`. -/
def replaceRecordAt (slotId : Nat) (row : Bytes) : Option TableCache :=
  match tc.slots[slotId]? with
  | some slot =>
    if slot.active then
      some (tc.setSlot slotId { slot with store := .memory, offset := -1, record := some row })
    else none
  | none => none

/-- `deactivate_slot(tc, slot_id, 1)`. -/
def deactivateSlot (slotId : Nat) : Option TableCache :=
  if tc.slotIsActive slotId then
    some
      { tc.setSlot slotId {} with
        freeSlots := tc.freeSlots ++ [slotId]
        activeTally := tc.activeTally - 1 }
  else none

/-! ## The file -/

/-- `append_offset`. -/
def appendOffset : Nat := (tc.writePos.map Prod.snd).getD tc.file.length

/-- `fseek(tc->file, 0, SEEK_END)`. -/
def seekEnd : TableCache :=
  { tc with writePos := tc.writePos.map fun pos => (tc.file.length, pos.2) }

/-- The file has been opened again. -/
def reopened : TableCache := { tc with writePos := some (0, tc.appendOffset) }

/-! ## Bulk-built indexes -/

/-- The pairs for the id index, in the order of the slots. -/
def idPairs : Option (List (Int × Nat)) :=
  tc.rows.mapM fun e => (tc.rowIndexKey e.2 e.1).map (·, e.1)

/-- `qsort` where the pairs are not in order already. -/
def sortPairs {α : Type} [LinearOrder α] (pairs : List (α × Nat)) : List (α × Nat) :=
  if increasing pairs then pairs else pairs.mergeSort fun a b => a.1 ≤ b.1

/-- `rebuild_id_index`. -/
def rebuildIdIndex : Option TableCache :=
  match tc.idPairs with
  | none => none
  | some pairs =>
    match bptreeBuildFromSorted (create Int) (sortPairs pairs) with
    | (_, false) => none
    | (tree, true) =>
      some
        { tc with
          idIndex := tree
          nextAutoId :=
            if tc.schema.pkIdx.isSome then
              pairs.foldl (fun next e => if next ≤ e.1 then wrapL (e.1 + 1) else next) 1
            else tc.nextAutoId }

/-- The pairs for the index of a UK column. -/
def ukPairs (col : Nat) : List (Bytes × Nat) :=
  tc.rows.filterMap fun e =>
    let key := ukKey e.2 col
    if key = [] then none else some (key, e.1)

/-- `rebuild_uk_indexes`. -/
def rebuildUkIndexes : Option TableCache :=
  let built := tc.ukIndexes.mapM fun index =>
    match bptreeStringBuildFromSorted (create Bytes) (sortPairs (tc.ukPairs index.colIdx)) with
    | (_, false) => none
    | (tree, true) => some { index with tree := tree }
  built.map fun ukIndexes => { tc with ukIndexes := ukIndexes }

/-! ## Single index entries

The result says whether the calls succeeded; a failure leaves what was done before
it. -/

/-- The loop over the UK columns that deletes the keys of a row. -/
def removeUkKeys (row : Bytes) : List UniqueIndex → List UniqueIndex × Bool
  | [] => ([], true)
  | index :: rest =>
    let key := ukKey row index.colIdx
    if key = [] then
      let (rest', ok) := removeUkKeys row rest
      (index :: rest', ok)
    else
      match bptreeStringDelete index.tree key with
      | none => (index :: rest, false)
      | some tree =>
        let (rest', ok) := removeUkKeys row rest
        ({ index with tree := tree } :: rest', ok)

/-- `remove_record_uk_indexes`. -/
def removeRecordUkIndexes (row : Bytes) : TableCache × Bool :=
  let (ukIndexes, ok) := removeUkKeys row tc.ukIndexes
  ({ tc with ukIndexes := ukIndexes }, ok)

/-- `remove_record_indexes` on the row of a slot. -/
def removeRecordIndexes (slotId : Nat) (row : Bytes) : TableCache × Bool :=
  match tc.rowIndexKey row slotId with
  | none => (tc, false)
  | some id =>
    match bptreeDelete tc.idIndex id with
    | none => (tc, false)
    | some tree => { tc with idIndex := tree }.removeRecordUkIndexes row

/-- Put a key into the index of the `i`-th UK column. -/
def insertUkKey (i : Nat) (index : UniqueIndex) (key : Bytes) (rowIndex : Nat) :
    TableCache × Bool :=
  match bptreeStringInsert index.tree key rowIndex with
  | none => ({ tc with ukIndexes := tc.ukIndexes.set i index }, false)
  | some tree => ({ tc with ukIndexes := tc.ukIndexes.set i { index with tree := tree } }, true)

/-- `unique_index_insert`: the entry of a row that is gone gives way. -/
def uniqueIndexInsert (i : Nat) (key : Bytes) (rowIndex : Nat) : TableCache × Bool :=
  match tc.ukIndexes[i]? with
  | none => (tc, true)
  | some index =>
    if key = [] then (tc, true)
    else
      match search index.tree key with
      | none => tc.insertUkKey i index key rowIndex
      | some existing =>
        if existing ≠ rowIndex ∧ tc.slotIsActive existing then (tc, false)
        else
          match bptreeStringDelete index.tree key with
          | some tree => tc.insertUkKey i { index with tree := tree } key rowIndex
          | none =>
            match tc.rebuildUkIndexes with
            | none => (tc, false)
            | some tc' =>
              match tc'.ukIndexes[i]? with
              | none => (tc', false)
              | some index' => tc'.insertUkKey i index' key rowIndex

/-- `index_record_uks_from_row`. -/
def indexRecordUksFromRow (row : Bytes) (rowIndex : Nat) : TableCache × Bool :=
  (List.range tc.ukIndexes.length).foldl
    (fun state i =>
      match state.2, state.1.ukIndexes[i]? with
      | true, some index => state.1.uniqueIndexInsert i (ukKey row index.colIdx) rowIndex
      | _, _ => state)
    (tc, true)

/-- One round of that loop: nothing more once a value was refused. -/
def ukRound (row : Bytes) (rowIndex : Nat) (state : TableCache × Bool) (i : Nat) :
    TableCache × Bool :=
  match state.2, state.1.ukIndexes[i]? with
  | true, some index => state.1.uniqueIndexInsert i (ukKey row index.colIdx) rowIndex
  | _, _ => state

theorem indexRecordUksFromRow_eq (row : Bytes) (rowIndex : Nat) :
    tc.indexRecordUksFromRow row rowIndex =
      (List.range tc.ukIndexes.length).foldl (ukRound row rowIndex) (tc, true) := rfl

@[simp] theorem ukRound_refused (row : Bytes) (rowIndex i : Nat) :
    ukRound row rowIndex (tc, false) i = (tc, false) := rfl

theorem ukRound_none (row : Bytes) (rowIndex : Nat) {i : Nat} (h : tc.ukIndexes[i]? = none) :
    ukRound row rowIndex (tc, true) i = (tc, true) := by
  simp only [ukRound, h]

theorem ukRound_some (row : Bytes) (rowIndex : Nat) {i : Nat} {index : UniqueIndex}
    (h : tc.ukIndexes[i]? = some index) : ukRound row rowIndex (tc, true) i =
      tc.uniqueIndexInsert i (ukKey row index.colIdx) rowIndex := by
  simp only [ukRound, h]

/-- `index_record_uks`. -/
def indexRecordUks (rowIndex : Nat) : TableCache × Bool :=
  match tc.slotRow rowIndex with
  | none => (tc, true)
  | some row => tc.indexRecordUksFromRow row rowIndex

/-- `restore_record_indexes`. -/
def restoreRecordIndexes (slotId : Nat) : TableCache × Bool :=
  match (tc.slotRow slotId).bind (tc.rowIndexKey · slotId) with
  | none => (tc, false)
  | some id =>
    match bptreeInsert tc.idIndex id slotId with
    | none => (tc, false)
    | some tree => { tc with idIndex := tree }.indexRecordUks slotId

/-! ## Delta operations -/

/-- Whether the calls succeeded. -/
def succeeded : TableCache × Bool → Option TableCache
  | (tc, true) => some tc
  | (_, false) => none

/-- Take the entries of the old row out of the indexes. -/
def dropOldRow (slotId : Nat) : Option TableCache :=
  match tc.slotRow slotId with
  | none => some tc
  | some row => succeeded (tc.removeRecordIndexes slotId row)

/-- One operation in `apply_delta_ops`; one of a row that is not there is skipped. -/
def applyDeltaOp : DeltaOp → Option TableCache
  | .update id row =>
    match tc.findRecordIndexByKey id with
    | none => some tc
    | some slotId => do
      let tc ← tc.dropOldRow slotId
      let tc ← tc.replaceRecordAt slotId row
      succeeded (tc.restoreRecordIndexes slotId)
  | .delete id =>
    match tc.findRecordIndexByKey id with
    | none => some tc
    | some slotId => do
      let tc ← tc.dropOldRow slotId
      tc.deactivateSlot slotId

def applyDeltaOps (ops : List DeltaOp) : Option TableCache := ops.foldlM applyDeltaOp tc

end TableCache

end MiniDbms.Legacy
