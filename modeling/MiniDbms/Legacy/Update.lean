import MiniDbms.Legacy.Delete

/-!
# UPDATE of the legacy executor

`execute_update`: one row that an equality finds in an index, or all rows that match the
clause.  The single row is not compared with the clause again when the equality is all of
it.
-/

namespace MiniDbms.Legacy

open Bptree

/-- The messages of `execute_update`. -/
inductive UpdateError
  | unknownColumn (column : Bytes)
  | whereRequired
  | noColumn
  | pkChange
  | notNull (column : Bytes)
  | scanFallback
  | notLoaded
  | ukUnavailable
  | manyUk
  | duplicateUk (value : Bytes)
  | rowTooLong
  | ukUpdate
  | deltaAppend
deriving DecidableEq

/-- The text behind `[error] UPDATE failed`. -/
def UpdateError.text : UpdateError → Bytes
  | .unknownColumn column => str ": WHERE column '" ++ column ++ str "' does not exist."
  | .whereRequired => str ": WHERE condition is required."
  | .noColumn => str ": WHERE or SET column does not exist."
  | .pkChange => str ": PK column cannot be changed."
  | .notNull column => str ": column '" ++ column ++ str "' violates NN constraint."
  | .scanFallback => str " while using CSV scan fallback."
  | .notLoaded => str ": target row could not be loaded."
  | .ukUnavailable => str ": UK index is not available."
  | .manyUk => str ": multiple rows would share one UK value."
  | .duplicateUk value => str ": '" ++ value ++ str "' violates UK constraint."
  | .rowTooLong => str ": rebuilt row is too long."
  | .ukUpdate => str ": UK index update failed; memory restored."
  | .deltaAppend => str ": delta log append failed; memory restored."

/-- What an UPDATE without an error has done: which slots have a new row and whether the
compaction of the log failed, or how many lines of the file it has written anew. -/
inductive Updated
  | nothing
  | slots (slotIds : List Nat) (warned : Bool)
  | lines (count : Nat)
deriving DecidableEq

namespace TableCache

variable (tc : TableCache)

/-- A row in memory for a slot. -/
def setRecord (slotId : Nat) (row : Bytes) : TableCache :=
  tc.setSlot slotId
    { (tc.slots[slotId]?).getD {} with store := .memory, offset := -1, record := some row }

/-- `rollback_updated_records`. -/
def rollbackRecords (rows : List (Nat × Bytes)) : TableCache :=
  rows.foldl (fun tc e =>
    tc.setSlot e.1
      { (tc.slots[e.1]?).getD {} with
        active := true, store := .memory, offset := -1, record := some e.2 }) tc

/-- `remove_record_single_uk`. -/
def removeSingleUk (row : Bytes) (col : Nat) : TableCache × Bool :=
  match tc.getUkSlot col with
  | none => (tc, true)
  | some uk =>
    match tc.ukIndexes[uk]? with
    | none => (tc, true)
    | some index =>
      if ukKey row col = [] then (tc, true)
      else
        match bptreeStringDelete index.tree (ukKey row col) with
        | none => (tc, false)
        | some tree =>
          ({ tc with ukIndexes := tc.ukIndexes.set uk { index with tree := tree } }, true)

/-- `index_record_single_uk`. -/
def indexSingleUk (slotId col : Nat) : TableCache × Bool :=
  match tc.getUkSlot col with
  | none => (tc, true)
  | some uk =>
    match tc.slotRow slotId with
    | none => (tc, false)
    | some row => tc.uniqueIndexInsert uk (ukKey row col) slotId

/-- Rebuild the UK indexes, whether that succeeds or not. -/
def refreshUkIndexes : TableCache := tc.rebuildUkIndexes.getD tc

/-- Whether a UK column can take the new value in these slots. -/
def checkUk (col : Nat) (value : Bytes) (slotIds : List Nat) : Except UpdateError Unit :=
  match tc.getUkSlot col with
  | none => .error .ukUnavailable
  | some uk =>
    if (tc.uniqueIndexFind uk value).any (· ∉ slotIds) then .error (.duplicateUk value)
    else .ok ()

/-- The loop that gives each matching slot its new row. -/
def updateRows (setIdx : Nat) (value : Bytes) :
    TableCache → List (Nat × Bytes) → List (Nat × Bytes) → TableCache × Bool
  | tc, [], _ => (tc, true)
  | tc, (i, row) :: rest, done =>
    match executeUpdateRow tc.schema row setIdx value with
    | none => (tc.rollbackRecords done, false)
    | some newRow => updateRows setIdx value (tc.setRecord i newRow) rest (done ++ [(i, row)])

/-- The loop over the changed slots of a UK column. -/
def moveUkKeys (setIdx : Nat) : TableCache → List (Nat × Bytes) → TableCache × Bool
  | tc, [] => (tc, true)
  | tc, (i, row) :: rest =>
    match tc.removeSingleUk row setIdx with
    | (tc, false) => (tc, false)
    | (tc, true) =>
      match tc.indexSingleUk i setIdx with
      | (tc, false) => (tc, false)
      | (tc, true) => moveUkKeys setIdx tc rest

/-- `append_delta_updates`; a row without a key stops it. -/
def appendUpdates : List Nat → DeltaFile → DeltaFile × Bool
  | [], log => (log, true)
  | i :: rest, log =>
    match tc.slotRow i with
    | none => appendUpdates rest log
    | some row =>
      match tc.rowIndexKey row i with
      | none => (log, false)
      | some id => appendUpdates rest (log.appendOp (.update id row))

end TableCache

namespace Opened

variable (st : Opened)

/-- The log is compacted if it is due. -/
def finishUpdate (slotIds : List Nat) : Option Opened × Except UpdateError Updated :=
  match st.maybeCompactDeltaLog with
  | (st', ok) => (st', .ok (.slots slotIds (!ok)))

/-- The rows that `rewrite_truncated_update` writes, and how many of them are new. -/
def rewrittenRows (schema : Schema) (conds : List WhereCondition) (setIdx : Nat) (value : Bytes) :
    List Bytes → Option (List Bytes × Nat)
  | [] => some ([], 0)
  | row :: rows => do
    let (rest, count) ← rewrittenRows schema conds setIdx value rows
    if rowMatchesStatement schema conds row then
      let newRow ← rewriteTruncatedUpdateRow schema row setIdx value
      some (newRow :: rest, count + 1)
    else some (row :: rest, count)

/-- `rewrite_truncated_update`. -/
def rewriteTruncatedUpdate (conds : List WhereCondition) (setIdx : Nat) (value : Bytes) :
    Option Opened × Except UpdateError Updated :=
  let schema := st.table.schema
  let rows := st.table.scanRows
  let targets := rows.countP (rowMatchesStatement schema conds)
  let uk := (schema.cols[setIdx]?).any (·.type = .uk)
  let sought : Opened := { st with table := st.table.seekEnd }
  if st.table.file = [] then (some sought, .error .scanFallback)
  else if targets = 0 then (some sought, .ok .nothing)
  else if uk ∧ 1 < targets then (some sought, .error .manyUk)
  else if uk ∧ value ≠ [] ∧ rows.any (fun row => !rowMatchesStatement schema conds row &&
      compareValue ((field row setIdx).getD []) value) then
    (some sought, .error (.duplicateUk value))
  else
    match rewrittenRows schema conds setIdx value rows with
    | none => (some sought, .error .scanFallback)
    | some (newRows, count) =>
      match st.reload (headerText schema ++ unlines newRows) with
      | none => (none, .error .scanFallback)
      | some st' => (some st', .ok (.lines count))

/-- The new row of a slot that an index has found, its UK entry and the log. -/
def replaceFound (target : Nat) (row newRow : Bytes) (setIdx : Nat) (uk : Bool)
    (pkKey : Option Int) : Option Opened × Except UpdateError Updated :=
  match if uk then st.table.removeSingleUk row setIdx else (st.table, true) with
  | (tc, false) => (some { st with table := tc }, .error .ukUpdate)
  | (tc, true) =>
    match if uk then (tc.setRecord target newRow).indexSingleUk target setIdx
      else (tc.setRecord target newRow, true) with
    | (tc, false) =>
      (some { st with table := (tc.setRecord target row).refreshUkIndexes }, .error .ukUpdate)
    | (tc, true) =>
      match if pkKey.isSome then pkKey
        else if tc.slotIsActive target then tc.rowIndexKey newRow target else none with
      | none =>
        let tc := tc.setRecord target row
        (some { st with table := if uk then tc.refreshUkIndexes else tc }, .error .deltaAppend)
      | some id =>
        finishUpdate { table := tc, log := st.log.appendOp (.update id newRow) } [target]

/-- `execute_update_single_row`. -/
def updateSingleRow (conds : List WhereCondition) (cond : WhereCondition) (col setIdx : Nat)
    (value : Bytes) (uk : Bool) : Option Opened × Except UpdateError Updated :=
  let tc := st.table
  match tc.foundRow cond col with
  | none => (some st, .ok .nothing)
  | some target =>
    match tc.slotRow target with
    | none => (some st, .error .notLoaded)
    | some row =>
      if conds.length ≠ 1 ∧ rowMatchesStatement tc.schema conds row = false then
        (some st, .ok .nothing)
      else
        match if uk then tc.checkUk setIdx value [target] else .ok () with
        | .error e => (some st, .error e)
        | .ok _ =>
          match buildUpdatedRow tc.schema row setIdx value with
          | none => (some st, .error .rowTooLong)
          | some newRow =>
            st.replaceFound target row newRow setIdx uk
              (if tc.schema.pkIdx = some col then parseLongValue cond.val.bytes else none)

/-- The branch of `execute_update` that goes through all rows. -/
def updateMatching (conds : List WhereCondition) (setIdx : Nat) (value : Bytes) (uk : Bool) :
    Option Opened × Except UpdateError Updated :=
  let matched := st.table.rows.filter fun e => rowMatchesStatement st.table.schema conds e.2
  if matched = [] then (some st, .ok .nothing)
  else if uk ∧ 1 < matched.length then (some st, .error .manyUk)
  else
    match if uk then st.table.checkUk setIdx value (matched.map Prod.fst) else .ok () with
    | .error e => (some st, .error e)
    | .ok _ =>
      match st.table.updateRows setIdx value matched [] with
      | (tc, false) => (some { st with table := tc }, .error .rowTooLong)
      | (tc, true) =>
        match if uk then tc.moveUkKeys setIdx matched else (tc, true) with
        | (tc, false) =>
          (some { st with table := (tc.rollbackRecords matched).refreshUkIndexes },
            .error .ukUpdate)
        | (tc, true) =>
          match tc.appendUpdates (matched.map Prod.fst) st.log.beginBatch with
          | (log, false) =>
            let tc := tc.rollbackRecords matched
            (some { table := if uk then tc.refreshUkIndexes else tc, log := log },
              .error .deltaAppend)
          | (log, true) => finishUpdate { table := tc, log := log } (matched.map Prod.fst)

/-- `execute_update`. -/
def executeUpdate (stmt : Statement) : Option Opened × Except UpdateError Updated :=
  let tc := st.table
  let conds := stmt.whereConditions
  let value := setValue stmt
  match tc.schema.unknownColumn conds with
  | some column => (some st, .error (.unknownColumn column))
  | none =>
    if conds = [] then (some st, .error .whereRequired)
    else
      match tc.schema.getColIdx stmt.setCol.bytes with
      | none => (some st, .error .noColumn)
      | some setIdx =>
        let type := ((tc.schema.cols[setIdx]?).map (·.type)).getD .normal
        if tc.schema.pkIdx = some setIdx then (some st, .error .pkChange)
        else if type = .nn ∧ value = [] then (some st, .error (.notNull (tc.columnName setIdx)))
        else if tc.uncachedStart.isSome then st.rewriteTruncatedUpdate conds setIdx value
        else
          match tc.chooseIndexCondition false conds with
          | some (cond, col) => st.updateSingleRow conds cond col setIdx value (type = .uk)
          | none => st.updateMatching conds setIdx value (type = .uk)

end Opened

end MiniDbms.Legacy
