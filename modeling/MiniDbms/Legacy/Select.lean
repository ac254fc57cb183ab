import MiniDbms.Legacy.Delete

/-!
# SELECT of the legacy executor

`execute_select_internal`: the rows of the slots are found through an index or by a scan,
and a table with more rows than slots has the rest of its file looked through as well.
-/

namespace MiniDbms.Legacy

open Bptree

/-- The messages of `execute_select_internal`. -/
inductive SelectError
  | unknownWhere (column : Bytes)
  | unknownColumn (column : Bytes)
  | rangeBounds
  | notInteger
deriving DecidableEq

/-- The text behind `[error] SELECT failed: `. -/
def SelectError.text : SelectError → Bytes
  | .unknownWhere column => str "WHERE column '" ++ column ++ str "' does not exist."
  | .unknownColumn column => str "unknown column '" ++ column ++ str "'."
  | .rangeBounds => str "BETWEEN bounds must be integers for PK range search."
  | .notInteger => str "id condition must be an integer."

/-- The rows that are emitted: those of slots first, with their slots, then those that are
read from the file. -/
structure Emitted where
  slots : List (Nat × Bytes) := []
  tail : List Bytes := []

def Emitted.rows (emitted : Emitted) : List Bytes := emitted.slots.map Prod.snd ++ emitted.tail

/-! ## The rest of the file -/

/-- The rows of lines; a line that is too long ends them. -/
def lineRows : List Bytes → List Bytes
  | [] => []
  | line :: lines =>
    match chomp RECORD_SIZE line with
    | none => []
    | some row => if row = [] then lineRows lines else row :: lineRows lines

namespace TableCache

variable (tc : TableCache)

/-- `execute_select_file_scan` from `uncached_start_offset`. -/
def selectFileScan (conds : List WhereCondition) : List Bytes :=
  (lineRows tc.fileLines).filter (rowMatchesStatement tc.schema conds)

/-- `execute_select_file_range_scan`. -/
def selectFileRangeScan (conds : List WhereCondition) (col : Nat) (startKey endKey : Int) :
    List Bytes :=
  if endKey < startKey then []
  else
    (lineRows tc.fileLines).filter fun row =>
      (fieldLong row col).any (fun key => decide (startKey ≤ key) && decide (key ≤ endKey)) &&
        rowFieldsMatchStatement tc.schema conds (parseCsvRow row)

/-- `execute_select_file_string_range_scan`. -/
def selectFileStringRangeScan (conds : List WhereCondition) (col : Nat)
    (startKey endKey : Bytes) : List Bytes :=
  if endKey < startKey then []
  else
    (lineRows tc.fileLines).filter fun row =>
      (decide (startKey ≤ ukKey row col) && decide (ukKey row col ≤ endKey)) &&
        rowFieldsMatchStatement tc.schema conds (parseCsvRow row)

/-- The loop of `find_tail_pk_offset` over `[lo, hi)`. -/
def findTailLoop (id : Int) : Nat → Nat → Nat → Option Nat
  | 0, _, _ => none
  | fuel + 1, lo, hi =>
    if lo < hi then
      let mid := lo + (hi - 1 - lo) / 2
      match tc.tail[mid]? with
      | none => none
      | some (key, offset) =>
        if key = id then some offset
        else if key < id then findTailLoop id fuel (mid + 1) hi
        else findTailLoop id fuel lo mid
    else none

/-- `find_tail_pk_offset`. -/
def findTailPkOffset (id : Int) : Option Nat :=
  tc.findTailLoop id (tc.tail.length + 1) 0 tc.tail.length

/-- `print_tail_pk_offset_row`. -/
def tailPkRow (conds : List WhereCondition) (offset : Nat) (key : Int) : Option Bytes :=
  if tc.file.length ≤ offset then none
  else
    match chomp RECORD_SIZE (fgets RECORD_SIZE (tc.file.drop offset)).1 with
    | none => none
    | some row =>
      if tc.schema.pkIdx.bind (fieldLong row) = some key ∧ rowMatchesStatement tc.schema conds row
      then some row else none

/-! ## The rows of the slots -/

/-- The row of a slot, if it matches. -/
def matchingRow (conds : List WhereCondition) (slotId : Nat) : Option (Nat × Bytes) :=
  ((tc.slotRow slotId).filter (rowMatchesStatement tc.schema conds)).map (slotId, ·)

/-- `print_range_row_visitor`, `print_string_range_row_visitor`. -/
def printRangeRow {α : Type} (conds : List WhereCondition) (rows : List (Nat × Bytes)) (_ : α)
    (slotId : Nat) : List (Nat × Bytes) × Bool :=
  (rows ++ (tc.matchingRow conds slotId).toList, true)

/-- The tail of a table that has one. -/
def ifTruncated (rows : List Bytes) : List Bytes := if tc.uncachedStart.isSome then rows else []

/-- The branch for a range on the PK column. -/
def selectPkRange (conds : List WhereCondition) (cond : WhereCondition) (col : Nat) :
    Except SelectError Emitted :=
  match parseLongValue cond.val.bytes, parseLongValue cond.endVal.bytes with
  | some startKey, some endKey =>
    .ok
      { slots := (rangeSearch tc.idIndex startKey endKey (tc.printRangeRow conds) []).1
        tail := tc.ifTruncated (tc.selectFileRangeScan conds col startKey endKey) }
  | _, _ => .error .rangeBounds

/-- The branch for a range on a UK column. -/
def selectUkRange (conds : List WhereCondition) (cond : WhereCondition) (col : Nat) : Emitted :=
  let startText := normV RECORD_SIZE cond.val.bytes
  let endText := normV RECORD_SIZE cond.endVal.bytes
  match (tc.getUkSlot col).bind (tc.ukIndexes[·]?) with
  | none => {}
  | some index =>
    { slots := (rangeSearch index.tree startText endText (tc.printRangeRow conds) []).1
      tail := tc.ifTruncated (tc.selectFileStringRangeScan conds col startText endText) }

/-- The branch for an equality on the PK column. -/
def selectPk (conds : List WhereCondition) (cond : WhereCondition) : Except SelectError Emitted :=
  match parseLongValue cond.val.bytes with
  | none => .error .notInteger
  | some key =>
    match search tc.idIndex key with
    | some slotId => .ok { slots := (tc.matchingRow conds slotId).toList }
    | none =>
      if tc.uncachedStart.isSome then
        match (tc.findTailPkOffset key).bind fun offset => tc.tailPkRow conds offset key with
        | some row => .ok { tail := [row] }
        | none => .ok { tail := tc.selectFileScan conds }
      else .ok {}

/-- The branch for an equality on a UK column. -/
def selectUk (conds : List WhereCondition) (cond : WhereCondition) (col : Nat) : Emitted :=
  match tc.findUkRow col cond.val.bytes with
  | some slotId => { slots := (tc.matchingRow conds slotId).toList }
  | none => { tail := tc.ifTruncated (tc.selectFileScan conds) }

/-- The scan of all rows. -/
def selectScan (conds : List WhereCondition) : Emitted :=
  { slots := tc.rows.filter fun e => rowFieldsMatchStatement tc.schema conds (parseCsvRow e.2)
    tail := tc.ifTruncated (tc.selectFileScan conds) }

/-- The part of `execute_select_internal` behind the checks of the columns. -/
def selectRows (conds : List WhereCondition) : Except SelectError Emitted :=
  match tc.chooseIndexCondition true conds with
  | some (cond, col) =>
    if cond.type = .between then
      if tc.schema.pkIdx = some col then tc.selectPkRange conds cond col
      else .ok (tc.selectUkRange conds cond col)
    else if tc.schema.pkIdx = some col then tc.selectPk conds cond
    else .ok (tc.selectUk conds cond col)
  | none => .ok (tc.selectScan conds)

/-- `execute_select_internal` when it prints: the columns and the rows. -/
def executeSelect (stmt : Statement) : Except SelectError (Option (List Nat) × Emitted) :=
  match tc.schema.unknownColumn stmt.whereConditions with
  | some column => .error (.unknownWhere column)
  | none =>
    if stmt.selectAll then (tc.selectRows stmt.whereConditions).map (none, ·)
    else
      match stmt.selectCols.find? fun name => tc.schema.getColIdx name.bytes = none with
      | some name => .error (.unknownColumn name.bytes)
      | none =>
        (tc.selectRows stmt.whereConditions).map
          (some (stmt.selectCols.filterMap fun name => tc.schema.getColIdx name.bytes), ·)

end TableCache

end MiniDbms.Legacy
