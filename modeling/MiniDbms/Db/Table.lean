import MiniDbms.Db.Text
import MiniDbms.Bptree.Basic

/-!
# Table versions and statements on one table

A `TabVer` is one immutable committed version of a table, or the private working
copy of a transaction.  Allocation succeeds; a C function that reads or writes
outside its memory has no result, which is the `Fault` of an `Except`.
-/

namespace MiniDbms

open Bptree

/-- Undefined behaviour the engine can run into. -/
inductive Fault
  /-- a `TabEnt` pointer into an array that `realloc` has released -/
  | staleEnt
  /-- a `TabVer` that was released -/
  | freedVer
  /-- a row slot behind the allocated array -/
  | rowOverflow
  /-- a sixth element of `uk_idx` -/
  | ukOverflow
deriving DecidableEq, Repr

abbrev Row := List Bytes

structure TabVer where
  name : Bytes
  cols : List ColumnInfo
  /-- `none` for the index -1 -/
  pkIdx : Option Nat
  ukIdx : List Nat
  rows : List Row
  rowCap : Nat
  /-- how many rows the allocation behind `rows` has room for -/
  slots : Nat
  nextId : Int
  verId : Nat
  pkTree : BPlusTree Int
  ukTree : List (BPlusTree Bytes)

inductive ErrCode
  | badSql | badReq | oom | intErr | txAbort | tooBig
deriving DecidableEq, Repr

structure DbErr where
  code : ErrCode
  msg : String
deriving DecidableEq, Repr

abbrev DbObj := List (Bytes × Bytes)

/-- The result record of one statement; `err` is `none` while `err.code` is the
empty string. -/
structure DbRes where
  rows : List DbObj := []
  count : Nat := 0
  lastId : Int := 0
  snapId : Nat := 0
  err : Option DbErr := none
deriving DecidableEq

/-- `res_err`. -/
def DbRes.fail (res : DbRes) (code : ErrCode) (msg : String) : DbRes :=
  { res with err := some ⟨code, msg⟩ }

/-- The text of a cell. -/
def cell (row : Row) (idx : Nat) : Bytes := row.getD idx []

namespace TabVer

def colIdx (tab : TabVer) (name : Bytes) : Option Nat :=
  tab.cols.findIdx? fun c => c.name.bytes == name

def ukSlot (tab : TabVer) (idx : Nat) : Option Nat := tab.ukIdx.findIdx? (· == idx)

def colType (tab : TabVer) (idx : Nat) : ColumnType :=
  ((tab.cols[idx]?).map (·.type)).getD .normal

/-! ## WHERE -/

/-- BETWEEN on the PK column compares integers, and fails on anything else. -/
def pkBetween (src lo hi : Bytes) : Bool :=
  match parseL src, parseL lo, parseL hi with
  | some key, some a0, some a1 => decide (a0 ≤ key) && decide (key ≤ a1)
  | _, _, _ => false

def condMatch (tab : TabVer) (row : Row) (cond : WhereCondition) : Bool :=
  match tab.colIdx cond.col.bytes with
  | none => false
  | some idx =>
    match cond.type with
    | .eq => cmpV (cell row idx) cond.val.bytes
    | .between =>
      if tab.pkIdx = some idx then pkBetween (cell row idx) cond.val.bytes cond.endVal.bytes
      else cmpRng (cell row idx) cond.val.bytes cond.endVal.bytes
    | .none => false

def rowMatch (tab : TabVer) (stmt : Statement) (row : Row) : Bool :=
  stmt.whereConditions.all (tab.condMatch row)

/-! ## SELECT -/

/-- The projected row as `res_add` copies it. -/
def project (tab : TabVer) (selIdx : List Nat) (row : Row) : DbObj :=
  selIdx.map fun i => (((tab.cols[i]?).map (·.name.bytes)).getD [], cell row i)

def resAdd (tab : TabVer) (selIdx : List Nat) (res : DbRes) (row : Row) : DbRes :=
  { res with rows := res.rows ++ [tab.project selIdx row], count := res.rows.length + 1 }

/-- `sel_vis`, `sel_svis`: the visitor never stops the search. -/
def selVis (tab : TabVer) (stmt : Statement) (selIdx : List Nat) (res : DbRes)
    (rowIdx : Nat) : DbRes :=
  match tab.rows[rowIdx]? with
  | none => res
  | some row => if tab.rowMatch stmt row then tab.resAdd selIdx res row else res

def score (tab : TabVer) (cond : WhereCondition) (idx : Nat) : Nat :=
  if cond.type = .eq ∧ tab.pkIdx = some idx then 100
  else if cond.type = .eq ∧ (tab.ukSlot idx).isSome then 90
  else if cond.type = .between ∧ tab.pkIdx = some idx then 80
  else if cond.type = .between ∧ (tab.ukSlot idx).isSome then 70
  else 0

/-- One round of the loop of `pick_idx`: the best score so far with its condition
and column. -/
def pickStep (tab : TabVer) (best : Nat × Option (WhereCondition × Nat))
    (cond : WhereCondition) : Nat × Option (WhereCondition × Nat) :=
  match tab.colIdx cond.col.bytes with
  | none => best
  | some idx =>
    if best.1 < tab.score cond idx then (tab.score cond idx, some (cond, idx)) else best

def pickIdx (tab : TabVer) (stmt : Statement) : Option (WhereCondition × Nat) :=
  (stmt.whereConditions.foldl tab.pickStep (0, none)).2

/-- The access paths of `sel_do`. -/
inductive Path
  | pkEq (key : Bytes)
  | ukEq (slot : Nat) (key : Bytes)
  | pkRange (lo hi : Bytes)
  | ukRange (slot : Nat) (lo hi : Bytes)
  | scan

def path (tab : TabVer) (stmt : Statement) : Path :=
  match tab.pickIdx stmt with
  | none => .scan
  | some (cond, idx) =>
    match cond.type, decide (tab.pkIdx = some idx), tab.ukSlot idx with
    | .eq, true, _ => .pkEq cond.val.bytes
    | .eq, false, some slot => .ukEq slot cond.val.bytes
    | .between, true, _ => .pkRange cond.val.bytes cond.endVal.bytes
    | .between, false, some slot => .ukRange slot cond.val.bytes cond.endVal.bytes
    | _, _, _ => .scan

def ukTreeAt (tab : TabVer) (slot : Nat) : BPlusTree Bytes := tab.ukTree.getD slot (create Bytes)

/-- The columns a SELECT returns, or `none` for an unknown one. -/
def selCols (tab : TabVer) (stmt : Statement) : Option (List Nat) :=
  if stmt.selectAll then some (List.range tab.cols.length)
  else stmt.selectCols.mapM fun c => tab.colIdx c.bytes

def selPath (tab : TabVer) (stmt : Statement) (selIdx : List Nat) (res : DbRes) :
    Path → DbRes × Bool
  | .pkEq val =>
    match parseL val with
    | none => (res.fail .badSql "PK filter must be integer", false)
    | some key =>
      match search tab.pkTree key with
      | some rowIdx => (tab.selVis stmt selIdx res rowIdx, true)
      | none => (res, true)
  | .ukEq slot val =>
    match search (tab.ukTreeAt slot) (normV RECORD_SIZE val) with
    | some rowIdx => (tab.selVis stmt selIdx res rowIdx, true)
    | none => (res, true)
  | .pkRange lo hi =>
    match parseL lo, parseL hi with
    | some a0, some a1 =>
      rangeSearch tab.pkTree a0 a1 (fun res _ i => (tab.selVis stmt selIdx res i, true)) res
    | _, _ => (res.fail .badSql "bad PK BETWEEN", false)
  | .ukRange slot lo hi =>
    rangeSearch (tab.ukTreeAt slot) (normV RECORD_SIZE lo) (normV RECORD_SIZE hi)
      (fun res _ i => (tab.selVis stmt selIdx res i, true)) res
  | .scan =>
    (tab.rows.foldl (fun res row =>
      if tab.rowMatch stmt row then tab.resAdd selIdx res row else res) res, true)

/-- `sel_do`: the result and whether it returns 0. -/
def selDo (tab : TabVer) (stmt : Statement) (res : DbRes) : DbRes × Bool :=
  match tab.selCols stmt with
  | none => (res.fail .badSql "unknown SELECT column", false)
  | some selIdx => tab.selPath stmt selIdx res (tab.path stmt)

/-! ## Indexes -/

/-- Enter one row into the UK trees from some column on; a failed insertion stops
the loop and leaves what was entered before. -/
def ukEnter (row : Row) (i : Nat) : List Nat → List (BPlusTree Bytes) → List (BPlusTree Bytes) × Bool
  | col :: cols, tree :: trees =>
    let txt := normV RECORD_SIZE (cell row col)
    if txt = [] then
      let (trees, ok) := ukEnter row i cols trees
      (tree :: trees, ok)
    else
      match bptreeStringInsert tree txt i with
      | none => (tree :: trees, false)
      | some tree =>
        let (trees, ok) := ukEnter row i cols trees
        (tree :: trees, ok)
  | _, trees => (trees, true)

/-- One round of the loop of `idx_build`. -/
def idxRow (tab : TabVer) (i : Nat) (row : Row) : TabVer × Bool :=
  let pk : Option (BPlusTree Int) :=
    match tab.pkIdx with
    | none => some tab.pkTree
    | some p => (parseL (cell row p)).bind fun key => bptreeInsert tab.pkTree key i
  match pk with
  | none => (tab, false)
  | some pkTree =>
    let (trees, ok) := ukEnter row i tab.ukIdx tab.ukTree
    ({ tab with pkTree := pkTree, ukTree := trees }, ok)

def idxLoop : Nat → List Row → TabVer → TabVer × Bool
  | _, [], tab => (tab, true)
  | i, row :: rows, tab =>
    match tab.idxRow i row with
    | (tab, true) => idxLoop (i + 1) rows tab
    | (tab, false) => (tab, false)

/-- `idx_build`: the table with its trees, complete when the flag is set. -/
def idxBuild (tab : TabVer) : TabVer × Bool :=
  idxLoop 0 tab.rows
    { tab with pkTree := create Int, ukTree := tab.ukIdx.map fun _ => create Bytes }

/-- `tab_clone`. -/
def tabClone (src : TabVer) : Option TabVer :=
  match idxBuild { src with rowCap := src.rows.length, slots := src.rows.length, verId := 0 } with
  | (dst, true) => some dst
  | (_, false) => none

/-! ## INSERT -/

/-- The doubling loop of `ensure_row_cap`; it gives up above `INT_MAX / 2`. -/
def growCap : Nat → Nat → Nat → Option Nat
  | 0, _, _ => none
  | fuel + 1, cap, need =>
    if need ≤ cap then some cap
    else if 1073741823 < cap then none
    else growCap fuel (cap * 2) need

def ensureRowCap (tab : TabVer) (need : Nat) : Option TabVer :=
  if need ≤ tab.rowCap then some tab
  else (growCap 33 (if 0 < tab.rowCap then tab.rowCap else 16) need).map fun cap =>
    { tab with rowCap := cap, slots := cap }

/-- The PK part of `row_new`: the counter afterwards, and the id of the row with
the mark of a generated one. -/
def rowId (tab : TabVer) (pkSrc : Option Bytes) : Int × Option (Int × Bool) :=
  match tab.pkIdx with
  | none => (tab.nextId, some (0, false))
  | some _ =>
    let src := pkSrc.getD []
    if src = [] ∨ cmpV src (str "NULL") then
      (wrapL (tab.nextId + 1), some (tab.nextId, true))
    else
      match parseL src with
      | none => (tab.nextId, none)
      | some id => (if tab.nextId ≤ id then wrapL (id + 1) else tab.nextId, some (id, false))

/-- The text `row_new` copies into column `i`. -/
def rowSrc (tab : TabVer) (vals : List Bytes) (missPk : Bool) (newId : Int) (autoPk : Bool)
    (i : Nat) : Bytes :=
  if tab.pkIdx = some i ∧ autoPk then printL newId
  else if missPk ∧ tab.pkIdx.any (· < i) then vals.getD (i - 1) []
  else vals.getD i []

/-- `row_new`: the counter it leaves behind, and the row with its id. -/
def rowNew (tab : TabVer) (vals : List Bytes) : Int × Option (Row × Int) :=
  let missPk := vals.length != tab.cols.length
  if missPk ∧ ¬ (tab.pkIdx = some 0 ∧ vals.length + 1 = tab.cols.length) then (tab.nextId, none)
  else
    let pkSrc := if missPk then none else tab.pkIdx.bind fun p => vals[p]?
    match tab.rowId pkSrc with
    | (nextId, none) => (nextId, none)
    | (nextId, some (newId, autoPk)) =>
      let row := (List.range tab.cols.length).map fun i =>
        trimUq (tab.rowSrc vals missPk newId autoPk i)
      if (List.range tab.cols.length).any fun i =>
          tab.colType i == .nn && (cell row i).isEmpty then (nextId, none)
      else (nextId, some (row, newId))

def chkDupPk (tab : TabVer) (key : Int) : Bool :=
  tab.pkIdx.isSome && (search tab.pkTree key).isSome

/-- `chk_dup_uk`; `skip` is the row that may hold the value. -/
def chkDupUk (tab : TabVer) (idx : Nat) (val : Bytes) (skip : Option Nat) : Bool :=
  match tab.ukSlot idx with
  | none => false
  | some slot =>
    if val = [] then false
    else
      match search (tab.ukTreeAt slot) (normV RECORD_SIZE val) with
      | none => false
      | some rowIdx => skip != some rowIdx

/-- The part of `ins_do` behind `row_new`. -/
def insRow (tab : TabVer) (row : Row) (newId : Int) (res : DbRes) : TabVer × DbRes × Bool :=
  if tab.chkDupPk newId then (tab, res.fail .badSql "duplicate PK", false)
  else if tab.ukIdx.any fun idx => tab.chkDupUk idx (cell row idx) none then
    (tab, res.fail .badSql "duplicate UK", false)
  else
    let i := tab.rows.length
    let tab := { tab with rows := tab.rows ++ [row] }
    match bptreeInsert tab.pkTree newId i with
    | none => (tab, res.fail .intErr "PK index update failed", false)
    | some pkTree =>
      let (trees, ok) := ukEnter row i tab.ukIdx tab.ukTree
      let tab := { tab with pkTree := pkTree, ukTree := trees }
      if ok then (tab, { res with count := 1, lastId := newId }, true)
      else (tab, res.fail .intErr "UK index update failed", false)

/-- `ins_do`.  The slot behind the last row is cleared before anything is known
about the values. -/
def insDo (tab : TabVer) (stmt : Statement) (res : DbRes) : Except Fault (TabVer × DbRes × Bool) :=
  let vals := splitCsv stmt.rowData.bytes
  if MAX_RECORDS ≤ tab.rows.length then
    .ok (tab, res.fail .badReq "table row limit reached", false)
  else
    match tab.ensureRowCap (tab.rows.length + 1) with
    | none => .ok (tab, res.fail .oom "out of memory", false)
    | some tab =>
      if tab.slots ≤ tab.rows.length then .error .rowOverflow
      else
        match tab.rowNew vals with
        | (nextId, none) =>
          .ok ({ tab with nextId := nextId }, res.fail .badSql "invalid INSERT values", false)
        | (nextId, some (row, newId)) => .ok ({ tab with nextId := nextId }.insRow row newId res)

/-! ## UPDATE and DELETE -/

/-- Rebuild the indexes of a changed table. -/
def rebuild (tab : TabVer) (res : DbRes) : TabVer × DbRes × Bool :=
  match tab.idxBuild with
  | (tab, true) => (tab, res, true)
  | (tab, false) => (tab, res.fail .intErr "index rebuild failed", false)

/-- The rows after the second loop of `upd_do`. -/
def updRows (tab : TabVer) (stmt : Statement) (setIdx : Nat) (setVal : Bytes) : List Row :=
  tab.rows.map fun row => if tab.rowMatch stmt row then row.set setIdx setVal else row

def updDo (tab : TabVer) (stmt : Statement) (res : DbRes) : TabVer × DbRes × Bool :=
  if stmt.whereConditions = [] then (tab, res.fail .badSql "UPDATE requires WHERE", false)
  else
    match tab.colIdx stmt.setCol.bytes with
    | none => (tab, res.fail .badSql "unknown SET column", false)
    | some setIdx =>
      if tab.pkIdx = some setIdx then (tab, res.fail .badSql "PK update not allowed", false)
      else
        let setVal := normV 256 stmt.setVal.bytes
        if tab.colType setIdx = .nn ∧ setVal = [] then
          (tab, res.fail .badSql "NN violation", false)
        else if (List.range tab.rows.length).any fun i =>
            tab.rowMatch stmt (tab.rows.getD i []) && tab.colType setIdx == .uk &&
              tab.chkDupUk setIdx setVal (some i) then
          (tab, res.fail .badSql "duplicate UK", false)
        else
          let res := { res with count := res.count + tab.rows.countP (tab.rowMatch stmt) }
          let tab := { tab with rows := tab.updRows stmt setIdx setVal }
          if res.count = 0 then (tab, res, true) else tab.rebuild res

/-- `del_do`.  The rows that stay are copied into an array with as many slots as
there were rows; `row_cap` keeps its value. -/
def delDo (tab : TabVer) (stmt : Statement) (res : DbRes) : TabVer × DbRes × Bool :=
  if stmt.whereConditions = [] then (tab, res.fail .badSql "DELETE requires WHERE", false)
  else
    let res := { res with count := res.count + tab.rows.countP (tab.rowMatch stmt) }
    rebuild { tab with
      rows := tab.rows.filter fun row => !tab.rowMatch stmt row
      slots := tab.rows.length } res

/-- `exec_stmt`. -/
def execStmt (tab : TabVer) (stmt : Statement) (res : DbRes) :
    Except Fault (TabVer × DbRes × Bool) :=
  match stmt.type with
  | .select => let (res, ok) := tab.selDo stmt res; .ok (tab, res, ok)
  | .insert => tab.insDo stmt res
  | .update => .ok (tab.updDo stmt res)
  | .delete => .ok (tab.delDo stmt res)
  | .unrecognized => .ok (tab, res.fail .badSql "unsupported SQL", false)

end TabVer

/-- `stmt_is_wr`. -/
def Statement.isWr (stmt : Statement) : Bool :=
  stmt.type == .insert || stmt.type == .update || stmt.type == .delete

end MiniDbms
