import MiniDbms.Db.Csv
import MiniDbms.Db.Mvcc
import MiniDbms.Lib.Heap
import MiniDbms.Sql.Parser

/-!
# The versioned store

The rest of `dbapi.c`: the registry of tables, transactions, commit and the
pruning of old versions.  Table versions are heap objects.  A version chain is
the list of their addresses, newest first; `prev` is the next address of the list.

The registry `db->tabs` is an array that `add_ent` moves when it is full, and
transactions keep pointers into it.  An `EntPtr` therefore carries the number of
the array it was taken from, and is good only while that array is the current
one.
-/

namespace MiniDbms

structure TabEnt where
  name : Bytes
  chain : List Nat
deriving DecidableEq

structure EntPtr where
  gen : Nat
  idx : Nat
deriving DecidableEq

structure TxTab where
  ent : EntPtr
  base : Nat
  work : Option Nat
  dirty : Bool
deriving DecidableEq

structure DbTx where
  snapId : Nat
  tabs : List TxTab
deriving DecidableEq

/-- `files` holds the CSV file of each table under the database root. -/
structure Db where
  mv : Mvcc
  tabs : List TabEnt
  tabCap : Nat
  /-- which allocation `tabs` lives in -/
  tabsGen : Nat
  heap : Heap TabVer
  files : Bytes → Option Bytes
  maxSql : Int
  maxQry : Int

/-- The length check of `parse_ok` with the parser behind it. -/
def parseSql (maxSql : Int) (sql : Bytes) : Except DbErr Statement :=
  if 0 < maxSql ∧ maxSql < (cstr sql).length then .error ⟨.tooBig, "SQL too long"⟩
  else
    match parseStatement sql with
    | some stmt => .ok stmt
    | none => .error ⟨.badSql, "parse failed"⟩

/-- `db_open`. -/
def dbOpen (files : Bytes → Option Bytes) (maxSql maxQry : Int) : Db where
  mv := .mvNew
  tabs := []
  tabCap := 0
  tabsGen := 0
  heap := .empty
  files := files
  maxSql := maxSql
  maxQry := maxQry

namespace Db

/-! ## Pointers -/

def ver (db : Db) (a : Nat) : Except Fault TabVer :=
  match db.heap.get a with
  | some tab => .ok tab
  | none => .error .freedVer

def entAt (db : Db) (p : EntPtr) : Except Fault TabEnt :=
  if p.gen = db.tabsGen then
    match db.tabs[p.idx]? with
    | some ent => .ok ent
    | none => .error .staleEnt
  else .error .staleEnt

/-! ## The registry -/

def getEnt (db : Db) (name : Bytes) : Option Nat := db.tabs.findIdx? fun e => e.name == name

/-- `add_ent`; a full array is reallocated with twice the room. -/
def addEnt (db : Db) (name : Bytes) (a : Nat) : Db :=
  let db := if db.tabs.length = db.tabCap then
      { db with
        tabCap := if db.tabCap = 0 then 8 else db.tabCap * 2
        tabsGen := db.tabsGen + 1 }
    else db
  { db with tabs := db.tabs ++ [⟨name, [a]⟩] }

/-- The table `tab_load` allocated gets its entry. -/
def addTab (db : Db) (name : Bytes) (tab : TabVer) : Db :=
  addEnt { db with heap := db.heap.alloc tab } name db.heap.next

/-- `need_ent`: the entry of a table, which is loaded on first use. -/
def needEnt (db : Db) (name : Bytes) : Except Fault (Option Nat × Db) :=
  match db.getEnt name with
  | some i => .ok (some i, db)
  | none => do
    match ← tabLoad name (db.files name) with
    | none => return (none, db)
    | some tab => return (some db.tabs.length, db.addTab name tab)

/-- `tab_vis`: the newest version a snapshot may see. -/
def tabVis (db : Db) (snap : Nat) : List Nat → Except Fault (Option Nat)
  | [] => .ok none
  | a :: rest => do
    let tab ← db.ver a
    if snap < tab.verId then db.tabVis snap rest else return some a

/-! ## Transactions -/

/-- `tx_tab` from item `i` on. -/
def txTab (db : Db) (name : Bytes) : Nat → List TxTab → Except Fault (Option Nat)
  | _, [] => .ok none
  | i, item :: items => do
    let ent ← db.entAt item.ent
    if ent.name = name then return some i else db.txTab name (i + 1) items

/-- `tx_view`: the position of the table's item in the transaction. -/
def txView (db : Db) (tx : DbTx) (name : Bytes) : Except Fault (Option Nat × Db × DbTx) := do
  match ← db.txTab name 0 tx.tabs with
  | some i => return (some i, db, tx)
  | none =>
    match ← db.needEnt name with
    | (none, db) => return (none, db, tx)
    | (some k, db) =>
      let ent ← db.entAt ⟨db.tabsGen, k⟩
      match ← db.tabVis tx.snapId ent.chain with
      | none => return (none, db, tx)
      | some base =>
        let item : TxTab := ⟨⟨db.tabsGen, k⟩, base, none, false⟩
        return (some tx.tabs.length, db, { tx with tabs := tx.tabs ++ [item] })

/-- `tx_make_work` for item `i`; the flag is its result. -/
def txMakeWork (db : Db) (tx : DbTx) (i : Nat) (item : TxTab) :
    Except Fault (Bool × Db × DbTx) :=
  match item.work with
  | some _ => .ok (true, db, { tx with tabs := tx.tabs.set i { item with dirty := true } })
  | none => do
    let base ← db.ver item.base
    match base.tabClone with
    | none => return (false, db, tx)
    | some work =>
      let item := { item with work := some db.heap.next, dirty := true }
      return (true, { db with heap := db.heap.alloc work }, { tx with tabs := tx.tabs.set i item })

/-- Run a statement on a version in place. -/
def execAt (db : Db) (a : Nat) (stmt : Statement) (res : DbRes) :
    Except Fault (Db × DbRes × Bool) := do
  let tab ← db.ver a
  let (tab, res, ok) ← tab.execStmt stmt res
  if stmt.isWr then return ({ db with heap := db.heap.set a tab }, res, ok)
  else return (db, res, ok)

/-- The version item `i` works on. -/
def itemTab (tx : DbTx) (i : Nat) : Option Nat :=
  (tx.tabs[i]?).map fun item => item.work.getD item.base

/-- What `db_txdo` does after `tx_view` returned. -/
def txRun (db : Db) (tx : DbTx) (item? : Option Nat) (stmt : Statement) :
    Except Fault (Db × DbTx × DbRes × Bool) := do
  let res : DbRes := {}
  match item?.bind fun i => (tx.tabs[i]?).map fun item => (i, item) with
  | none =>
    if stmt.isWr then return (db, tx, res.fail .oom "out of memory", false)
    else return (db, tx, res.fail .badSql "unknown table", false)
  | some (i, item) =>
    let (made, db, tx) ← if stmt.isWr then db.txMakeWork tx i item else pure (true, db, tx)
    if !made then return (db, tx, res.fail .oom "out of memory", false)
    else
      match itemTab tx i with
      | none => return (db, tx, res.fail .badSql "unknown table", false)
      | some a =>
        let (db, res, ok) ← db.execAt a stmt { res with snapId := tx.snapId }
        return (db, tx, res, ok)

/-- `parse_ok`: a statement, or the error left in the result. -/
def parseOk (db : Db) (sql : Bytes) : Except DbErr Statement := parseSql db.maxSql sql

/-- `db_txdo`. -/
def dbTxdo (db : Db) (tx : DbTx) (sql : Bytes) : Except Fault (Db × DbTx × DbRes × Bool) :=
  match db.parseOk sql with
  | .error err => .ok (db, tx, { err := some err }, false)
  | .ok stmt => do
    let (item?, db, tx) ← db.txView tx stmt.tableName.bytes
    db.txRun tx item? stmt

/-- `db_begin`. -/
def dbBegin (db : Db) : Db × DbTx :=
  ({ db with mv := db.mv.mvSnap }, ⟨db.mv.snapId, []⟩)

/-! ## Pruning -/

/-- Where `prune_tab` cuts a chain: the versions it keeps and those it releases. -/
def pruneAt (db : Db) (keepId : Nat) : List Nat → Except Fault (List Nat × List Nat)
  | [] => .ok ([], [])
  | a :: rest => do
    let tab ← db.ver a
    if keepId ≠ 0 ∧ keepId < tab.verId then
      let (kept, dropped) ← db.pruneAt keepId rest
      return (a :: kept, dropped)
    else return ([a], rest)

/-- `free_chain`, and any other loop of `free_tab` calls. -/
def freeAll : Heap TabVer → List Nat → Except Fault (Heap TabVer)
  | heap, [] => .ok heap
  | heap, a :: rest =>
    match heap.get a with
    | some _ => freeAll (heap.free a) rest
    | none => .error .freedVer

/-- The loop of `gc_tabs` over the registry. -/
def pruneTabs (keepId : Nat) : Db → List TabEnt → Except Fault (List TabEnt × Heap TabVer)
  | db, [] => .ok ([], db.heap)
  | db, ent :: ents => do
    let (kept, dropped) ← db.pruneAt keepId ent.chain
    let heap ← freeAll db.heap dropped
    let (ents, heap) ← pruneTabs keepId { db with heap := heap } ents
    return (⟨ent.name, kept⟩ :: ents, heap)

/-- The pruning section of `gc_tabs`. -/
def gcPrune (db : Db) (keepId : Nat) : Except Fault Db := do
  let (ents, heap) ← pruneTabs keepId db db.tabs
  return { db with tabs := ents, heap := heap }

/-- The statistics section of `gc_tabs`: the id down to which versions stay. -/
def gcKeepId (db : Db) : Nat :=
  let mst := db.mv.mvStat
  if 0 < mst.txLive then mst.snapMin else 0

def gcTabs (db : Db) : Except Fault Db := db.gcPrune db.gcKeepId

/-- Give a snapshot id back and prune, as every call ends that held one. -/
def release (db : Db) (snap : Nat) : Except Fault Db :=
  gcTabs { db with mv := db.mv.mvGc snap }

/-! ## Commit -/

/-- How a `tab_save` call ends. -/
inductive SaveIo
  | ok
  | openFails
  | closeFails
  | renameFails
deriving DecidableEq, Repr

/-- `tab_save`: the temporary file replaces the table's file when everything went
well, and is removed otherwise. -/
def tabSave (db : Db) (tab : TabVer) : SaveIo → Db × Bool
  | .ok => ({ db with files := fun n => if n = tab.name then some (csvText tab) else db.files n },
      true)
  | .openFails => (db, false)
  | .closeFails => (db, false)
  | .renameFails => (db, false)

/-- The conflict test of `db_commit`: every dirty table still has its base as
head. -/
def commitCheck (db : Db) : List TxTab → Except Fault Bool
  | [] => .ok true
  | item :: items =>
    if item.dirty then do
      let ent ← db.entAt item.ent
      if ent.chain.head? = some item.base then db.commitCheck items else return false
    else db.commitCheck items

/-- Publish one dirty table: the working copy becomes the head, and is saved. -/
def commitInstall (db : Db) (item : TxTab) (ver : Nat) (io : SaveIo) :
    Except Fault (Db × TxTab × Bool) :=
  match item.work with
  | none => .error .freedVer
  | some a => do
    let tab ← db.ver a
    let ent ← db.entAt item.ent
    let tab := { tab with verId := ver }
    let db := { db with
      heap := db.heap.set a tab
      tabs := db.tabs.set item.ent.idx { ent with chain := a :: ent.chain } }
    match db.tabSave tab io with
    | (db, true) => return (db, { item with work := none }, true)
    | (db, false) => return (db, item, false)

/-- The second loop of `db_commit`; `io` gives the fate of the `i`-th save. -/
def commitLoop (ver : Nat) (io : Nat → SaveIo) :
    Nat → Db → List TxTab → Except Fault (Db × List TxTab × Bool)
  | _, db, [] => .ok (db, [], true)
  | i, db, item :: items =>
    if item.dirty then do
      let (db, item, ok) ← db.commitInstall item ver (io i)
      if ok then
        let (db, items, ok) ← commitLoop ver io (i + 1) db items
        return (db, item :: items, ok)
      else return (db, item :: items, false)
    else do
      let (db, items, ok) ← commitLoop ver io (i + 1) db items
      return (db, item :: items, ok)

/-- The critical section of `db_commit`. -/
def commitSection (db : Db) (tx : DbTx) (io : Nat → SaveIo) :
    Except Fault (Db × DbTx × Bool) := do
  if ← db.commitCheck tx.tabs then
    let db := { db with mv := db.mv.mvBump }
    let (db, items, ok) ← commitLoop db.mv.curVer io 0 db tx.tabs
    return (db, { tx with tabs := items }, ok)
  else return (db, tx, false)

/-- `db_commit`: after a success the transaction is gone. -/
def dbCommit (db : Db) (tx : DbTx) (io : Nat → SaveIo) : Except Fault (Db × DbTx × Bool) := do
  let (db, tx, ok) ← db.commitSection tx io
  if ok then
    let db ← db.release tx.snapId
    return (db, tx, true)
  else return (db, tx, false)

/-- `db_abort`. -/
def dbAbort (db : Db) (tx : DbTx) : Except Fault Db := do
  let heap ← freeAll db.heap (tx.tabs.filterMap fun item => item.work)
  release { db with heap := heap } tx.snapId

/-- Every save succeeds. -/
def saveOk : Nat → SaveIo := fun _ => .ok

/-! ## Reads and whole calls -/

/-- The lookup section of `do_read`, with the table loaded on first use. -/
def readTab (db : Db) (snap : Nat) (name : Bytes) : Except Fault (Option Nat × Db) := do
  match ← db.needEnt name with
  | (none, db) => return (none, db)
  | (some k, db) =>
    let ent ← db.entAt ⟨db.tabsGen, k⟩
    return (← db.tabVis snap ent.chain, db)

/-- `do_read`. -/
def doRead (db : Db) (snap : Nat) (sql : Bytes) : Except Fault (Db × DbRes × Bool) :=
  match db.parseOk sql with
  | .error err => .ok (db, { err := some err }, false)
  | .ok stmt =>
    let res : DbRes := {}
    if stmt.type ≠ .select then
      .ok (db, res.fail .badSql "read path accepts SELECT only", false)
    else do
      match ← db.readTab snap stmt.tableName.bytes with
      | (none, db) => return (db, res.fail .badSql "unknown table", false)
      | (some a, db) => db.execAt a stmt { res with snapId := snap }

/-- `db_snap`. -/
def dbSnap (db : Db) : Db × Nat := ({ db with mv := db.mv.mvSnap }, db.mv.snapId)

/-- `db_done`. -/
def dbDone (db : Db) (snap : Nat) : Except Fault Db := db.release snap

/-- The attempts of `db_exec` on a write statement.  `res` is not cleared between
them. -/
def execWrite (stmt : Statement) : Nat → Db → DbRes → Except Fault (Db × DbRes × Bool)
  | 0, db, res => .ok (db, res.fail .txAbort "write conflict after retries", false)
  | left + 1, db, res => do
    let (db, tx) := db.dbBegin
    let (item?, db, tx) ← db.txView tx stmt.tableName.bytes
    match item?.bind fun i => (tx.tabs[i]?).map fun item => (i, item) with
    | none =>
      let db ← db.dbAbort tx
      return (db, res.fail .badSql "unknown table", false)
    | some (i, item) =>
      let (made, db, tx) ← db.txMakeWork tx i item
      if !made then
        let db ← db.dbAbort tx
        return (db, res.fail .oom "out of memory", false)
      else
        match itemTab tx i with
        | none => throw .freedVer
        | some a =>
          let (db, res, ok) ← db.execAt a stmt res
          let (db, tx, done) ← if ok then db.dbCommit tx saveOk else pure (db, tx, false)
          if done then return (db, res, true)
          else
            let db ← db.dbAbort tx
            if res.err.isSome then return (db, res, false)
            else execWrite stmt left db res

/-- `WRITE_RETRY_MAX + 1`. -/
def writeAttempts : Nat := 6

/-- `db_exec`. -/
def dbExec (db : Db) (sql : Bytes) : Except Fault (Db × DbRes × Bool) :=
  match db.parseOk sql with
  | .error err => .ok (db, { err := some err }, false)
  | .ok stmt =>
    if stmt.type = .select then do
      let (db, snap) := db.dbSnap
      let (db, res, ok) ← db.doRead snap sql
      let db ← db.dbDone snap
      return (db, res, ok)
    else execWrite stmt writeAttempts db {}

/-- The statements of a transactional batch, up to the first that fails. -/
def batchLoop : Db → DbTx → List Bytes → Except Fault (Db × DbTx × List DbRes × Bool)
  | db, tx, [] => .ok (db, tx, [], true)
  | db, tx, sql :: sqls => do
    let (db, tx, res, ok) ← db.dbTxdo tx sql
    if ok then
      let (db, tx, out, ok) ← batchLoop db tx sqls
      return (db, tx, res :: out, ok)
    else
      let msg := (res.err.map (·.msg)).getD "query failed"
      return (db, tx, res.fail .txAbort msg :: sqls.map (fun _ => {}), false)

/-- The message a failed commit leaves in the last result. -/
def commitFailed (out : List DbRes) : List DbRes :=
  match out.getLast? with
  | none => out
  | some res => out.dropLast ++ [res.fail .txAbort "commit failed"]

/-- `db_batch` with `tx` set. -/
def dbBatchTx (db : Db) (sqls : List Bytes) : Except Fault (Db × List DbRes × Bool) :=
  if sqls = [] then .ok (db, [], true)
  else if db.maxQry < sqls.length then .ok (db, [], false)
  else do
    let (db, tx) := db.dbBegin
    let (db, tx, out, ok) ← batchLoop db tx sqls
    if !ok then
      let db ← db.dbAbort tx
      return (db, out, false)
    else
      let (db, tx, done) ← db.dbCommit tx saveOk
      if done then return (db, out, true)
      else
        let db ← db.dbAbort tx
        return (db, commitFailed out, false)

/-- The loop of `db_batch` without `tx`. -/
def batchEach : Db → List Bytes → Except Fault (Db × List DbRes)
  | db, [] => .ok (db, [])
  | db, sql :: sqls => do
    let (db, res, ok) ← db.dbExec sql
    let res := if !ok ∧ res.err = none then res.fail .badSql "query failed" else res
    let (db, out) ← batchEach db sqls
    return (db, res :: out)

/-- `db_batch`. -/
def dbBatch (db : Db) (sqls : List Bytes) (tx : Bool) : Except Fault (Db × List DbRes × Bool) :=
  if tx then db.dbBatchTx sqls
  else if sqls = [] then .ok (db, [], true)
  else if db.maxQry < sqls.length then .ok (db, [], false)
  else do
    let (db, out) ← batchEach db sqls
    return (db, out, true)

/-- `db_tab_ver`. -/
def dbTabVer (db : Db) (name : Bytes) : Except Fault (Nat × Db) :=
  if name = [] then .ok (0, db)
  else do
    match ← db.needEnt name with
    | (none, db) => return (0, db)
    | (some k, db) =>
      let ent ← db.entAt ⟨db.tabsGen, k⟩
      match ent.chain.head? with
      | none => return (0, db)
      | some a => return ((← db.ver a).verId, db)

end Db

end MiniDbms
