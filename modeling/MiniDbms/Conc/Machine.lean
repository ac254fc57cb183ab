import MiniDbms.Api.CacheSpec
import MiniDbms.Api.Render
import MiniDbms.Db.Session
import MiniDbms.Lib.Run

/-!
# Threads

Any number of threads work on one store.  A section that holds a mutex is one
step, with one exception: the commit section calls `mv_bump` and then installs
table after table, and `mv_snap`, `mv_gc` and `mv_stat`, which take only the mutex
of the counter, can come in between.  So `owner` is the thread that holds `db->mu`
inside a commit, and whoever else needs `db->mu` waits.

A transaction belongs to a client that chooses its calls, to a `db_exec` of a
write statement with its retries, or to a `db_batch` with `tx`.  `db_snap`,
`db_read` and `db_done` are a client that only reads and gives up its transaction.
The write shards of `db_exec` only rule out some interleavings and are left out.

`hist` and `past` record what happened; no step reads them.
-/

namespace MiniDbms

namespace Conc

/-- Who decides what a transaction does next. -/
inductive Job
  | client
  /-- `db_exec`; `left` attempts remain after the current one -/
  | exec (stmt : Statement) (res : DbRes) (left : Nat)
  /-- `db_batch`: all statements, and those still to do -/
  | batch (sqls todo : List Bytes)

/-- Where a transaction is in its calls. -/
inductive Pc
  | ready
  /-- `tx_view` is done -/
  | run (item? : Option Nat) (stmt : Statement)
  /-- `db_commit` is called -/
  | commit
  /-- `db_abort` is called -/
  | abort
  /-- inside the commit section: the items before `k` are done -/
  | install (ver k : Nat)
  /-- `mv_gc`, `mv_stat` and the pruning section of `gc_tabs` are next -/
  | gc (ok : Bool)
  | stat (ok : Bool)
  | prune (keepId : Nat) (ok : Bool)
  | over (ok : Bool)

structure TxThread where
  job : Job
  tx : DbTx
  pc : Pc
  /-- the write statements of the transaction so far -/
  log : List Statement

/-- Where a `do_sql` request for a SELECT is.  `ver` is what `db_tab_ver` returned, `out`
the result document. -/
inductive ReqPc
  | start
  | look (ver : Nat)
  | snap (ver : Nat)
  | read (ver snap : Nat)
  | gc (ver snap : Nat) (out : Option Bytes)
  | stat (ver : Nat) (out : Option Bytes)
  | prune (ver keepId : Nat) (out : Option Bytes)
  | store (ver : Nat) (data : Bytes)
  /-- answered from the cache -/
  | hit (data : Bytes)
  | done (out : Option Bytes)

inductive Thread
  | tx (t : TxThread)
  | req (sql : Bytes) (stmt : Statement) (pc : ReqPc)

/-- A successful commit. -/
structure Commit where
  thread : Nat
  ver : Nat
  stmts : List Statement
  tabs : List Bytes

end Conc

open Conc

structure Conc where
  db : Db
  owner : Option Nat
  threads : List Thread
  cache : QueryCache
  clock : Nat
  hist : List Commit
  /-- the heads every table has had, newest first -/
  past : Bytes → List TabVer

namespace Db

/-- The head of a loaded table. -/
def headOf (db : Db) (name : Bytes) : Option TabVer :=
  (db.getEnt name).bind fun k => (db.headAddr k).bind db.heap.get

/-- The statement of a `db_exec` attempt, after `tx_view` returned. -/
def execRun (db : Db) (tx : DbTx) (item? : Option Nat) (stmt : Statement) (res : DbRes) :
    Except Fault (Db × DbTx × DbRes × Bool) :=
  match item?.bind fun i => (tx.tabs[i]?).map fun item => (i, item) with
  | none => .ok (db, tx, res.fail .badSql "unknown table", false)
  | some (i, item) => do
    let (made, db, tx) ← db.txMakeWork tx i item
    if !made then return (db, tx, res.fail .oom "out of memory", false)
    else
      match itemTab tx i with
      | none => throw .freedVer
      | some a =>
        let (db, res, ok) ← db.execAt a stmt res
        return (db, tx, res, ok)

end Db

namespace Conc

def init (files : Bytes → Option Bytes) (maxSql maxQry : Int) (ttlNs : Nat) : Conc where
  db := dbOpen files maxSql maxQry
  owner := none
  threads := []
  cache := .queryCacheInit ttlNs
  clock := 0
  hist := []
  past := fun _ => []

/-- What a client asks its transaction for. -/
inductive Act
  | txdo (sql : Bytes)
  | commit
  | abort
  | read (sql : Bytes)

inductive Label
  | begin
  | exec (sql : Bytes)
  | batch (sqls : List Bytes)
  | sql (text : Bytes)
  /-- thread `i` takes its next step -/
  | move (i : Nat)
  /-- the client of thread `i` calls -/
  | call (i : Nat) (act : Act)
  | tick (ns : Nat)

/-- Thread `i` goes on as `t`. -/
def set (m : Conc) (i : Nat) (t : Thread) : Conc := { m with threads := m.threads.set i t }

/-- A new transaction of `db_begin`. -/
def fresh (m : Conc) (job : Job) : Thread := .tx ⟨job, ⟨m.db.mv.snapId, []⟩, .ready, []⟩

/-- `db_begin` in a new thread. -/
def spawn (m : Conc) (job : Job) : Conc :=
  { m with db := { m.db with mv := m.db.mv.mvSnap }, threads := m.threads ++ [m.fresh job] }

/-- The `tx_view` section. -/
def view (m : Conc) (i : Nat) (t : TxThread) (stmt : Statement) : Except Fault Conc :=
  if m.owner ≠ none then .ok m
  else do
    let (item?, db, tx) ← m.db.txView t.tx stmt.tableName.bytes
    return { m with db := db }.set i (.tx { t with tx := tx, pc := .run item? stmt })

/-- What a thread does with the outcome of its statement. -/
def ran (t : TxThread) (res : DbRes) (ok : Bool) : TxThread :=
  match t.job with
  | .client => { t with pc := .ready }
  | .exec stmt _ left =>
    { t with job := .exec stmt res left, pc := if ok then .commit else .abort }
  | .batch _ _ => { t with pc := if ok then .ready else .abort }

/-- The private execution of a statement. -/
def run (m : Conc) (i : Nat) (t : TxThread) (item? : Option Nat) (stmt : Statement) :
    Except Fault Conc := do
  let (db, tx, res, ok) ← match t.job with
    | .exec _ res _ => m.db.execRun t.tx item? stmt res
    | _ => m.db.txRun t.tx item? stmt
  let log := if stmt.isWr then t.log ++ [stmt] else t.log
  return { m with db := db }.set i (.tx (ran { t with tx := tx, log := log } res ok))

/-- Where a thread goes whose commit met a conflict. -/
def refused (t : TxThread) : TxThread :=
  match t.job with
  | .client => { t with pc := .ready }
  | _ => { t with pc := .abort }

/-- The commit section up to `mv_bump`. -/
def commit (m : Conc) (i : Nat) (t : TxThread) : Except Fault Conc :=
  if m.owner ≠ none then .ok m
  else do
    if ← m.db.commitCheck t.tx.tabs then
      let mv := m.db.mv.mvBump
      return { m with db := { m.db with mv := mv }, owner := some i }.set i
        (.tx { t with pc := .install mv.curVer 0 })
    else return m.set i (.tx (refused t))

/-- The names of the tables a transaction wrote. -/
def written (db : Db) (tx : DbTx) : List Bytes :=
  (tx.tabs.filter TxTab.dirty).filterMap fun item => (db.tabs[item.ent.idx]?).map TabEnt.name

/-- One round of the loop of the commit section, or its end. -/
def install (m : Conc) (i : Nat) (t : TxThread) (ver k : Nat) : Except Fault Conc :=
  match t.tx.tabs[k]? with
  | none =>
    .ok ({ m with
      owner := none
      hist := m.hist ++ [(⟨i, ver, t.log, written m.db t.tx⟩ : Commit)] }.set i
        (.tx { t with pc := .gc true }))
  | some item =>
    if item.dirty then do
      let (db, item, _) ← m.db.commitInstall item ver .ok
      return { m with db := db }.set i (.tx { t with
        tx := { t.tx with tabs := t.tx.tabs.set k item }
        pc := .install ver (k + 1) })
    else .ok (m.set i (.tx { t with pc := .install ver (k + 1) }))

/-- `db_abort` up to `mv_gc`. -/
def abort (m : Conc) (i : Nat) (t : TxThread) : Except Fault Conc := do
  let heap ← Db.freeAll m.db.heap (t.tx.tabs.filterMap fun item => item.work)
  return { m with db := { m.db with heap := heap } }.set i
    (.tx { t with tx := { t.tx with tabs := [] }, pc := .gc false })

def gc (m : Conc) (i snap : Nat) (t : Thread) : Conc :=
  { m with db := { m.db with mv := m.db.mv.mvGc snap } }.set i t

/-- The pruning section of `gc_tabs`. -/
def prune (m : Conc) (i keepId : Nat) (t : Thread) : Except Fault Conc :=
  if m.owner ≠ none then .ok m
  else do
    let db ← m.db.gcPrune keepId
    return { m with db := db }.set i t

/-- `db_exec` begins its next attempt after a conflict. -/
def retry (m : Conc) (i : Nat) (t : TxThread) (ok : Bool) : Conc :=
  match t.job with
  | .exec stmt res (left + 1) =>
    if !ok ∧ res.err = none then
      { m with db := { m.db with mv := m.db.mv.mvSnap } }.set i (m.fresh (.exec stmt res left))
    else m
  | _ => m

/-- A thread at rest goes on by itself. -/
def next (m : Conc) (i : Nat) (t : TxThread) : Except Fault Conc :=
  match t.job with
  | .client => .ok m
  | .exec stmt _ _ => m.view i t stmt
  | .batch _ [] => m.commit i t
  | .batch sqls (sql :: todo) =>
    match m.db.parseOk sql with
    | .error _ => .ok (m.set i (.tx { t with pc := .abort }))
    | .ok stmt => m.view i { t with job := .batch sqls todo } stmt

def moveTx (m : Conc) (i : Nat) (t : TxThread) : Except Fault Conc :=
  match t.pc with
  | .ready => m.next i t
  | .run item? stmt => m.run i t item? stmt
  | .commit => m.commit i t
  | .abort => m.abort i t
  | .install ver k => m.install i t ver k
  | .gc ok => .ok (m.gc i t.tx.snapId (.tx { t with pc := .stat ok }))
  | .stat ok => .ok (m.set i (.tx { t with pc := .prune m.db.gcKeepId ok }))
  | .prune keepId ok => m.prune i keepId (.tx { t with pc := .over ok })
  | .over ok => .ok (m.retry i t ok)

def moveReq (m : Conc) (i : Nat) (sql : Bytes) (stmt : Statement) (pc : ReqPc) :
    Except Fault Conc :=
  match pc with
  | .start =>
    if m.owner ≠ none then .ok m
    else do
      let (ver, db) ← m.db.dbTabVer stmt.tableName.bytes
      return { m with db := db }.set i (.req sql stmt (if 0 < ver then .look ver else .snap ver))
  | .look ver =>
    match m.cache.queryCacheLookup sql ver m.clock with
    | (cache, some data, _) => .ok ({ m with cache := cache }.set i (.req sql stmt (.hit data)))
    | (cache, none, _) => .ok ({ m with cache := cache }.set i (.req sql stmt (.snap ver)))
  | .snap ver =>
    .ok ({ m with db := { m.db with mv := m.db.mv.mvSnap } }.set i
      (.req sql stmt (.read ver m.db.mv.snapId)))
  | .read ver snap =>
    if m.owner ≠ none then .ok m
    else do
      let (db, res, ok) ← m.db.doRead snap sql
      return { m with db := db }.set i
        (.req sql stmt (.gc ver snap (if ok then some (sqlData res) else none)))
  | .gc ver snap out => .ok (m.gc i snap (.req sql stmt (.stat ver out)))
  | .stat ver out => .ok (m.set i (.req sql stmt (.prune ver m.db.gcKeepId out)))
  | .prune ver keepId out =>
    m.prune i keepId (.req sql stmt (match out with
      | some data => if 0 < ver then .store ver data else .done out
      | none => .done out))
  | .store ver data =>
    .ok ({ m with cache := m.cache.queryCacheStore sql ver data m.clock }.set i
      (.req sql stmt (.done (some data))))
  | .hit _ => .ok m
  | .done _ => .ok m

/-- A call on a transaction that is at rest. -/
def callTx (m : Conc) (i : Nat) (t : TxThread) : Act → Except Fault Conc
  | .txdo sql =>
    match m.db.parseOk sql with
    | .error _ => .ok m
    | .ok stmt => m.view i t stmt
  | .commit => m.commit i t
  | .abort => m.abort i t
  | .read sql =>
    if m.owner ≠ none then .ok m
    else do
      let (db, _, _) ← m.db.doRead t.tx.snapId sql
      return { m with db := db }

def act (m : Conc) : Label → Except Fault Conc
  | .begin => .ok (m.spawn .client)
  | .exec sql =>
    match m.db.parseOk sql with
    | .error _ => .ok m
    | .ok stmt => if stmt.isWr then .ok (m.spawn (.exec stmt {} (Db.writeAttempts - 1))) else .ok m
  | .batch sqls =>
    if sqls = [] ∨ m.db.maxQry < sqls.length then .ok m else .ok (m.spawn (.batch sqls sqls))
  | .sql text =>
    match parseStatement text with
    | none => .ok m
    | some stmt =>
      if stmt.type = .select ∧ stmt.tableName.bytes ≠ [] then
        .ok { m with threads := m.threads ++ [.req (cstr text) stmt .start] }
      else .ok m
  | .move i =>
    match m.threads[i]? with
    | none => .ok m
    | some (.tx t) => m.moveTx i t
    | some (.req sql stmt pc) => m.moveReq i sql stmt pc
  | .call i act =>
    match m.threads[i]? with
    | some (.tx ⟨.client, tx, .ready, log⟩) => m.callTx i ⟨.client, tx, .ready, log⟩ act
    | _ => .ok m
  | .tick ns => .ok { m with clock := m.clock + ns }

/-- The heads of the tables go on record. -/
def watch (m : Conc) : Conc :=
  { m with past := fun name =>
      match m.db.headOf name with
      | none => m.past name
      | some tab =>
        if (m.past name).head?.map TabVer.verId = some tab.verId then m.past name
        else tab :: m.past name }

def step (m : Conc) (l : Label) : Except Fault Conc := do
  let m ← m.act l
  return m.watch

end Conc

end MiniDbms
