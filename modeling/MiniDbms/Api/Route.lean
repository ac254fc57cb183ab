import MiniDbms.Api.Fields
import MiniDbms.Api.Http
import MiniDbms.Api.Page
import MiniDbms.Api.Render
import MiniDbms.Api.Response
import MiniDbms.Db.Store

/-!
# Routes

`route_do` and its handlers.  One request is served at a time; the statements that a
handler gives to the pool of `db` workers run in any order, and the pool may refuse
one.  Allocation succeeds.
-/

namespace MiniDbms

namespace Api

/-- `Srv`, with the cache, the counters and the files below `web`. -/
structure Srv where
  db : Db
  cache : QueryCache
  stats : ApiStats
  maxBody : Int
  maxQry : Int
  asset : Bytes → Option Bytes

/-- A run of jobs as the pool had it: `order` names jobs in the order in which workers took
them, and `refused` the job that found the queue full. -/
structure Phase where
  tid : Nat → Int
  startMs : Nat → Int
  latMs : Nat → Int
  totalMs : Int
  order : List Nat
  refused : Option Nat

/-- What a request meets outside. -/
structure Env where
  lookNs : Nat
  storeNs : Nat
  meter : Meter
  seq : Phase
  par : Phase
  quotient : Json.Number
  apiPool : PoolSt
  dbPool : PoolSt
  timing : Timing

/-- `srv_new`, on the files of the database and the lifetime of a cache entry. -/
def srvNew (files : Bytes → Option Bytes) (maxSql maxQry maxBody : Int) (ttlNs : Nat)
    (asset : Bytes → Option Bytes) : Srv where
  db := dbOpen files maxSql maxQry
  cache := .queryCacheInit ttlNs
  stats := {}
  maxBody := maxBody
  maxQry := maxQry
  asset := asset

/-! ## Fields -/

/-- `json_doc`. -/
def jsonDoc (body : Bytes) : Bool :=
  let ptr := skipWs body
  ptr.head? == some 123 && (ptr.rdropWhile isSpace).getLast? == some 125

/-- `json_bool`. -/
def jsonBool (json key : Bytes) : Option Bool :=
  (findKey json key).bind fun ptr =>
    if (str "true").isPrefixOf ptr then some true
    else if (str "false").isPrefixOf ptr then some false
    else none

/-- `sql_is_rd`. -/
def sqlIsRd (sql : Bytes) : Bool :=
  match parseStatement sql with
  | some stmt => stmt.type == .select
  | none => false

/-- `strtol` on a text that it has to take whole; a value out of range is cut to the range. -/
def strtolAll (s : Bytes) : Option Int :=
  let (negative, digits) := takeSign (s.dropWhile isSpace)
  if digits ≠ [] ∧ digits.all isDigit then
    let v : Int := if negative then -(digitsVal digits : Int) else digitsVal digits
    some (max LONG_MIN (min LONG_MAX v))
  else none

/-- `page_mode_of`. -/
def pageModeOf (raw : Bytes) : Option PageMode :=
  if raw = [] ∨ raw = str "parallel" then some .parallel
  else if raw = str "sequential" then some .sequential
  else if raw = str "compare" then some .compare
  else none

/-- `page_delay_of`, with `PAGE_DELAY_MS_MAX`. -/
def pageDelayOf (raw : Bytes) : Option Int :=
  if raw = [] then some 0
  else (strtolAll raw).bind fun val => if val < 0 then none else some (min val 200)

/-- `page_workers_of`, with `PAGE_WORKERS_MIN` and `PAGE_WORKERS_MAX`. -/
def pageWorkersOf (raw : Bytes) : Option Nat :=
  if raw = [] then some 4
  else (strtolAll raw).bind fun val => if val < 1 ∨ 4 < val then none else some val.toNat

/-! ## Jobs -/

/-- The jobs from `lo` to `hi` in the order in which they are taken. -/
def schedule (order : List Nat) (lo hi : Nat) : List Nat :=
  let listed := (order.filter fun i => decide (lo ≤ i ∧ i < hi)).dedup
  listed ++ (List.range' lo (hi - lo)).filter fun i => decide (i ∉ listed)

/-- The order of all jobs, at most `workers` of them in the pool at a time; none is added
behind a refused one. -/
def jobOrder (workers n : Nat) (phase : Phase) : List Nat :=
  let added := (phase.refused.map fun j => min j n).getD n
  ((List.range n).filter fun i => decide (i % workers = 0)).flatMap fun i =>
    schedule phase.order i (min (i + workers) added)

def Phase.refuses (phase : Phase) (n : Nat) : Bool :=
  match phase.refused with
  | some j => decide (j < n)
  | none => false

end Api

/-- `qjob_run` of the jobs one after another. -/
def Db.readJobs (snap : Nat) (sqls : List Bytes) :
    List Nat → Db → Except Fault (Db × List (Nat × DbRes × Bool))
  | [], db => .ok (db, [])
  | i :: order, db => do
    let (db, res, ok) ← db.doRead snap (sqls.getD i [])
    let (db, done) ← readJobs snap sqls order db
    return (db, (i, res, ok) :: done)

namespace Api

/-- What job `i` left; one that did not run is zeroed. -/
def resultOf (done : List (Nat × DbRes × Bool)) (i : Nat) : DbRes × Bool :=
  (done.lookup i).getD ({}, true)

/-- Statements on one snapshot in the given order. -/
def readOn (db : Db) (sqls : List Bytes) (order : List Nat) :
    Except Fault (Db × List (DbRes × Bool)) := do
  let (db, snap) := db.dbSnap
  let (db, done) ← db.readJobs snap sqls order
  let db ← db.dbDone snap
  return (db, (List.range sqls.length).map (resultOf done))

/-- Statements given to the pool, or `none` where it refuses one. -/
def readParallel (db : Db) (sqls : List Bytes) (workers : Nat) (phase : Phase) :
    Except Fault (Db × Option (List (DbRes × Bool))) := do
  let (db, out) ← readOn db sqls (jobOrder workers sqls.length phase)
  return (db, if phase.refuses sqls.length then none else some out)

/-! ## Handlers -/

/-- What a handler over a state leaves and answers; `none` where no response was written. -/
abbrev Handled (σ : Type) := σ × Option HttpRes

section

variable {σ : Type} (s : σ) (req : Http.HttpReq) (reqId : Bytes)

/-- The checks that `do_sql` and `do_batch` make first. -/
def withBody (handler : Bytes → Except Fault (Handled σ)) : Except Fault (Handled σ) :=
  let body := cstr req.body
  if skipWs body = [] then .ok (s, errRes 400 (str "BAD_REQ") (str "empty body") reqId)
  else if !jsonDoc body then
    .ok (s, errRes 400 (str "BAD_JSON") (str "invalid json body") reqId)
  else handler body

/-- The handler of a path that takes one method. -/
def only (meth : Bytes) (handler : Except Fault (Handled σ)) : Except Fault (Handled σ) :=
  if req.meth.bytes ≠ meth then
    .ok (s, errRes 405 (str "BAD_METH") (str "method not allowed") reqId)
  else handler

/-- The parameters of a page, as `do_page` checks them. -/
def withPage (handler : PageMode → Int → Nat → Except Fault (Handled σ)) :
    Except Fault (Handled σ) :=
  match pageModeOf (qryGet 31 (str "mode") req.qry.bytes).bytes with
  | none => .ok (s, errRes 400 (str "BAD_REQ") (str "invalid mode") reqId)
  | some mode =>
    match pageDelayOf (qryGet 31 (str "delay_ms") req.qry.bytes).bytes with
    | none => .ok (s, errRes 400 (str "BAD_REQ") (str "invalid delay_ms") reqId)
    | some delayMs =>
      match pageWorkersOf (qryGet 31 (str "workers") req.qry.bytes).bytes with
      | none => .ok (s, errRes 400 (str "BAD_REQ") (str "invalid workers") reqId)
      | some workers => handler mode delayMs workers

/-- What the routes of `route_do` lead to. -/
structure Handlers (σ : Type) where
  asset : Bytes → Bytes → Option HttpRes
  sql : Except Fault (Handled σ)
  batch : Bool → Except Fault (Handled σ)
  page : Except Fault (Handled σ)
  metrics : Option HttpRes

/-- `route_do`. -/
def dispatch (h : Handlers σ) : Except Fault (Handled σ) :=
  let path := req.path.bytes
  let get := only s req reqId (str "GET")
  let post := only s req reqId (str "POST")
  if path = str "/demo" then
    get (.ok (s, h.asset (str "web/demo.html") (str "text/html; charset=utf-8")))
  else if path = str "/demo.css" then
    get (.ok (s, h.asset (str "web/demo.css") (str "text/css; charset=utf-8")))
  else if path = str "/demo.js" then
    get (.ok (s, h.asset (str "web/demo.js") (str "application/javascript; charset=utf-8")))
  else if path = str "/api/v1/health" then get (.ok (s, doHealth reqId))
  else if path = str "/api/v1/sql" then post h.sql
  else if path = str "/api/v1/batch" then post (h.batch false)
  else if path = str "/api/v1/tx" then post (h.batch true)
  else if path = str "/api/v1/page" then get h.page
  else if path = str "/api/v1/metrics" then get (.ok (s, h.metrics))
  else .ok (s, errRes 404 (str "NO_ROUTE") (str "route not found") reqId)

end

/-- A file below `web`, as `do_asset` answers with it. -/
def doAsset (asset : Bytes → Option Bytes) (reqId path contentType : Bytes) : Option HttpRes :=
  match asset path with
  | none => errRes 500 (str "INT_ERR") (str "failed to load demo asset") reqId
  | some raw => some (resSetCt 200 ⟨raw ++ [0], raw.length⟩ contentType)

/-- The answer of `do_sql` to a statement that failed. -/
def sqlFailed (reqId : Bytes) (dres : DbRes) : Option HttpRes :=
  let code := codeOf dres
  errRes (httpOf code) (if code ≠ [] then code else str "BAD_SQL")
    ((dres.err.map fun err => str err.msg).getD (str "query failed")) reqId

/-- `do_sql` from `db_exec` on; `ver` is zero for a statement that is not cached. -/
def execSql (srv : Srv) (reqId : Bytes) (env : Env) (sql : Bytes) (ver : Nat) (reason : Bytes) :
    Except Fault (Handled Srv) := do
  let (db, dres, ok) ← srv.db.dbExec sql
  let srv := { srv with db := db }
  if ok then
    match Buf.sqlDataDump dres with
    | none => return (srv, none)
    | some (data, _) =>
      let res := sqlOkData reqId data env.meter (str "miss") reason
      let cache := if 0 < ver then srv.cache.queryCacheStore sql ver data env.storeNs
        else srv.cache
      return ({ srv with cache := cache }, res)
  else return (srv, sqlFailed reqId dres)

/-- The table whose version labels the answer to a statement that may be cached. -/
def cacheTable (sql : Bytes) : Option Bytes :=
  match parseStatement sql with
  | some stmt =>
    if stmt.type = .select ∧ stmt.tableName.bytes ≠ [] then some stmt.tableName.bytes else none
  | none => none

/-- `do_sql` on its statement. -/
def serveSql (srv : Srv) (reqId : Bytes) (env : Env) (sql : Bytes) : Except Fault (Handled Srv) :=
  match cacheTable sql with
  | none => execSql srv reqId env sql 0 (str "not_cacheable")
  | some table => do
    let (ver, db) ← srv.db.dbTabVer table
    let srv := { srv with db := db }
    let missed := { srv.stats with cacheMisses := srv.stats.cacheMisses + 1 }
    if 0 < ver then
      match srv.cache.queryCacheLookup sql ver env.lookNs with
      | (cache, some data, _) =>
        let stats := { srv.stats with cacheHits := srv.stats.cacheHits + 1 }
        return ({ srv with cache := cache, stats := stats },
          sqlOkData reqId data env.meter (str "hit") (str "cache_hit"))
      | (cache, none, reason) =>
        execSql { srv with cache := cache, stats := missed } reqId env sql ver
          (cacheReasonOf reason)
    else execSql { srv with stats := missed } reqId env sql 0 (cacheReasonOf .noEntry)

/-- The statement of a body, as `do_sql` takes it out. -/
def withQuery {σ : Type} (s : σ) (req : Http.HttpReq) (reqId : Bytes)
    (handler : Bytes → Except Fault (Handled σ)) : Except Fault (Handled σ) :=
  withBody s req reqId fun body =>
    let sql := (jsonStr body (str "query")).getD []
    if sql = [] then .ok (s, errRes 400 (str "BAD_REQ") (str "missing query") reqId)
    else handler sql

/-- `do_sql`. -/
def doSql (srv : Srv) (req : Http.HttpReq) (reqId : Bytes) (env : Env) :
    Except Fault (Handled Srv) :=
  withQuery srv req reqId (serveSql srv reqId env)

/-- The statements of a body and whether they are one transaction, as `do_batch` takes them
out. -/
def withQueries {σ : Type} (s : σ) (maxQry : Int) (req : Http.HttpReq) (reqId : Bytes)
    (forceTx : Bool) (handler : List Bytes → Bool → Except Fault (Handled σ)) :
    Except Fault (Handled σ) :=
  withBody s req reqId fun body =>
    let tx := forceTx || (jsonBool body (str "tx")).getD false
    match jsonArr body (str "queries") with
    | .values (sql :: more) =>
      if maxQry < (sql :: more).length then
        .ok (s, errRes 429 (str "TOO_MANY") (str "too many queries") reqId)
      else handler (sql :: more) tx
    | _ => .ok (s, errRes 400 (str "BAD_REQ") (str "missing queries") reqId)

def queueFull (reqId : Bytes) : Option HttpRes :=
  errRes 503 (str "Q_FULL") (str "db queue full") reqId

/-- Several statements that only read go to the pool. -/
def goesToPool (sqls : List Bytes) (tx : Bool) : Bool :=
  !tx && sqls.all sqlIsRd && decide (1 < sqls.length)

def batchAnswer (reqId : Bytes) (resv : List DbRes) (latMs : Int) (tx ok : Bool) :
    Option HttpRes :=
  if tx ∧ !ok then txRes reqId resv latMs false else batchOk reqId resv latMs

/-- `do_batch` on its statements. -/
def serveBatch (srv : Srv) (reqId : Bytes) (env : Env) (sqls : List Bytes) (tx : Bool) :
    Except Fault (Handled Srv) :=
  if goesToPool sqls tx then do
    let (db, out) ← readParallel srv.db sqls sqls.length env.par
    match out with
    | none => return ({ srv with db := db }, queueFull reqId)
    | some out => return ({ srv with db := db }, batchOk reqId (out.map Prod.fst) env.meter.latMs)
  else do
    let (db, resv, ok) ← srv.db.dbBatch sqls tx
    return ({ srv with db := db }, batchAnswer reqId resv env.meter.latMs tx ok)

/-- `do_batch`. -/
def doBatch (srv : Srv) (req : Http.HttpReq) (reqId : Bytes) (env : Env) (forceTx : Bool) :
    Except Fault (Handled Srv) :=
  withQueries srv srv.maxQry req reqId forceTx (serveBatch srv reqId env)

/-- The jobs of a page that are done. -/
def pageJobs (out : List (DbRes × Bool)) (phase : Phase) : PageJobs :=
  let job (name : String) (i : Nat) : QJob :=
    ⟨str name, (out.getD i ({}, true)).1, (out.getD i ({}, true)).2, phase.tid i, phase.startMs i,
      phase.latMs i⟩
  ⟨job "restaurants" 0, job "order" 1, job "coupons" 2, job "cart" 3⟩

/-- The response of a page that was run in one mode. -/
def singleAnswer (reqId : Bytes) (mode : PageMode) (delayMs : Int) (workers : Nat)
    (out : List (DbRes × Bool)) (phase : Phase) : Option HttpRes :=
  pageSingleRes reqId mode delayMs workers (pageJobs out phase) phase.totalMs

def compareAnswer (reqId : Bytes) (env : Env) (delayMs : Int) (workers : Nat)
    (seqOut out : List (DbRes × Bool)) : Option HttpRes :=
  pageCompareRes reqId delayMs workers (pageJobs seqOut env.seq) env.seq.totalMs
    (pageJobs out env.par) env.par.totalMs env.quotient

/-- `do_page` on its statements. -/
def servePage (srv : Srv) (sqls : List Bytes) (reqId : Bytes) (env : Env) (mode : PageMode)
    (delayMs : Int) (workers : Nat) : Except Fault (Handled Srv) :=
  match mode with
  | .sequential => do
    let (db, out) ← readOn srv.db sqls (List.range sqls.length)
    return ({ srv with db := db }, singleAnswer reqId .sequential delayMs workers out env.seq)
  | .parallel => do
    let (db, out) ← readParallel srv.db sqls workers env.par
    match out with
    | none => return ({ srv with db := db }, queueFull reqId)
    | some out =>
      return ({ srv with db := db }, singleAnswer reqId .parallel delayMs workers out env.par)
  | .compare => do
    let (db, seqOut) ← readOn srv.db sqls (List.range sqls.length)
    let (db, out) ← readParallel db sqls workers env.par
    match out with
    | none => return ({ srv with db := db }, queueFull reqId)
    | some out =>
      return ({ srv with db := db }, compareAnswer reqId env delayMs workers seqOut out)

/-- `sqlv`. -/
def sqlv (sqls : PageSqls) : List Bytes := [sqls.sql0, sqls.sql1, sqls.sql2, sqls.sql3]

/-- `do_page`. -/
def doPage (srv : Srv) (req : Http.HttpReq) (reqId : Bytes) (env : Env) :
    Except Fault (Handled Srv) :=
  withPage srv req reqId (servePage srv (sqlv (pageSqls req)) reqId env)

/-- `route_do` of the server. -/
def routeDo (srv : Srv) (req : Http.HttpReq) (reqId : Bytes) (env : Env) :
    Except Fault (Handled Srv) :=
  dispatch srv req reqId
    { asset := doAsset srv.asset reqId
      sql := doSql srv req reqId env
      batch := doBatch srv req reqId env
      page := doPage srv req reqId env
      metrics := doMst reqId env.apiPool env.dbPool srv.db.mv.mvStat srv.stats env.timing }

/-- A request with its number and what it meets. -/
structure Request where
  req : Http.HttpReq
  reqId : Bytes
  env : Env

/-- Requests one after another. -/
def serveAll : Srv → List Request → Except Fault (Srv × List (Option HttpRes))
  | srv, [] => .ok (srv, [])
  | srv, r :: rs => do
    let (srv, answer) ← routeDo srv r.req r.reqId r.env
    let (srv, answers) ← serveAll srv rs
    return (srv, answer :: answers)

end Api

end MiniDbms
