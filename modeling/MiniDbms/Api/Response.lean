import MiniDbms.Api.Buffer
import MiniDbms.Api.QueryCache
import MiniDbms.Db.Mvcc
import MiniDbms.Lib.Json

/-!
# Responses

The functions of `route.c` that write a response, on the buffer they write it into.  A
response that could not be written is `none`, and what was measured (times, thread
numbers, the statistics of the pools) is an argument.
-/

namespace MiniDbms.Api

/-- `HttpRes`; the body is its `len` bytes. -/
structure HttpRes where
  code : Nat
  body : Bytes
  contentType : Bytes
deriving DecidableEq

def jsonType : Bytes := str "application/json"

/-- `res_set_ct`. -/
def resSetCt (code : Nat) (buf : Buf) (contentType : Bytes) : HttpRes :=
  ⟨code, buf.text, if contentType ≠ [] then contentType else jsonType⟩

/-- `res_set`. -/
def resSet (code : Nat) (buf : Buf) : HttpRes := resSetCt code buf jsonType

/-! ## Codes -/

/-- The status codes that this server sends. -/
def statusOf (code : Nat) : Nat :=
  if code ∈ [200, 201, 400, 404, 405, 413, 429, 503] then code else 500

/-- `http_of`. -/
def httpOf (code : Bytes) : Nat :=
  if code = [] then 500
  else if code = str "NO_ROUTE" then 404
  else if code = str "BAD_METH" then 405
  else if code = str "TOO_BIG" then 413
  else if code = str "TOO_MANY" then 429
  else if code = str "Q_FULL" then 503
  else if code = str "INT_ERR" then 500
  else if code = str "OOM" then 500
  else 400

/-- The code as the engine writes it into `err.code`. -/
def errText : ErrCode → Bytes
  | .badSql => str "BAD_SQL"
  | .badReq => str "BAD_REQ"
  | .oom => str "OOM"
  | .intErr => str "INT_ERR"
  | .txAbort => str "TX_ABORT"
  | .tooBig => str "TOO_BIG"

/-- `err.code`. -/
def codeOf (res : DbRes) : Bytes := (res.err.map fun err => errText err.code).getD []

/-- `cache_reason_of`. -/
def cacheReasonOf : QueryCacheMissReason → Bytes
  | .ttlExpired => str "ttl_expired"
  | .versionChanged => str "version_changed"
  | .noEntry => str "no_entry"
  | .none => str "no_entry"

/-! ## Bodies -/

/-- `err_res`. -/
def errRes (http : Nat) (code msg reqId : Bytes) : Option HttpRes := do
  let buf ← Buf.bufPut (str "\x7b\"ok\":false,\"err\":\x7b\"code\":") {}
  let buf ← buf.bufJsn code
  let buf ← buf.bufPut (str ",\"msg\":")
  let buf ← buf.bufJsn msg
  let buf ← buf.bufPut (str "\x7d,\"meta\":\x7b\"req_id\":")
  let buf ← buf.bufJsn reqId
  let buf ← buf.bufPut (str "\x7d\x7d")
  return resSet (statusOf http) buf

/-- The time and the thread of one statement. -/
structure Meter where
  tid : Int
  latMs : Int
  latUs : Int

/-- `sql_ok_data`; the copy of the data grows the buffer as `buf_put` does. -/
def sqlOkData (reqId data : Bytes) (meter : Meter) (cacheStatus cacheReason : Bytes) :
    Option HttpRes := do
  let buf ← Buf.bufPut (str "\x7b\"ok\":true,\"data\":") {}
  let buf ← if 0 < data.length then buf.bufPut data else some buf
  let buf ← buf.bufPut (str ",\"meta\":\x7b\"req_id\":")
  let buf ← buf.bufJsn reqId
  let buf ← buf.bufFmt (str ",\"thr_id\":" ++ printL meter.tid ++ str ",\"lat_ms\":" ++
    printL meter.latMs ++ str ",\"lat_us\":" ++ printL meter.latUs ++
    str ",\"cache\":\x7b\"status\":")
  let buf ← buf.bufJsn cacheStatus
  let buf ← buf.bufPut (str ",\"reason\":")
  let buf ← buf.bufJsn cacheReason
  let buf ← buf.bufPut (str "\x7d\x7d\x7d")
  return resSet 200 buf

/-- `batch_ok`. -/
def batchOk (reqId : Bytes) (resv : List DbRes) (latMs : Int) : Option HttpRes := do
  let buf ← Buf.bufPut (str "\x7b\"ok\":true,\"data\":\x7b\"results\":[") {}
  let buf ← Buf.commaLoop
    (fun (res : DbRes) buf => do
      let buf ← buf.bufPut (str "\x7b\"rows\":")
      let buf ← buf.addRows res.rows
      buf.bufFmt (str ",\"count\":" ++ printL res.count ++ str "\x7d")) resv buf
  let buf ← buf.bufPut (str "]")
  let buf ← buf.bufPut (str "\x7d,\"meta\":\x7b\"req_id\":")
  let buf ← buf.bufJsn reqId
  let buf ← buf.bufFmt (str ",\"lat_ms\":" ++ printL latMs ++ str "\x7d\x7d")
  return resSet 200 buf

/-- The statements in front of the first that failed, and its number from one on. -/
def txCounts (resv : List DbRes) : Nat × Nat :=
  match resv.findIdx? fun res => res.err.isSome with
  | some i => (i, i + 1)
  | none => (resv.length, 0)

/-- `tx_res`. -/
def txRes (reqId : Bytes) (resv : List DbRes) (latMs : Int) (ok : Bool) : Option HttpRes :=
  if ok then batchOk reqId resv latMs
  else do
    let buf ← Buf.bufPut (str "\x7b\"ok\":false,\"err\":\x7b\"code\":\"TX_ABORT\"," ++
      str "\"msg\":\"query failed, rollback completed\"\x7d,\"data\":\x7b") {}
    let buf ← buf.bufFmt (str "\"done\":" ++ printL (txCounts resv).1 ++ str ",\"fail_at\":" ++
      printL (txCounts resv).2)
    let buf ← buf.bufPut (str "\x7d,\"meta\":\x7b\"req_id\":")
    let buf ← buf.bufJsn reqId
    let buf ← buf.bufFmt (str ",\"lat_ms\":" ++ printL latMs ++ str "\x7d\x7d")
    return resSet 400 buf

/-- The response of `do_health`. -/
def doHealth (reqId : Bytes) : Option HttpRes := do
  let buf ← Buf.bufPut (str "\x7b\"ok\":true,\"data\":\x7b\"status\":\"up\"\x7d," ++
    str "\"meta\":\x7b\"req_id\":") {}
  let buf ← buf.bufJsn reqId
  let buf ← buf.bufPut (str "\x7d\x7d")
  return resSet 200 buf

/-! ## Pages -/

/-- What is left of a `QJob` that is done. -/
structure QJob where
  name : Bytes
  res : DbRes
  /-- `rc == 0` -/
  ok : Bool
  tid : Int
  startMs : Int
  latMs : Int

/-- The four jobs of a page. -/
structure PageJobs where
  restaurants : QJob
  order : QJob
  coupons : QJob
  cart : QJob

def PageJobs.all (jobs : PageJobs) : List QJob :=
  [jobs.restaurants, jobs.order, jobs.coupons, jobs.cart]

/-- `add_one`. -/
def addOne (res : DbRes) (buf : Buf) : Option Buf :=
  match res.rows with
  | [] => buf.bufPut (str "\x7b\x7d")
  | obj :: _ => buf.addObj obj

/-- `add_page_data`. -/
def addPageData (jobs : PageJobs) (buf : Buf) : Option Buf := do
  let buf ← buf.bufPut (str "\x7b\"restaurants\":")
  let buf ← buf.addRows jobs.restaurants.res.rows
  let buf ← buf.bufPut (str ",\"order\":")
  let buf ← addOne jobs.order.res buf
  let buf ← buf.bufPut (str ",\"coupons\":")
  let buf ← buf.addRows jobs.coupons.res.rows
  let buf ← buf.bufPut (str ",\"cart\":")
  let buf ← addOne jobs.cart.res buf
  buf.bufChr 125

def trueFalse (b : Bool) : Bytes := if b then str "true" else str "false"

/-- One round of the loop of `add_page_trace`. -/
def addTrace (job : QJob) (buf : Buf) : Option Buf := do
  let buf ← buf.bufPut (str "\x7b\"name\":")
  let buf ← buf.bufJsn job.name
  buf.bufFmt (str ",\"thr_id\":" ++ printL job.tid ++ str ",\"start_ms\":" ++ printL job.startMs ++
    str ",\"lat_ms\":" ++ printL job.latMs ++ str ",\"ok\":" ++
    trueFalse (job.ok && codeOf job.res == []) ++ str "\x7d")

/-- `add_page_trace`. -/
def addPageTrace (jobs : PageJobs) (buf : Buf) : Option Buf := do
  let buf ← buf.bufChr 91
  let buf ← Buf.commaLoop addTrace jobs.all buf
  buf.bufChr 93

/-- `page_sum_lat`. -/
def pageSumLat (jobs : PageJobs) : Int := (jobs.all.map QJob.latMs).sum

/-- `PageMode`. -/
inductive PageMode
  | parallel
  | sequential
  | compare
deriving DecidableEq

/-- `page_single_res`. -/
def pageSingleRes (reqId : Bytes) (mode : PageMode) (delayMs workers : Int) (jobs : PageJobs)
    (totalMs : Int) : Option HttpRes := do
  let modeName := if mode = .sequential then str "sequential" else str "parallel"
  let buf ← Buf.bufPut (str "\x7b\"ok\":true,\"data\":") {}
  let buf ← addPageData jobs buf
  let buf ← buf.bufPut (str ",\"trace\":")
  let buf ← addPageTrace jobs buf
  let buf ← buf.bufPut (str ",\"meta\":\x7b\"req_id\":")
  let buf ← buf.bufJsn reqId
  let buf ← buf.bufPut (str ",\"mode\":")
  let buf ← buf.bufJsn modeName
  let buf ← buf.bufFmt (str ",\"delay_ms\":" ++ printL delayMs ++ str ",\"workers\":" ++
    printL workers ++ str ",\"sum_lat_ms\":" ++ printL (pageSumLat jobs) ++ str ",\"total_ms\":" ++
    printL totalMs ++ str "\x7d\x7d")
  return resSet 200 buf

/-- The times of a run as `page_compare_res` writes them. -/
def addRunTimes (jobs : PageJobs) (totalMs : Int) (buf : Buf) : Option Buf :=
  buf.bufFmt (str ",\"sum_lat_ms\":" ++ printL (pageSumLat jobs) ++ str ",\"total_ms\":" ++
    printL totalMs ++ str "\x7d,")

/-- `page_compare_res`; `quotient` is what `%.1f` prints for the quotient of the two times. -/
def pageCompareRes (reqId : Bytes) (delayMs workers : Int) (seq : PageJobs) (seqMs : Int)
    (par : PageJobs) (parMs : Int) (quotient : Json.Number) : Option HttpRes := do
  let speedup := if 0 < parMs then quotient.text else str "0.0"
  let buf ← Buf.bufPut (str "\x7b\"ok\":true,\"data\":\x7b\"sequential\":\x7b\"trace\":") {}
  let buf ← addPageTrace seq buf
  let buf ← addRunTimes seq seqMs buf
  let buf ← buf.bufPut (str "\"parallel\":\x7b\"trace\":")
  let buf ← addPageTrace par buf
  let buf ← addRunTimes par parMs buf
  let buf ← buf.bufFmt (str "\"speedup\":" ++ speedup ++ str "\x7d,\"meta\":\x7b\"req_id\":")
  let buf ← buf.bufJsn reqId
  let buf ← buf.bufFmt (str ",\"mode\":\"compare\",\"delay_ms\":" ++ printL delayMs ++
    str ",\"workers\":" ++ printL workers ++ str "\x7d\x7d")
  return resSet 200 buf

/-! ## Statistics -/

/-- `PoolSt`. -/
structure PoolSt where
  size : Nat
  active : Nat
  queued : Nat
  done : Nat

/-- The counters of `stats.c`; the sums of times are measured. -/
structure ApiStats where
  totalRequests : Nat := 0
  inflightRequests : Nat := 0
  okResponses : Nat := 0
  errorResponses : Nat := 0
  status503 : Nat := 0
  keepAliveReuse : Nat := 0
  cacheHits : Nat := 0
  cacheMisses : Nat := 0

/-- What `api_stats_snapshot` measures. -/
structure Timing where
  uptimeMs : Nat
  parseNs : Nat
  lockWaitNs : Nat
  engineNs : Nat
  jsonNs : Nat
  sendNs : Nat

def poolText (name : String) (st : PoolSt) : Bytes :=
  str name ++ str ":\x7b\"size\":" ++ printL st.size ++ str ",\"active\":" ++ printL st.active ++
    str ",\"queued\":" ++ printL st.queued ++ str ",\"done\":" ++ printL st.done ++ str "\x7d,"

/-- The response of `do_mst`. -/
def doMst (reqId : Bytes) (ap dp : PoolSt) (mst : MvStat) (st : ApiStats) (timing : Timing) :
    Option HttpRes := do
  let buf ← Buf.bufFmt (str "\x7b\"ok\":true,\"data\":\x7b" ++ poolText "\"api_pool\"" ap ++
    poolText "\"db_pool\"" dp ++
    str "\"mvcc\":\x7b\"tx_live\":" ++ printL mst.txLive ++ str ",\"snap_min\":" ++
    printL mst.snapMin ++ str ",\"ver_now\":" ++ printL mst.verNow ++ str ",\"gc_wait\":" ++
    printL mst.gcWait ++ str "\x7d,\"http\":\x7b\"uptime_ms\":" ++ printL timing.uptimeMs ++
    str ",\"total_requests\":" ++ printL st.totalRequests ++ str ",\"inflight_requests\":" ++
    printL st.inflightRequests ++ str ",\"ok_responses\":" ++ printL st.okResponses ++
    str ",\"error_responses\":" ++ printL st.errorResponses ++ str ",\"status_503\":" ++
    printL st.status503 ++ str ",\"keep_alive_reuse\":" ++ printL st.keepAliveReuse ++
    str "\x7d,\"cache\":\x7b\"hits\":" ++ printL st.cacheHits ++ str ",\"misses\":" ++
    printL st.cacheMisses ++ str "\x7d,\"timing_ns\":\x7b\"parse\":" ++ printL timing.parseNs ++
    str ",\"lock_wait\":" ++ printL timing.lockWaitNs ++ str ",\"engine\":" ++
    printL timing.engineNs ++ str ",\"json\":" ++ printL timing.jsonNs ++ str ",\"send\":" ++
    printL timing.sendNs ++ str "\x7d\x7d,\"meta\":\x7b\"req_id\":") {}
  let buf ← buf.bufJsn reqId
  let buf ← buf.bufPut (str "\x7d\x7d")
  return resSet 200 buf

end MiniDbms.Api
