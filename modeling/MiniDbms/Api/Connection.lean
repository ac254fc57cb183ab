import MiniDbms.Api.Framing
import MiniDbms.Api.Route

/-!
# Connections

`conn_run`, `send_res` and `reason_of` of `srv.c`, with the counters of `stats.c`.  A
connection takes one round of the loop of `conn_run` at a time, and the rounds of several
connections come in any order.  Sending does not fail.
-/

namespace MiniDbms.Api

/-! ## Responses on the wire -/

/-- `reason_of`. -/
def reasonOf (code : Nat) : Bytes :=
  if code = 200 then str "OK"
  else if code = 201 then str "Created"
  else if code = 400 then str "Bad Request"
  else if code = 404 then str "Not Found"
  else if code = 405 then str "Method Not Allowed"
  else if code = 413 then str "Payload Too Large"
  else if code = 429 then str "Too Many Requests"
  else if code = 503 then str "Service Unavailable"
  else str "Internal Server Error"

/-- What `snprintf` makes of the head of a response. -/
def headOf (res : HttpRes) (connClose : Bool) : Bytes :=
  let contentType := if res.contentType ≠ [] then res.contentType else jsonType
  str "HTTP/1.1 " ++ printL res.code ++ str " " ++ reasonOf res.code ++ str "\r\n" ++
    str "Content-Type: " ++ contentType ++ str "\r\n" ++
    str "Content-Length: " ++ printL res.body.length ++ str "\r\n" ++
    str "Connection: " ++ (if connClose then str "close" else str "keep-alive") ++ str "\r\n\r\n"

/-- `send_res`.  The head is written into 256 bytes, and what does not fit would be sent from
behind them. -/
def sendRes (res : HttpRes) (connClose : Bool) : Option Bytes :=
  let head := headOf res connClose
  if head.length < 256 then some (head ++ res.body) else none

/-! ## Counters -/

namespace ApiStats

/-- `api_stats_note_request_started`. -/
def noteRequestStarted (st : ApiStats) : ApiStats :=
  { st with totalRequests := st.totalRequests + 1, inflightRequests := st.inflightRequests + 1 }

/-- `api_stats_note_request_finished`. -/
def noteRequestFinished (st : ApiStats) (code : Nat) : ApiStats :=
  let st := { st with inflightRequests := st.inflightRequests - 1 }
  if 200 ≤ code ∧ code < 400 then { st with okResponses := st.okResponses + 1 }
  else if code = 503 then { st with status503 := st.status503 + 1 }
  else { st with errorResponses := st.errorResponses + 1 }

/-- `api_stats_note_immediate_503`. -/
def noteImmediate503 (st : ApiStats) : ApiStats :=
  { st with totalRequests := st.totalRequests + 1, status503 := st.status503 + 1 }

/-- `api_stats_note_keep_alive_reuse`. -/
def noteKeepAliveReuse (st : ApiStats) : ApiStats :=
  { st with keepAliveReuse := st.keepAliveReuse + 1 }

end ApiStats

/-! ## `conn_run` -/

/-- A connection: what is left to receive, what was sent, and whether the loop still runs.
`chunks` records what it was opened with. -/
structure Conn where
  chunks : List Bytes
  http : Http.HttpConn
  sent : Bytes
  reqCount : Nat
  live : Bool

/-- A response, for the record. -/
structure Event where
  conn : Nat
  result : Http.Result
  reqId : Bytes
  env : Env
  res : HttpRes
  connClose : Bool

/-- The server with its connections.  `rejected` is what the clients were sent that found the
queue of the pool full, and `log` records what was answered so far. -/
structure Host where
  srv : Srv
  reqSeq : Nat
  conns : List Conn
  rejected : List Bytes
  log : List Event

/-- The response to a request that could not be parsed. -/
def refusal (code : Nat) (reqId : Bytes) : Option HttpRes := do
  let (errc, msg) :=
    if code = 413 then (str "TOO_BIG", str "request body too large")
    else if code = 500 then (str "INT_ERR", str "internal server error")
    else (str "BAD_REQ", str "request parse failed")
  let buf ← Buf.bufPut (str "\x7b\"ok\":false,\"err\":\x7b\"code\":") {}
  let buf ← buf.bufJsn errc
  let buf ← buf.bufPut (str ",\"msg\":")
  let buf ← buf.bufJsn msg
  let buf ← buf.bufPut (str "\x7d,\"meta\":\x7b\"req_id\":")
  let buf ← buf.bufJsn reqId
  let buf ← buf.bufPut (str "\x7d\x7d")
  return resSet code buf

/-- The response to a connection that found the queue full. -/
def apiQueueFull : Option HttpRes := do
  let buf ← Buf.bufPut (str "\x7b\"ok\":false,\"err\":\x7b\"code\":\"Q_FULL\"," ++
    str "\"msg\":\"api queue full\"\x7d\x7d") {}
  return resSet 503 buf

/-- A response that was never set. -/
def noRes : HttpRes := ⟨0, [], []⟩

inductive Label
  /-- a client connects, and its bytes will arrive in these chunks -/
  | accept (chunks : List Bytes)
  /-- a client connects while the queue of the pool is full -/
  | reject
  /-- a connection goes once through the loop -/
  | round (i : Nat) (env : Env)

inductive HostFault
  | engine (fault : Fault)
  /-- a head behind its 256 bytes -/
  | head

/-- The bytes of a response that can be sent. -/
def sending (res : HttpRes) (connClose : Bool) : Except HostFault Bytes :=
  match sendRes res connClose with
  | some bytes => .ok bytes
  | none => .error .head

/-- What `conn_run` makes of a request: the response, and whether the connection is closed
behind it. -/
def respond (srv : Srv) (result : Http.Result) (reqId : Bytes) (env : Env) :
    Except HostFault (Srv × HttpRes × Bool) :=
  if result.code ≠ 200 then .ok (srv, (refusal result.code reqId).getD noRes, true)
  else
    match routeDo srv result.req reqId env with
    | .ok (srv, answer) => .ok (srv, answer.getD noRes, result.connClose)
    | .error fault => .error (.engine fault)

namespace Srv

/-- The counters at the start of a request. -/
def started (srv : Srv) (reqCount : Nat) : Srv :=
  let stats := srv.stats.noteRequestStarted
  { srv with stats := if 0 < reqCount then stats.noteKeepAliveReuse else stats }

def finished (srv : Srv) (code : Nat) : Srv :=
  { srv with stats := srv.stats.noteRequestFinished code }

end Srv

namespace Host

/-- One round of the loop of `conn_run`. -/
def connRound (host : Host) (i : Nat) (conn : Conn) (env : Env) : Except HostFault Host :=
  let (result, http) := Http.parseReq host.srv.maxBody conn.http
  if result.code = 0 then
    .ok { host with conns := host.conns.set i { conn with http := http, live := false } }
  else do
    let reqId := printL ((host.reqSeq + 1 : Nat) : Int)
    let (srv, res, connClose) ← respond (host.srv.started conn.reqCount) result reqId env
    let bytes ← sending res connClose
    let conn := { conn with
      http := http, sent := conn.sent ++ bytes, reqCount := conn.reqCount + 1, live := !connClose }
    return { host with
      srv := srv.finished res.code, reqSeq := host.reqSeq + 1, conns := host.conns.set i conn
      log := host.log ++ [⟨i, result, reqId, env, res, connClose⟩] }

/-- The loop of `srv_run`, and the rounds of the connections it has accepted. -/
def step (host : Host) : Label → Except HostFault Host
  | .accept chunks =>
    let conn := ⟨chunks, Http.connInit chunks host.srv.maxBody, [], 0, true⟩
    .ok { host with conns := host.conns ++ [conn] }
  | .reject => do
    let bytes ← sending (apiQueueFull.getD noRes) true
    return { host with
      srv := { host.srv with stats := host.srv.stats.noteImmediate503 }
      rejected := host.rejected ++ [bytes] }
  | .round i env =>
    match host.conns[i]? with
    | some conn => if conn.live then host.connRound i conn env else .ok host
    | none => .ok host

end Host

/-- The server when it starts to listen. -/
def hostNew (srv : Srv) : Host := ⟨srv, 0, [], [], []⟩

end MiniDbms.Api
