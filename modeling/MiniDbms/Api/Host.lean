import MiniDbms.Api.Answers
import MiniDbms.Api.Wire
import MiniDbms.Lib.Run

/-!
# The server and its clients

Connections come and go, their rounds interleave in any order, and every connection keeps
its bookkeeping: what it was sent is what the record says, request after request, and the
store moves as the abstract server does on the requests in the order of the record.
-/

namespace MiniDbms.Api

open Http (parseReq connInit after calls)

variable {host host' : Host} {l : Label} {i j : Nat} {conn : Conn} {maxBody : Int} {front : Front}

/-! ## What one step does -/

theorem sendRes_some {res : HttpRes} {connClose : Bool} {bytes : Bytes}
    (h : sending res connClose = .ok bytes) : bytes = headOf res connClose ++ res.body := by
  unfold sending at h
  split at h
  · rename_i sent hsent
    cases h
    unfold sendRes at hsent
    dsimp only at hsent
    split at hsent
    · cases hsent
      rfl
    · cases hsent
  · cases h

/-- A round that answers a request. -/
structure Answered (host : Host) (i : Nat) (conn : Conn) (e : Event) (srv : Srv)
    (http : Http.HttpConn) (bytes : Bytes) : Prop where
  found : host.conns[i]? = some conn
  live : conn.live = true
  parsed : parseReq host.srv.maxBody conn.http = (e.result, http)
  code : e.result.code ≠ 0
  number : e.reqId = printL ((host.reqSeq + 1 : Nat) : Int)
  index : e.conn = i
  responded : respond (host.srv.started conn.reqCount) e.result e.reqId e.env =
    .ok (srv, e.res, e.connClose)
  sent : sending e.res e.connClose = .ok bytes

namespace Host

/-- What the host is after a request was answered. -/
def answered (host : Host) (i : Nat) (conn : Conn) (e : Event) (srv : Srv)
    (http : Http.HttpConn) (bytes : Bytes) : Host :=
  { host with
    srv := srv.finished e.res.code, reqSeq := host.reqSeq + 1
    conns := host.conns.set i { conn with
      http := http, sent := conn.sent ++ bytes, reqCount := conn.reqCount + 1
      live := !e.connClose }
    log := host.log ++ [e] }

inductive Stepped (host : Host) : Host → Prop
  | accept (chunks : List Bytes) : Stepped host { host with
      conns := host.conns ++ [⟨chunks, connInit chunks host.srv.maxBody, [], 0, true⟩] }
  | reject {bytes : Bytes} : Stepped host { host with
      srv := { host.srv with stats := host.srv.stats.noteImmediate503 }
      rejected := host.rejected ++ [bytes] }
  | idle : Stepped host host
  | ended {i : Nat} {conn : Conn} {http : Http.HttpConn} (hconn : host.conns[i]? = some conn) :
      Stepped host { host with conns := host.conns.set i { conn with http := http, live := false } }
  | answered {i : Nat} {conn : Conn} {e : Event} {srv : Srv} {http : Http.HttpConn} {bytes : Bytes}
      (h : Answered host i conn e srv http bytes) :
      Stepped host (host.answered i conn e srv http bytes)

theorem step_cases (h : host.step l = .ok host') : Stepped host host' := by
  cases l with
  | accept chunks =>
      cases h
      exact .accept chunks
  | reject =>
      obtain ⟨bytes, -, h⟩ := bind_ok.1 h
      cases h
      exact .reject
  | round i env =>
      unfold step at h
      dsimp only at h
      split at h
      · rename_i conn hconn
        split at h
        · rename_i hlive
          unfold connRound at h
          cases hparse : parseReq host.srv.maxBody conn.http with
          | mk result http =>
              rw [hparse] at h
              dsimp only at h
              split at h
              · cases h
                exact .ended hconn
              · rename_i hcode
                obtain ⟨⟨srv, res, connClose⟩, hres, h⟩ := bind_ok.1 h
                obtain ⟨bytes, hbytes, h⟩ := bind_ok.1 h
                cases h
                exact .answered (e := ⟨i, result, _, env, res, connClose⟩)
                  ⟨hconn, hlive, hparse, hcode, rfl, rfl, hres, hbytes⟩
        · cases h
          exact .idle
      · cases h
        exact .idle

end Host

/-! ## Connections -/

/-- What was answered on a connection. -/
def Host.on (host : Host) (i : Nat) : List Event := host.log.filter fun e => e.conn == i

/-- The bookkeeping of a connection. -/
structure ConnOk (maxBody : Int) (events : List Event) (conn : Conn) : Prop where
  sent : conn.sent = streamOf (events.map fun e => (e.res, e.connClose))
  count : conn.reqCount = events.length
  results : events.map Event.result = calls maxBody events.length (connInit conn.chunks maxBody)
  http : conn.live = true → conn.http = after maxBody events.length (connInit conn.chunks maxBody)
  running : conn.live = true → ∀ e ∈ events, e.connClose = false
  before : ∀ e ∈ events.dropLast, e.connClose = false

theorem calls_succ (maxBody : Int) (n : Nat) (http : Http.HttpConn) :
    calls maxBody (n + 1) http =
        calls maxBody n http ++ [(parseReq maxBody (after maxBody n http)).1] ∧
      after maxBody (n + 1) http = (parseReq maxBody (after maxBody n http)).2 := by
  induction n generalizing http with
  | zero => exact ⟨rfl, rfl⟩
  | succ n ih =>
      obtain ⟨hcalls, hafter⟩ := ih (parseReq maxBody http).2
      exact ⟨by rw [calls, hcalls]; rfl, hafter⟩

theorem ConnOk.fresh (maxBody : Int) (chunks : List Bytes) :
    ConnOk maxBody [] ⟨chunks, connInit chunks maxBody, [], 0, true⟩ where
  sent := rfl
  count := rfl
  results := rfl
  http := fun _ => rfl
  running := fun _ _ he => absurd he List.not_mem_nil
  before := fun _ he => absurd he List.not_mem_nil

theorem ConnOk.ended {events : List Event} (h : ConnOk maxBody events conn) (http : Http.HttpConn) :
    ConnOk maxBody events { conn with http := http, live := false } where
  sent := h.sent
  count := h.count
  results := h.results
  http := fun hlive => absurd hlive Bool.false_ne_true
  running := fun hlive => absurd hlive Bool.false_ne_true
  before := h.before

theorem ConnOk.answered {events : List Event} {e : Event} {http : Http.HttpConn}
    (h : ConnOk maxBody events conn) (hlive : conn.live = true)
    (hparse : parseReq maxBody conn.http = (e.result, http)) :
    ConnOk maxBody (events ++ [e]) { conn with
      http := http, sent := conn.sent ++ (headOf e.res e.connClose ++ e.res.body)
      reqCount := conn.reqCount + 1, live := !e.connClose } := by
  obtain ⟨hcalls, hafter⟩ := calls_succ maxBody events.length (connInit conn.chunks maxBody)
  rw [← h.http hlive, hparse] at hcalls hafter
  refine ⟨?_, ?_, ?_, ?_, ?_, ?_⟩
  · dsimp only
    rw [h.sent]
    unfold streamOf
    rw [List.map_append, List.flatMap_append]
    simp
  · dsimp only
    rw [h.count, List.length_append]
    rfl
  · rw [List.map_append, h.results, List.length_append, List.length_singleton, hcalls]
    rfl
  · intro _
    rw [List.length_append, List.length_singleton, hafter]
  · intro hopen e' he'
    rcases List.mem_append.1 he' with he' | he'
    · exact h.running hlive e' he'
    · rw [List.mem_singleton.1 he']
      simpa using hopen
  · intro e' he'
    rw [List.dropLast_concat] at he'
    exact h.running hlive e' he'

/-- All connections. -/
structure ConnsOk (maxBody : Int) (host : Host) : Prop where
  conns : ∀ i conn, host.conns[i]? = some conn → ConnOk maxBody (host.on i) conn
  known : ∀ e ∈ host.log, e.conn < host.conns.length

theorem on_other {e : Event} (hne : e.conn ≠ j) (log : List Event) :
    (log ++ [e]).filter (fun e => e.conn == j) = log.filter fun e => e.conn == j := by
  rw [List.filter_append, List.filter_cons_of_neg (by simpa using hne), List.filter_nil,
    List.append_nil]

theorem on_self {e : Event} (heq : e.conn = j) (log : List Event) :
    (log ++ [e]).filter (fun e => e.conn == j) = (log.filter fun e => e.conn == j) ++ [e] := by
  rw [List.filter_append, List.filter_cons_of_pos (by simpa using heq), List.filter_nil]

theorem ConnsOk.step (h : ConnsOk host.srv.maxBody host) (hs : Host.Stepped host host') :
    ConnsOk host.srv.maxBody host' := by
  cases hs with
  | accept chunks =>
      refine ⟨fun i conn hconn => ?_, fun e he => ?_⟩
      · dsimp only at hconn
        rcases Nat.lt_or_ge i host.conns.length with hlt | hge
        · rw [List.getElem?_append_left hlt] at hconn
          exact h.conns i conn hconn
        · rw [List.getElem?_append_right hge] at hconn
          have hmem := List.mem_singleton.1 (List.mem_of_getElem? hconn)
          have hnone : host.on i = [] := by
            refine List.filter_eq_nil_iff.2 fun e he => ?_
            have := h.known e he
            rw [beq_iff_eq]
            omega
          subst hmem
          change ConnOk _ (host.on i) _
          rw [hnone]
          exact ConnOk.fresh _ chunks
      · dsimp only
        rw [List.length_append]
        exact Nat.lt_of_lt_of_le (h.known e he) (Nat.le_add_right _ _)
  | reject => exact ⟨h.conns, h.known⟩
  | idle => exact h
  | @ended j conn http hconn =>
      refine ⟨fun i conn' hconn' => ?_, fun e he => ?_⟩
      · dsimp only at hconn'
        by_cases hij : j = i
        · subst hij
          rw [List.getElem?_set_self (List.getElem?_eq_some_iff.1 hconn).1] at hconn'
          cases hconn'
          exact (h.conns j conn hconn).ended http
        · rw [List.getElem?_set_ne hij] at hconn'
          exact h.conns i conn' hconn'
      · rw [List.length_set]
        exact h.known e he
  | @answered j conn e srv http bytes ha =>
      have hlt : j < host.conns.length := (List.getElem?_eq_some_iff.1 ha.found).1
      refine ⟨fun i conn' hconn' => ?_, fun e' he' => ?_⟩
      · unfold Host.answered at hconn'
        dsimp only at hconn'
        change ConnOk _ ((host.log ++ [e]).filter fun e => e.conn == i) _
        by_cases hij : j = i
        · subst hij
          rw [List.getElem?_set_self hlt] at hconn'
          cases hconn'
          rw [on_self ha.index, sendRes_some ha.sent]
          exact (h.conns j conn ha.found).answered ha.live ha.parsed
        · rw [List.getElem?_set_ne hij] at hconn'
          rw [on_other (fun heq => hij (ha.index.symm.trans heq))]
          exact h.conns i conn' hconn'
      · change e'.conn < (host.conns.set j _).length
        rw [List.length_set]
        rcases List.mem_append.1 he' with he' | he'
        · exact h.known e' he'
        · rw [List.mem_singleton.1 he', ha.index]
          exact hlt

end MiniDbms.Api
