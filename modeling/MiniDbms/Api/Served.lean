import MiniDbms.Api.Host

/-!
# Whole runs of the server

Clients come, send what they like in whatever pieces, and leave, and the rounds of their
connections interleave.  Every client reads the answers to its own requests, in their order,
and all answers together are those of the abstract server, one request after another.
-/

namespace MiniDbms

open Api

variable {d d₁ d₂ : Ideal} {front : Front}

theorem Ideal.serveAll_snoc {r : Request} {chance : Chance} {answer : Option HttpRes} :
    ∀ {rs : List (Request × Chance)} {d : Ideal} {answers : List (Option HttpRes)},
    d.serveAll front rs = .ok (d₁, answers) →
    d₁.serve r.reqId r.env front r.req chance = .ok (d₂, answer) →
    d.serveAll front (rs ++ [(r, chance)]) = .ok (d₂, answers ++ [answer])
  | [], d, answers, hall, hone => by
      cases hall
      rw [List.nil_append, Ideal.serveAll, hone]
      rfl
  | (r', chance') :: rs, d, answers, hall, hone => by
      rw [Ideal.serveAll] at hall
      obtain ⟨⟨d', answer'⟩, hfirst, hall⟩ := bind_ok.1 hall
      obtain ⟨⟨d'', answers'⟩, hrest, hall⟩ := bind_ok.1 hall
      cases hall
      rw [List.cons_append, Ideal.serveAll, hfirst]
      simp only [bind, Except.bind, Ideal.serveAll_snoc hrest hone]
      rfl

/-! ## Requests that cannot be parsed -/

namespace Http

variable {maxBody : Int} {conn : HttpConn}

theorem ensureBuffered_code (conn : HttpConn) (target : Nat) :
    (ensureBuffered conn target).1 ∈ [0, 200, 400, 413] := by
  fun_induction ensureBuffered conn target with
  | case1 => simp
  | case2 => simp
  | case3 =>
      dsimp only
      split
      · simp
      · simp
  | case4 _ _ _ _ _ _ _ _ ih => exact ih
  | case5 => simp

theorem readHeader_code (conn : HttpConn) :
    ∀ code, (readHeader conn).1 = .inl code → code ∈ [0, 400, 413] := by
  fun_induction readHeader conn with
  | case1 conn hdrLen hfind =>
      intro code heq
      cases heq
  | case2 =>
      intro code heq
      cases heq
      simp
  | case3 _ _ _ _ ih => exact ih
  | case4 conn hnone hlen hcode =>
      intro code heq
      cases heq
      have := ensureBuffered_code conn (conn.buf.length + 1)
      simp only [List.mem_cons, List.not_mem_nil, or_false] at this ⊢
      tauto

/-- **The codes of `parse_req`.** -/
theorem parseReq_code (maxBody : Int) (conn : HttpConn) :
    (parseReq maxBody conn).1.code ∈ [0, 200, 400, 413] := by
  have hread := readHeader_code conn
  unfold parseReq
  split
  · rename_i code conn' heq
    have := hread code (by rw [heq])
    simp only [List.mem_cons, List.not_mem_nil, or_false] at this ⊢
    tauto
  · unfold finishReq
    split
    · simp
    · split
      · simp
      · split
        · simp
        · split
          · simp
          · dsimp only
            split
            · exact ensureBuffered_code _ _
            · simp

/-- What is read off a stream, request after request. -/
def requests (maxBody : Int) : Nat → Bytes → List Result
  | 0, _ => []
  | n + 1, stream => (request maxBody stream).1 :: requests maxBody n (request maxBody stream).2

theorem calls_eq_requests (n : Nat) (h : Ready maxBody conn)
    (hclear : HeadersClear maxBody conn.pending) :
    calls maxBody n conn = requests maxBody n conn.pending := by
  induction n generalizing conn with
  | zero => rfl
  | succ n ih =>
      have hframed := parseReq_framed h (hclear _ (.here _))
      have hclear' : HeadersClear maxBody (parseReq maxBody conn).2.pending := by
        rw [hframed.pending]
        exact hclear.request
      rw [calls, requests, ih (parseReq_spec h).1 hclear', hframed.result, hframed.pending]

end Http

namespace Api

open Http (parseReq connInit calls requests)

/-- A request that cannot be parsed gets the response of an error, and the connection ends. -/
theorem refusal_eq {code : Nat} (reqId : Bytes) (h : code = 400 ∨ code = 413) :
    ∃ reply : Reply, refusal code reqId = reply.write reqId ∧ reply.code = code := by
  rcases h with rfl | rfl
  · exact ⟨.error 400 (str "BAD_REQ") (str "request parse failed") (by decide), rfl, rfl⟩
  · exact ⟨.error 413 (str "TOO_BIG") (str "request body too large") (by decide), rfl, rfl⟩

/-! ## Responses of a run -/

/-- The request reached its handler. -/
def Event.routed (e : Event) : Bool := e.result.code == 200

def Event.request (e : Event) : Request := ⟨e.result.req, e.reqId, e.env⟩

/-- What the client makes of the response. -/
def Event.received (e : Event) : Received := receivedOf e.res e.connClose

def requestsOf (log : List Event) : List Request := (log.filter Event.routed).map Event.request

def answersOf (log : List Event) : List (Option HttpRes) :=
  (log.filter Event.routed).map fun e => some e.res

/-- A response is a file or says a reply, and a request that was not parsed is refused. -/
structure EventOk (front : Front) (e : Event) : Prop where
  said : IsFile front (some e.res) ∨ ∃ reply : Reply, reply.write e.reqId = some e.res
  parsed : e.result.code = 200 → e.connClose = e.result.connClose
  refused : e.result.code ≠ 200 →
    e.connClose = true ∧ e.res.code = e.result.code ∧ (e.res.code = 400 ∨ e.res.code = 413)

theorem Reply.code_lt (reply : Reply) : reply.code < 600 := by
  have hstatus : ∀ http, statusOf http < 600 := fun http => by
    unfold statusOf
    split
    · rename_i hmem
      simp only [List.mem_cons, List.not_mem_nil, or_false] at hmem
      omega
    · decide
  unfold Reply.code
  split
  · exact hstatus _
  · decide
  · decide

theorem EventOk.sendable {e : Event} (h : EventOk front e) (hlen : e.res.body.length < 2 ^ 63) :
    Sendable e.res := by
  rcases h.said with ⟨path, raw, contentType, -, htype, heq⟩ | ⟨reply, hwrite⟩
  · rw [Option.some.injEq] at heq
    have htypes : ∀ t ∈ demoTypes, t.all (fun c => c != 13 && c != 10) = true ∧
        t.length ≤ 80 := by decide
    have hcode : e.res.code < 2 ^ 31 := by
      rw [heq]
      exact (by decide : 200 < 2 ^ 31)
    have hsent : e.res.contentType = contentType := by rw [heq]
    exact ⟨hcode, hlen, hsent ▸ noEnd_of_all (htypes _ htype).1, hsent ▸ (htypes _ htype).2⟩
  · rw [reply.write_eq, Option.some.injEq] at hwrite
    have hcode : e.res.code < 2 ^ 31 := by
      rw [← hwrite]
      exact Nat.lt_trans reply.code_lt (by decide)
    have hsent : e.res.contentType = jsonType := by rw [← hwrite]
    refine ⟨hcode, hlen, ?_, ?_⟩
    · rw [hsent]
      exact noEnd_of_all (by decide)
    · rw [hsent]
      decide

/-! ## Every step -/

theorem Srv.Tracks.withStats {srv : Srv} (h : srv.Tracks front d) (stats : ApiStats) :
    { srv with stats := stats }.Tracks front d := ⟨h.front, h.wf, h.abs, h.snaps, h.cache⟩

theorem Srv.Tracks.respond {srv srv' : Srv} {result : Http.Result} {reqId : Bytes} {env : Env}
    {res : HttpRes} {connClose : Bool} (h : srv.Tracks front d)
    (hcode : result.code ∈ [0, 200, 400, 413]) (hzero : result.code ≠ 0)
    (hrun : Api.respond srv result reqId env = .ok (srv', res, connClose)) (i : Nat) :
    EventOk front ⟨i, result, reqId, env, res, connClose⟩ ∧
      (result.code ≠ 200 → srv' = srv) ∧
      (result.code = 200 → ∃ chance d', srv'.Tracks front d' ∧
        d.serve reqId env front result.req chance = .ok (d', some res)) := by
  unfold Api.respond at hrun
  split at hrun
  · rename_i hbad
    cases hrun
    have hcode' : result.code = 400 ∨ result.code = 413 := by
      simp only [List.mem_cons, List.not_mem_nil, or_false] at hcode
      tauto
    obtain ⟨reply, hwrite, hreply⟩ := refusal_eq reqId hcode'
    rw [hwrite, reply.write_eq, Option.getD_some]
    refine ⟨⟨Or.inr ⟨reply, reply.write_eq⟩, fun hgood => absurd hgood hbad, fun _ => ?_⟩,
      fun _ => rfl, fun hgood => absurd hgood hbad⟩
    refine ⟨rfl, hreply, ?_⟩
    dsimp only
    rwa [hreply]
  · rename_i hgood
    split at hrun
    · rename_i srv₁ answer hroute
      cases hrun
      obtain ⟨d', hserve, h'⟩ := h.routeDo ⟨result.req, reqId, env⟩ _ _ hroute
      have hcomes := Ideal.serve_comes hserve
      have hsome : answer = some (answer.getD noRes) := by
        rcases hcomes.said with ⟨_, raw, contentType, -, -, rfl⟩ | ⟨reply, rfl⟩
        · rfl
        · rw [reply.write_eq]
          rfl
      refine ⟨⟨?_, fun _ => rfl, fun hbad => absurd hbad hgood⟩, fun hbad => absurd hbad hgood,
        fun _ => ⟨chance srv ⟨result.req, reqId, env⟩, d', h', ?_⟩⟩
      · dsimp only
        rw [← hsome]
        refine hcomes.said.imp_right fun hreply => ?_
        obtain ⟨reply, heq⟩ := hreply
        exact ⟨reply, heq.symm⟩
      · rw [← hsome]
        exact hserve
    · cases hrun

/-- The server at a point of a run. -/
structure Host.Serves (front : Front) (d : Ideal) (host : Host) : Prop where
  tracks : host.srv.Tracks front host.srv.db.abs
  conns : ConnsOk front.maxBody host
  events : ∀ e ∈ host.log, EventOk front e
  served : ∃ chances, chances.length = (requestsOf host.log).length ∧
    d.serveAll front ((requestsOf host.log).zip chances) =
      .ok (host.srv.db.abs, answersOf host.log)

theorem requestsOf_routed {e : Event} (h : e.routed = true) (log : List Event) :
    requestsOf (log ++ [e]) = requestsOf log ++ [e.request] ∧
      answersOf (log ++ [e]) = answersOf log ++ [some e.res] := by
  unfold requestsOf answersOf
  rw [List.filter_append, List.filter_cons_of_pos h, List.filter_nil, List.map_append,
    List.map_append]
  exact ⟨rfl, rfl⟩

theorem requestsOf_refused {e : Event} (h : e.routed = false) (log : List Event) :
    requestsOf (log ++ [e]) = requestsOf log ∧ answersOf (log ++ [e]) = answersOf log := by
  unfold requestsOf answersOf
  rw [List.filter_append, List.filter_cons_of_neg (by rw [h]; decide), List.filter_nil,
    List.append_nil]
  exact ⟨rfl, rfl⟩

theorem Host.Serves.step {host host' : Host} (h : host.Serves front d)
    (hs : Host.Stepped host host') : host'.Serves front d := by
  have hmax : host.srv.maxBody = front.maxBody := congrArg Front.maxBody h.tracks.front
  have hconns : ConnsOk front.maxBody host' := by
    have := h.conns
    rw [← hmax] at this ⊢
    exact this.step hs
  cases hs with
  | accept chunks => exact ⟨h.tracks, hconns, h.events, h.served⟩
  | reject => exact ⟨h.tracks.withStats _, hconns, h.events, h.served⟩
  | idle => exact h
  | ended hconn => exact ⟨h.tracks, hconns, h.events, h.served⟩
  | @answered i conn e srv http bytes ha =>
      have hcode : e.result.code ∈ [0, 200, 400, 413] := by
        have := Http.parseReq_code host.srv.maxBody conn.http
        rwa [ha.parsed] at this
      obtain ⟨hevent, hbad, hgood⟩ :=
        (h.tracks.withStats (host.srv.started conn.reqCount).stats).respond hcode ha.code
          ha.responded e.conn
      have hevents : ∀ e' ∈ host.log ++ [e], EventOk front e' := fun e' he' => by
        rcases List.mem_append.1 he' with he' | he'
        · exact h.events e' he'
        · rw [List.mem_singleton.1 he']
          exact hevent
      obtain ⟨chances, hlen, hall⟩ := h.served
      by_cases hrouted : e.result.code = 200
      · obtain ⟨chance, d', htracks, hserve⟩ := hgood hrouted
        obtain ⟨hreqs, hanswers⟩ := requestsOf_routed (e := e) (by simpa [Event.routed]) host.log
        have habs := htracks.abs
        subst habs
        refine ⟨htracks.withStats _, hconns, hevents, chances ++ [chance], ?_, ?_⟩
        · change _ = (requestsOf (host.log ++ [e])).length
          rw [hreqs, List.length_append, List.length_append, hlen]
          rfl
        · change d.serveAll front ((requestsOf (host.log ++ [e])).zip _) =
            .ok (_, answersOf (host.log ++ [e]))
          rw [hreqs, hanswers, List.zip_append hlen.symm]
          exact Ideal.serveAll_snoc hall hserve
      · obtain ⟨hreqs, hanswers⟩ := requestsOf_refused (e := e)
          (by simpa [Event.routed] using hrouted) host.log
        have hsame := hbad hrouted
        subst hsame
        refine ⟨h.tracks.withStats _, hconns, hevents, chances, ?_, ?_⟩
        · change _ = (requestsOf (host.log ++ [e])).length
          rw [hreqs, hlen]
        · change d.serveAll front ((requestsOf (host.log ++ [e])).zip _) =
            .ok (_, answersOf (host.log ++ [e]))
          rw [hreqs, hanswers]
          exact hall

/-! ## Runs -/

/-- What a client gets: the answers to what it sent, in this order, the last of which may close
the connection. -/
structure Conn.Served (maxBody : Int) (conn : Conn) (events : List Event) : Prop where
  read : readAll conn.sent = some (events.map Event.received)
  results : events.map Event.result = calls maxBody events.length (connInit conn.chunks maxBody)
  framed : Chunks.Nonempty conn.chunks → Http.HeadersClear maxBody conn.chunks.flatten →
    events.map Event.result = requests maxBody events.length conn.chunks.flatten
  parsed : ∀ e ∈ events, e.result.code = 200 → e.connClose = e.result.connClose
  refused : ∀ e ∈ events, e.result.code ≠ 200 →
    e.connClose = true ∧ e.res.code = e.result.code ∧ (e.res.code = 400 ∨ e.res.code = 413)
  before : ∀ e ∈ events.dropLast, e.connClose = false

theorem Host.Serves.conn {host : Host} {i : Nat} {conn : Conn} (h : host.Serves front d)
    (hsize : ∀ e ∈ host.log, e.res.body.length < 2 ^ 63) (hconn : host.conns[i]? = some conn) :
    conn.Served front.maxBody (host.on i) := by
  have hok := h.conns.conns i conn hconn
  have hlog : ∀ e ∈ host.on i, e ∈ host.log := fun e he => (List.mem_filter.1 he).1
  refine ⟨?_, hok.results, fun hne hclear => ?_, fun e he => (h.events e (hlog e he)).parsed,
    fun e he => (h.events e (hlog e he)).refused, hok.before⟩
  · rw [hok.sent, readAll_streamOf, List.map_map]
    · rfl
    · intro sent hsent
      obtain ⟨e, he, rfl⟩ := List.mem_map.1 hsent
      exact (h.events e (hlog e he)).sendable (hsize e (hlog e he))
  · rw [hok.results, Http.calls_eq_requests _ (Http.connInit_ready hne)
      (by rwa [Http.connInit_pending]), Http.connInit_pending]

theorem hostNew_serves {srv : Srv} (h : srv.Tracks front d) : (hostNew srv).Serves front d where
  tracks := h.abs ▸ h
  conns := by
    refine ⟨fun i conn hconn => ?_, fun e he => absurd he List.not_mem_nil⟩
    cases hconn
  events := fun e he => absurd he List.not_mem_nil
  served := ⟨[], rfl, by rw [← h.abs]; rfl⟩

/-- **Every client reads the answers to its own requests, and all answers together are those of
the abstract server**, in whatever pieces the requests come and in whatever order the
connections take their rounds. -/
theorem clients_read_answers (files : Bytes → Option Bytes) (maxSql maxQry maxBody : Int)
    (ttlNs : Nat) (asset : Bytes → Option Bytes) (ls : List Label) (host : Host)
    (hrun : Run.exec Host.step (hostNew (srvNew files maxSql maxQry maxBody ttlNs asset)) ls =
      .ok host)
    (hsize : ∀ e ∈ host.log, e.res.body.length < 2 ^ 63) :
    (∀ (i : Nat) (conn : Conn), host.conns[i]? = some conn → conn.Served maxBody (host.on i)) ∧
      ∃ chances, chances.length = (requestsOf host.log).length ∧
        (contentOf files maxSql maxQry).serveAll ⟨maxQry, maxBody, asset⟩
          ((requestsOf host.log).zip chances) = .ok (host.srv.db.abs, answersOf host.log) := by
  have h := Run.kept (I := Host.Serves ⟨maxQry, maxBody, asset⟩ (contentOf files maxSql maxQry))
    (fun hi hs => hi.step (Host.step_cases hs))
    (hostNew_serves (srvNew_tracks files maxSql maxQry maxBody ttlNs asset)) hrun
  exact ⟨fun i conn hconn => h.conn hsize hconn, h.served⟩

/-- An INSERT in two pieces, and another client in between, that first asks for the table and
then sends what is no request. -/
def twoClients : List Label :=
  [.accept [str "POST /api/v1/sql HTTP/1.1\r\nContent-Le",
      str "ngth: 38\r\n\r\n\x7b\"query\":\"INSERT INTO t VALUES (2,b)\"\x7d"],
    .accept [str "POST /api/v1/sql HTTP/1.1\r\nContent-Length: 27\r\n\r\n" ++
      str "\x7b\"query\":\"SELECT * FROM t\"\x7dGET\r\n\r\n"],
    .round 0 quietEnv, .round 1 quietEnv, .round 0 quietEnv, .round 1 quietEnv]

theorem clients_read_answers_two : ∃ host,
    Run.exec Host.step (hostNew (srvNew tableT 0 8 1024 5 fun _ => none)) twoClients = .ok host ∧
      host.log.map (fun e => (e.conn, e.res.code)) = [(0, 200), (1, 200), (1, 400)] ∧
      (∀ (i : Nat) (conn : Conn), host.conns[i]? = some conn → conn.Served 1024 (host.on i)) ∧
        ∃ chances, chances.length = (requestsOf host.log).length ∧
          (contentOf tableT 0 8).serveAll ⟨8, 1024, fun _ => none⟩
            ((requestsOf host.log).zip chances) = .ok (host.srv.db.abs, answersOf host.log) := by
  obtain ⟨host, hrun, htest⟩ := Run.exists_of_reaches
    (show Run.reaches Host.step (hostNew (srvNew tableT 0 8 1024 5 fun _ => none)) twoClients
      (fun host => host.log.map (fun e => (e.conn, e.res.code)) == [(0, 200), (1, 200), (1, 400)] &&
        host.log.all fun e => decide (e.res.body.length < 2 ^ 63)) = true by decide +kernel)
  obtain ⟨hlog, hsize⟩ := Bool.and_eq_true_iff.1 htest
  exact ⟨host, hrun, eq_of_beq hlog, clients_read_answers tableT 0 8 1024 5 (fun _ => none)
    twoClients host hrun fun e he => of_decide_eq_true (List.all_eq_true.1 hsize e he)⟩

end Api

end MiniDbms
