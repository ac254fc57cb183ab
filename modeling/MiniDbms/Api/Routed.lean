import MiniDbms.Api.Refines

/-!
# Runs of requests

The routes lift the agreement of the handlers to requests, and an induction lifts it to
whole runs.  What the abstract server makes plain then holds of the server.
-/

namespace MiniDbms

namespace Api

variable {d : Ideal} {srv : Srv} {front : Front} {reqId : Bytes} {env : Env} {req : Http.HttpReq}

/-! ## Routes -/

/-- The statement of a request to `/api/v1/sql`. -/
def queryOf (req : Http.HttpReq) : Bytes := (jsonStr (cstr req.body) (str "query")).getD []

namespace Srv.Tracks

theorem withBody (h : srv.Tracks front d) {f : Bytes → Except Fault (Handled Srv)}
    {g : Bytes → Except Fault (Handled Ideal)}
    (hfg : Agrees front (f (cstr req.body)) (g (cstr req.body))) :
    Agrees front (Api.withBody srv req reqId f) (Api.withBody d req reqId g) := by
  unfold Api.withBody
  dsimp only
  split
  · exact h.stays _
  · split
    · exact h.stays _
    · exact hfg

theorem withQuery (h : srv.Tracks front d) {f : Bytes → Except Fault (Handled Srv)}
    {g : Bytes → Except Fault (Handled Ideal)}
    (hfg : Agrees front (f (queryOf req)) (g (queryOf req))) :
    Agrees front (Api.withQuery srv req reqId f) (Api.withQuery d req reqId g) := by
  refine h.withBody ?_
  dsimp only
  split
  · exact h.stays _
  · exact hfg

theorem withQueries (h : srv.Tracks front d) {f : List Bytes → Bool → Except Fault (Handled Srv)}
    {g : List Bytes → Bool → Except Fault (Handled Ideal)} (maxQry : Int) (forceTx : Bool)
    (hfg : ∀ sqls tx, Agrees front (f sqls tx) (g sqls tx)) :
    Agrees front (Api.withQueries srv maxQry req reqId forceTx f)
      (Api.withQueries d maxQry req reqId forceTx g) := by
  refine h.withBody ?_
  dsimp only
  split
  · split
    · exact h.stays _
    · exact hfg _ _
  · exact h.stays _

theorem withPage (h : srv.Tracks front d) {f : PageMode → Int → Nat → Except Fault (Handled Srv)}
    {g : PageMode → Int → Nat → Except Fault (Handled Ideal)}
    (hfg : ∀ mode delayMs workers, 0 < workers →
      Agrees front (f mode delayMs workers) (g mode delayMs workers)) :
    Agrees front (Api.withPage srv req reqId f) (Api.withPage d req reqId g) := by
  unfold Api.withPage
  split
  · exact h.stays _
  · split
    · exact h.stays _
    · split
      · exact h.stays _
      · rename_i workers hworkers
        refine hfg _ _ _ ?_
        unfold pageWorkersOf at hworkers
        split at hworkers
        · cases hworkers
          omega
        · obtain ⟨val, -, hval⟩ := Option.bind_eq_some_iff.1 hworkers
          split at hval
          · cases hval
          · cases hval
            omega

theorem only (h : srv.Tracks front d) {r : Except Fault (Handled Srv)}
    {r' : Except Fault (Handled Ideal)} (hr : Agrees front r r') (meth : Bytes) :
    Agrees front (Api.only srv req reqId meth r) (Api.only d req reqId meth r') := by
  unfold Api.only
  split
  · exact h.stays _
  · exact hr

/-- **`route_do`** over handlers that agree. -/
theorem dispatch (h : srv.Tracks front d) {hs : Handlers Srv} {hi : Handlers Ideal}
    (hasset : hs.asset = hi.asset) (hsql : Agrees front hs.sql hi.sql)
    (hbatch : ∀ forceTx, Agrees front (hs.batch forceTx) (hi.batch forceTx))
    (hpage : Agrees front hs.page hi.page) (hmetrics : hs.metrics = hi.metrics) :
    Agrees front (Api.dispatch srv req reqId hs) (Api.dispatch d req reqId hi) := by
  unfold Api.dispatch
  dsimp only
  rw [hasset, hmetrics]
  have hget : ∀ answer : Option HttpRes, Agrees front
      (Api.only srv req reqId (str "GET") (.ok (srv, answer)))
      (Api.only d req reqId (str "GET") (.ok (d, answer))) := fun answer =>
    h.only (h.stays answer) _
  split
  · exact hget _
  split
  · exact hget _
  split
  · exact hget _
  split
  · exact hget _
  split
  · exact h.only hsql _
  split
  · exact h.only (hbatch false) _
  split
  · exact h.only (hbatch true) _
  split
  · exact h.only hpage _
  split
  · exact hget _
  · exact h.stays _

/-- What a request may see of the server besides the content. -/
def chance (srv : Srv) (r : Request) : Chance := ⟨srv.note r.env (queryOf r.req), srv.stats⟩

theorem mvStat (h : srv.Tracks front d) : srv.db.mv.mvStat = Mvcc.mvStat ⟨d.ver, []⟩ := by
  have hmv : srv.db.mv = ⟨d.ver, []⟩ := by
    rw [← h.snaps, ← h.abs]
    rfl
  rw [hmv]

/-- **One request.** -/
theorem routeDo (h : srv.Tracks front d) (r : Request) :
    Agrees front (Api.routeDo srv r.req r.reqId r.env)
      (d.serve r.reqId r.env front r.req (chance srv r)) := by
  obtain rfl := h.front
  refine h.dispatch rfl ?_ (fun forceTx => ?_) ?_ ?_
  · exact h.withQuery fun _ _ hrun => h.serveSql hrun
  · exact h.withQueries _ _ fun sqls tx => h.serveBatch sqls tx
  · exact h.withPage fun mode delayMs _ hw => h.servePage _ mode delayMs hw
  · exact congrArg (doMst _ _ _ · _ _) h.mvStat

end Srv.Tracks

/-- **Whole runs.** -/
theorem Srv.Tracks.serveAll : ∀ {rs : List Request} {srv srv' : Srv} {d : Ideal}
    {answers : List (Option HttpRes)}, srv.Tracks front d →
    Api.serveAll srv rs = .ok (srv', answers) →
    ∃ chances d', chances.length = rs.length ∧
      d.serveAll front (rs.zip chances) = .ok (d', answers) ∧ srv'.Tracks front d'
  | [], srv, srv', d, answers, h, hrun => by
      cases hrun
      exact ⟨[], d, rfl, rfl, h⟩
  | r :: rs, srv, srv', d, answers, h, hrun => by
      rw [Api.serveAll] at hrun
      obtain ⟨⟨srv₁, answer⟩, hone, hrun⟩ := bind_ok.1 hrun
      obtain ⟨⟨srv₂, rest⟩, hall, hrun⟩ := bind_ok.1 hrun
      cases hrun
      obtain ⟨d₁, hserve, h₁⟩ := h.routeDo r _ _ hone
      obtain ⟨chances, d₂, hlen, hrest, h₂⟩ := Srv.Tracks.serveAll h₁ hall
      refine ⟨chance srv r :: chances, d₂, congrArg Nat.succ hlen, ?_, h₂⟩
      rw [List.zip_cons_cons, Ideal.serveAll, hserve]
      simp only [bind, Except.bind, hrest]
      rfl

/-- What the files of the database hold. -/
def contentOf (files : Bytes → Option Bytes) (maxSql maxQry : Int) : Ideal :=
  ⟨1, fun n => loadable n (files n), maxSql, maxQry⟩

theorem srvNew_tracks (files : Bytes → Option Bytes) (maxSql maxQry maxBody : Int) (ttlNs : Nat)
    (asset : Bytes → Option Bytes) :
    (srvNew files maxSql maxQry maxBody ttlNs asset).Tracks ⟨maxQry, maxBody, asset⟩
      (contentOf files maxSql maxQry) where
  front := rfl
  wf := ⟨by simp [srvNew, dbOpen], by simp [srvNew, dbOpen, Db.chains], by simp [srvNew, dbOpen],
    by simp, Nat.le_refl 1⟩
  abs := rfl
  snaps := rfl
  cache := fun sql ver data hh => by
    obtain ⟨i, huse, -⟩ := hh
    cases huse

/-- **The server is the abstract server**: whatever requests come, in whatever order the workers
take the jobs, and whatever the cache drops or keeps, each response is the one that the
statements give on the committed content, up to what a response says about the cache. -/
theorem serves_committed_content (files : Bytes → Option Bytes) (maxSql maxQry maxBody : Int)
    (ttlNs : Nat) (asset : Bytes → Option Bytes) (rs : List Request) (srv : Srv)
    (answers : List (Option HttpRes))
    (hrun : serveAll (srvNew files maxSql maxQry maxBody ttlNs asset) rs = .ok (srv, answers)) :
    ∃ chances, chances.length = rs.length ∧
      (contentOf files maxSql maxQry).serveAll ⟨maxQry, maxBody, asset⟩ (rs.zip chances) =
        .ok (srv.db.abs, answers) := by
  obtain ⟨chances, d, hlen, hserve, h⟩ :=
    (srvNew_tracks files maxSql maxQry maxBody ttlNs asset).serveAll hrun
  exact ⟨chances, hlen, h.abs ▸ hserve⟩

/-- One table. -/
def tableT : Bytes → Option Bytes := fun n =>
  if n = str "t" then some (str "id(PK),v\n1,a\n") else none

/-- Jobs that are taken from the last one on. -/
def backwards : Phase := ⟨fun _ => 1, fun _ => 0, fun _ => 0, 0, [3, 2, 1, 0], none⟩

def quietEnv : Env where
  lookNs := 1
  storeNs := 1
  meter := ⟨1, 0, 0⟩
  seq := backwards
  par := backwards
  quotient := ⟨false, ⟨[48], by decide⟩, fun _ => rfl, none, none⟩
  apiPool := ⟨1, 0, 0, 0⟩
  dbPool := ⟨1, 0, 0, 0⟩
  timing := ⟨0, 0, 0, 0, 0, 0⟩

def postReq (path body : String) : Request :=
  ⟨{ meth := strncpy 7 (str "POST"), path := strncpy 255 (str path), body := str body },
    str "1", quietEnv⟩

/-- A SELECT that is answered, an INSERT, the SELECT again, twice, and a batch. -/
def shortVisit : List Request :=
  [postReq "/api/v1/sql" "\x7b\"query\":\"SELECT * FROM t\"\x7d",
    postReq "/api/v1/sql" "\x7b\"query\":\"INSERT INTO t VALUES (2,b)\"\x7d",
    postReq "/api/v1/sql" "\x7b\"query\":\"SELECT * FROM t\"\x7d",
    postReq "/api/v1/sql" "\x7b\"query\":\"SELECT * FROM t\"\x7d",
    postReq "/api/v1/batch" "\x7b\"queries\":[\"SELECT id FROM t\",\"SELECT v FROM t\"]\x7d"]

theorem serves_committed_content_short : ∃ srv answers,
    serveAll (srvNew tableT 0 8 0 5 fun _ => none) shortVisit = .ok (srv, answers) ∧
      0 < srv.stats.cacheHits ∧ ∃ chances, chances.length = shortVisit.length ∧
        (contentOf tableT 0 8).serveAll ⟨8, 0, fun _ => none⟩ (shortVisit.zip chances) =
          .ok (srv.db.abs, answers) := by
  obtain ⟨⟨srv, answers⟩, hrun, hhit⟩ := exists_of_okAnd
    (show okAnd (serveAll (srvNew tableT 0 8 0 5 fun _ => none) shortVisit)
      (fun out => decide (0 < out.1.stats.cacheHits)) = true by decide +kernel)
  exact ⟨srv, answers, hrun, of_decide_eq_true hhit,
    serves_committed_content tableT 0 8 0 5 (fun _ => none) shortVisit srv answers hrun⟩

end Api

end MiniDbms
