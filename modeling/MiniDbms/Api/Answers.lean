import MiniDbms.Api.Replies
import MiniDbms.Api.Routed

/-!
# What the answers of a run say

Every request is answered: with a file of the demo, or with a document that says what the
handler found.  A document that does not report success comes with no change of the tables.
-/

namespace MiniDbms

open Api

/-! ## Statements that fail -/

namespace Ideal

variable {d d' : Ideal}

theorem write_failed {stmt : Statement} {res : DbRes} (h : d.write stmt = .ok (d', res, false)) :
    d' = d := by
  unfold write at h
  dsimp only at h
  split at h
  · cases h
    rfl
  · split at h
    · cases h
      rfl
    · obtain ⟨⟨tab', res', ok'⟩, -, h⟩ := bind_ok.1 h
      cases ok' with
      | true => cases h
      | false =>
          cases h
          rfl

theorem exec_failed {sql : Bytes} {res : DbRes} (h : d.exec sql = .ok (d', res, false)) :
    d' = d := by
  unfold exec at h
  split at h
  · cases h
    rfl
  · split at h
    · obtain ⟨⟨res', ok'⟩, -, h⟩ := bind_ok.1 h
      cases h
      rfl
    · exact write_failed h

theorem batch_failed {sqls : List Bytes} {tx : Bool} {out : List DbRes}
    (h : d.batch sqls tx = .ok (d', out, false)) : d' = d := by
  unfold batch at h
  split at h
  · cases h
  split at h
  · cases h
    rfl
  split at h
  · obtain ⟨⟨tx', out', ok'⟩, -, h⟩ := bind_ok.1 h
    cases ok' with
    | true => cases h
    | false =>
        cases h
        rfl
  · obtain ⟨r, -, h⟩ := bind_ok.1 h
    cases h

end Ideal

namespace Api

variable {d : Ideal} {reqId : Bytes} {env : Env} {req : Http.HttpReq}

theorem httpOf_failed (code : Bytes) : 400 ≤ httpOf code := by
  unfold httpOf
  repeat' split
  all_goals omega

/-- The handler answers with a reply, and where that does not report success, it has changed
nothing. -/
def RepliesTo (d : Ideal) (reqId : Bytes) (r : Except Fault (Handled Ideal)) : Prop :=
  ∀ d' answer, r = .ok (d', answer) →
    ∃ reply : Reply, answer = reply.write reqId ∧ (reply.code ≠ 200 → d' = d)

theorem repliesTo_same (reply : Reply) : RepliesTo d reqId (.ok (d, reply.write reqId)) := by
  intro d' answer heq
  cases heq
  exact ⟨reply, rfl, fun _ => rfl⟩

theorem repliesTo_error {http : Nat} (failed : 400 ≤ http) (code msg : Bytes) :
    RepliesTo d reqId (.ok (d, errRes http code msg reqId)) :=
  repliesTo_same (.error http code msg failed)

theorem Ideal.serveSql_replies (note : CacheNote) (sql : Bytes) :
    RepliesTo d reqId (d.serveSql reqId env note sql) := by
  intro d' answer h
  unfold Ideal.serveSql at h
  obtain ⟨⟨d₁, res, ok⟩, hexec, h⟩ := bind_ok.1 h
  cases ok with
  | true =>
      cases h
      exact ⟨.sql res env.meter _ _, rfl, fun hcode => absurd rfl hcode⟩
  | false =>
      cases h
      exact ⟨.error _ _ _ (httpOf_failed _), rfl, fun _ => Ideal.exec_failed hexec⟩

theorem Ideal.serveBatch_replies (sqls : List Bytes) (tx : Bool) :
    RepliesTo d reqId (d.serveBatch reqId env sqls tx) := by
  intro d' answer h
  unfold Ideal.serveBatch at h
  split at h
  · obtain ⟨out, -, h⟩ := bind_ok.1 h
    cases h
    split
    · exact ⟨.error 503 _ _ (by decide), rfl, fun _ => rfl⟩
    · exact ⟨.batch _ _, rfl, fun _ => rfl⟩
  · obtain ⟨⟨d₁, resv, ok⟩, hbatch, h⟩ := bind_ok.1 h
    cases h
    unfold batchAnswer
    split
    · rename_i hfail
      obtain ⟨-, hok⟩ := hfail
      have hok' : ok = false := by simpa using hok
      subst hok'
      exact ⟨.txFailed resv _, rfl, fun _ => Ideal.batch_failed hbatch⟩
    · exact ⟨.batch resv _, rfl, fun hcode => absurd rfl hcode⟩

theorem Ideal.servePage_replies (sqls : List Bytes) (mode : PageMode) (delayMs : Int)
    (workers : Nat) : RepliesTo d reqId (d.servePage reqId env sqls mode delayMs workers) := by
  intro d' answer h
  unfold Ideal.servePage at h
  obtain ⟨out, -, h⟩ := bind_ok.1 h
  cases h
  cases mode with
  | sequential => exact ⟨.page _ _ _ _ _, rfl, fun _ => rfl⟩
  | parallel =>
      dsimp only
      split
      · exact ⟨.error 503 _ _ (by decide), rfl, fun _ => rfl⟩
      · exact ⟨.page _ _ _ _ _, rfl, fun _ => rfl⟩
  | compare =>
      dsimp only
      split
      · exact ⟨.error 503 _ _ (by decide), rfl, fun _ => rfl⟩
      · exact ⟨.compare _ _ _ _ _ _ _, rfl, fun _ => rfl⟩

theorem servePage_same {sqls : List Bytes} {mode : PageMode} {delayMs : Int} {workers : Nat}
    {d' : Ideal} {answer : Option HttpRes}
    (h : d.servePage reqId env sqls mode delayMs workers = .ok (d', answer)) : d' = d := by
  unfold Ideal.servePage at h
  obtain ⟨out, -, h⟩ := bind_ok.1 h
  cases h
  rfl

/-! ## Checks in front of the handlers -/

section

variable {σ : Type} {s : σ} {P : Except Fault (Handled σ) → Prop}

theorem withBody_elim {f : Bytes → Except Fault (Handled σ)}
    (hf : ∀ body, P (f body))
    (herr : ∀ http code msg, 400 ≤ http → P (.ok (s, errRes http code msg reqId))) :
    P (withBody s req reqId f) := by
  unfold withBody
  dsimp only
  split
  · exact herr _ _ _ (by decide)
  · split
    · exact herr _ _ _ (by decide)
    · exact hf _

theorem withQuery_elim {f : Bytes → Except Fault (Handled σ)} (hf : ∀ sql, P (f sql))
    (herr : ∀ http code msg, 400 ≤ http → P (.ok (s, errRes http code msg reqId))) :
    P (withQuery s req reqId f) := by
  refine withBody_elim (fun body => ?_) herr
  dsimp only
  split
  · exact herr _ _ _ (by decide)
  · exact hf _

theorem withQueries_elim {maxQry : Int} {forceTx : Bool}
    {f : List Bytes → Bool → Except Fault (Handled σ)} (hf : ∀ sqls tx, P (f sqls tx))
    (herr : ∀ http code msg, 400 ≤ http → P (.ok (s, errRes http code msg reqId))) :
    P (withQueries s maxQry req reqId forceTx f) := by
  refine withBody_elim (fun body => ?_) herr
  dsimp only
  split
  · split
    · exact herr _ _ _ (by decide)
    · exact hf _ _
  · exact herr _ _ _ (by decide)

theorem withPage_elim {f : PageMode → Int → Nat → Except Fault (Handled σ)}
    (hf : ∀ mode delayMs workers, P (f mode delayMs workers))
    (herr : ∀ http code msg, 400 ≤ http → P (.ok (s, errRes http code msg reqId))) :
    P (withPage s req reqId f) := by
  unfold withPage
  split
  · exact herr _ _ _ (by decide)
  · split
    · exact herr _ _ _ (by decide)
    · split
      · exact herr _ _ _ (by decide)
      · exact hf _ _ _

end

/-! ## Routes -/

def demoTypes : List Bytes :=
  [str "text/html; charset=utf-8", str "text/css; charset=utf-8",
    str "application/javascript; charset=utf-8"]

/-- A file of the demo, as it is. -/
def IsFile (front : Front) (answer : Option HttpRes) : Prop :=
  ∃ path raw contentType, front.asset path = some raw ∧ contentType ∈ demoTypes ∧
    answer = some ⟨200, raw, contentType⟩

/-- What a request comes to. -/
structure Comes (front : Front) (d : Ideal) (r : Request) (d' : Ideal) (answer : Option HttpRes) :
    Prop where
  said : IsFile front answer ∨ ∃ reply : Reply, answer = reply.write r.reqId
  failed : ∀ res, answer = some res → res.code ≠ 200 → d' = d
  get : r.req.meth.bytes = str "GET" → d' = d

theorem doAsset_said (front : Front) (reqId path : Bytes) {contentType : Bytes}
    (htype : contentType ∈ demoTypes) :
    IsFile front (doAsset front.asset reqId path contentType) ∨
      ∃ reply : Reply, doAsset front.asset reqId path contentType = reply.write reqId := by
  unfold doAsset
  cases hraw : front.asset path with
  | none => exact Or.inr ⟨.error 500 _ _ (by decide), rfl⟩
  | some raw =>
      have hne : contentType ≠ [] := by
        rintro rfl
        revert htype
        decide
      refine Or.inl ⟨path, raw, contentType, hraw, htype, ?_⟩
      unfold resSetCt Buf.text
      dsimp only
      rw [List.take_left' rfl, if_pos hne]

theorem RepliesTo.comes {front : Front} {r : Request} {out : Except Fault (Handled Ideal)}
    {d' : Ideal} {answer : Option HttpRes} (h : RepliesTo d r.reqId out)
    (hget : r.req.meth.bytes ≠ str "GET") (hrun : out = .ok (d', answer)) :
    Comes front d r d' answer := by
  obtain ⟨reply, rfl, hsame⟩ := h d' answer hrun
  refine ⟨Or.inr ⟨reply, rfl⟩, fun res hres hcode => hsame ?_, fun h => absurd h hget⟩
  rw [reply.write_eq] at hres
  cases hres
  exact hcode

theorem comes_same {front : Front} {r : Request} {answer : Option HttpRes}
    (h : IsFile front answer ∨ ∃ reply : Reply, answer = reply.write r.reqId) :
    Comes front d r d answer := ⟨h, fun _ _ _ => rfl, fun _ => rfl⟩

theorem comes_error {front : Front} {r : Request} {http : Nat} (failed : 400 ≤ http)
    (code msg : Bytes) : Comes front d r d (errRes http code msg r.reqId) :=
  comes_same (Or.inr ⟨.error http code msg failed, rfl⟩)

/-- **One request of the abstract server.** -/
theorem Ideal.serve_comes {front : Front} {r : Request} {chance : Chance} {d' : Ideal}
    {answer : Option HttpRes} (hrun : d.serve r.reqId r.env front r.req chance = .ok (d', answer)) :
    Comes front d r d' answer := by
  have hget : ∀ {out : Except Fault (Handled Ideal)},
      (∀ d' answer, out = .ok (d', answer) → Comes front d r d' answer) →
      only d r.req r.reqId (str "GET") out = .ok (d', answer) → Comes front d r d' answer := by
    intro out hout honly
    unfold only at honly
    split at honly
    · cases honly
      exact comes_error (by decide) _ _
    · exact hout d' answer honly
  have hsame : ∀ {a : Option HttpRes},
      (IsFile front a ∨ ∃ reply : Reply, a = reply.write r.reqId) →
      only d r.req r.reqId (str "GET") (.ok (d, a)) = .ok (d', answer) →
        Comes front d r d' answer := fun ha => hget fun d'' answer'' heq => by
    cases heq
    exact comes_same ha
  have hpost : ∀ {out : Except Fault (Handled Ideal)}, RepliesTo d r.reqId out →
      only d r.req r.reqId (str "POST") out = .ok (d', answer) → Comes front d r d' answer := by
    intro out hout honly
    unfold only at honly
    split at honly
    · cases honly
      exact comes_error (by decide) _ _
    · rename_i hmeth
      refine hout.comes ?_ honly
      rw [not_not.1 hmeth]
      decide
  have herr : ∀ http code msg, 400 ≤ http →
      RepliesTo d r.reqId (.ok (d, errRes http code msg r.reqId)) :=
    fun _ code msg failed => repliesTo_error failed code msg
  unfold Ideal.serve dispatch at hrun
  dsimp only at hrun
  split at hrun
  · exact hsame (doAsset_said _ _ _ (by decide)) hrun
  split at hrun
  · exact hsame (doAsset_said _ _ _ (by decide)) hrun
  split at hrun
  · exact hsame (doAsset_said _ _ _ (by decide)) hrun
  split at hrun
  · exact hsame (Or.inr ⟨.health, rfl⟩) hrun
  split at hrun
  · exact hpost (withQuery_elim (Ideal.serveSql_replies _) herr) hrun
  split at hrun
  · exact hpost (withQueries_elim Ideal.serveBatch_replies herr) hrun
  split at hrun
  · exact hpost (withQueries_elim Ideal.serveBatch_replies herr) hrun
  split at hrun
  · refine hget (fun d'' answer'' hpage => ?_) hrun
    have hreply : RepliesTo d r.reqId (withPage d r.req r.reqId
        (d.servePage r.reqId r.env (sqlv (pageSqls r.req)))) :=
      withPage_elim (fun mode delayMs workers =>
        Ideal.servePage_replies _ mode delayMs workers) herr
    obtain ⟨reply, rfl, -⟩ := hreply d'' answer'' hpage
    have hstill : d'' = d := by
      have hP : ∀ e a, withPage d r.req r.reqId
          (d.servePage r.reqId r.env (sqlv (pageSqls r.req))) = .ok (e, a) → e = d := by
        refine withPage_elim (P := fun out => ∀ e a, out = .ok (e, a) → e = d)
          (fun mode delayMs workers e a h => servePage_same h) fun http code msg _ e a h => ?_
        cases h
        rfl
      exact hP _ _ hpage
    subst hstill
    exact comes_same (Or.inr ⟨reply, rfl⟩)
  split at hrun
  · exact hsame (Or.inr ⟨.metrics _ _ _ _ _, rfl⟩) hrun
  · cases hrun
    exact comes_error (by decide) _ _

/-! ## Runs -/

theorem Ideal.serveAll_comes {front : Front} : ∀ {rs : List Request} {chances : List Chance}
    {d d' : Ideal} {answers : List (Option HttpRes)}, chances.length = rs.length →
    d.serveAll front (rs.zip chances) = .ok (d', answers) →
    List.Forall₂ (fun r answer => ∃ d₁ d₂, Comes front d₁ r d₂ answer) rs answers
  | [], [], d, d', answers, _, hrun => by
      cases hrun
      exact .nil
  | r :: rs, chance :: chances, d, d', answers, hlen, hrun => by
      rw [List.zip_cons_cons, Ideal.serveAll] at hrun
      obtain ⟨⟨d₁, answer⟩, hone, hrun⟩ := bind_ok.1 hrun
      obtain ⟨⟨d₂, rest⟩, hall, hrun⟩ := bind_ok.1 hrun
      cases hrun
      exact .cons ⟨d, d₁, Ideal.serve_comes hone⟩
        (Ideal.serveAll_comes (Nat.succ.inj hlen) hall)

/-- **Every request is answered**, with a file of the demo or with a JSON document that says the
reply of its handler: whether the status code is 200, what was found, and the number of the
request. -/
theorem every_answer_says_reply (files : Bytes → Option Bytes) (maxSql maxQry maxBody : Int)
    (ttlNs : Nat) (asset : Bytes → Option Bytes) (rs : List Request) (srv : Srv)
    (answers : List (Option HttpRes))
    (hrun : serveAll (srvNew files maxSql maxQry maxBody ttlNs asset) rs = .ok (srv, answers)) :
    List.Forall₂ (fun r answer => IsFile ⟨maxQry, maxBody, asset⟩ answer ∨
      ∃ (reply : Reply) (res : HttpRes), reply.write r.reqId = some res ∧ answer = some res ∧
        (reply.Fits → reply.SaidBy r.reqId res)) rs answers := by
  obtain ⟨chances, d, hlen, hserve, -⟩ :=
    (srvNew_tracks files maxSql maxQry maxBody ttlNs asset).serveAll hrun
  refine (Ideal.serveAll_comes hlen hserve).imp fun r answer hcomes => ?_
  obtain ⟨d₁, d₂, hcomes⟩ := hcomes
  refine hcomes.said.imp_right fun hreply => ?_
  obtain ⟨reply, rfl⟩ := hreply
  refine ⟨reply, _, reply.write_eq, reply.write_eq, fun hfits => ?_⟩
  obtain ⟨res, hwrite, hsaid⟩ := reply.write_data r.reqId hfits
  rw [reply.write_eq] at hwrite
  cases hwrite
  exact hsaid

theorem every_answer_says_reply_short : ∃ srv answers,
    serveAll (srvNew tableT 0 8 0 5 fun _ => none) shortVisit = .ok (srv, answers) ∧
      List.Forall₂ (fun r answer => IsFile ⟨8, 0, fun _ => none⟩ answer ∨
        ∃ (reply : Reply) (res : HttpRes), reply.write r.reqId = some res ∧ answer = some res ∧
          (reply.Fits → reply.SaidBy r.reqId res)) shortVisit answers := by
  obtain ⟨⟨srv, answers⟩, hrun, -⟩ := exists_of_okAnd
    (show okAnd (serveAll (srvNew tableT 0 8 0 5 fun _ => none) shortVisit)
      (fun out => decide (0 < out.1.stats.cacheHits)) = true by decide +kernel)
  exact ⟨srv, answers, hrun,
    every_answer_says_reply tableT 0 8 0 5 (fun _ => none) shortVisit srv answers hrun⟩

/-- **Without success nothing changes**: a request that is answered with another status code
than 200, and every GET, leaves all tables and the number of the last commit as they were. -/
theorem only_success_changes (files : Bytes → Option Bytes) (maxSql maxQry maxBody : Int)
    (ttlNs : Nat) (asset : Bytes → Option Bytes) (rs : List Request) (srv srv' : Srv)
    (answers : List (Option HttpRes)) (r : Request) (res : HttpRes)
    (hrun : serveAll (srvNew files maxSql maxQry maxBody ttlNs asset) rs = .ok (srv, answers))
    (hstep : routeDo srv r.req r.reqId r.env = .ok (srv', some res))
    (hwhy : res.code ≠ 200 ∨ r.req.meth.bytes = str "GET") : srv'.db.abs = srv.db.abs := by
  obtain ⟨-, d, -, -, h⟩ := (srvNew_tracks files maxSql maxQry maxBody ttlNs asset).serveAll hrun
  obtain ⟨d', hserve, h'⟩ := h.routeDo r _ _ hstep
  have hcomes := Ideal.serve_comes hserve
  rw [h.abs, h'.abs]
  rcases hwhy with hcode | hget
  · exact hcomes.failed res rfl hcode
  · exact hcomes.get hget

/-- A transaction whose second statement fails. -/
def failingTx : Request :=
  postReq "/api/v1/tx" ("\x7b\"queries\":[\"INSERT INTO t VALUES (3,c)\"," ++
    "\"INSERT INTO t VALUES (3,d)\"]\x7d")

theorem only_success_changes_tx : ∃ srv answers srv' res,
    serveAll (srvNew tableT 0 8 0 5 fun _ => none) shortVisit = .ok (srv, answers) ∧
      routeDo srv failingTx.req failingTx.reqId failingTx.env = .ok (srv', some res) ∧
        res.code = 400 ∧ srv'.db.abs = srv.db.abs := by
  obtain ⟨⟨srv, answers⟩, hrun, htest⟩ := exists_of_okAnd
    (show okAnd (serveAll (srvNew tableT 0 8 0 5 fun _ => none) shortVisit)
      (fun out => okAnd (routeDo out.1 failingTx.req failingTx.reqId failingTx.env)
        fun out' => out'.2.any fun res => res.code == 400) = true by decide +kernel)
  obtain ⟨⟨srv', answer⟩, hstep, hany⟩ := exists_of_okAnd htest
  cases answer with
  | none => cases hany
  | some res =>
      have hcode : res.code = 400 := by simpa using hany
      exact ⟨srv, answers, srv', res, hrun, hstep, hcode,
        only_success_changes tableT 0 8 0 5 (fun _ => none) shortVisit srv srv' answers failingTx
          res hrun hstep (Or.inl (by rw [hcode]; decide))⟩

end Api

end MiniDbms
