import MiniDbms.Api.CacheSpec
import MiniDbms.Api.Route
import MiniDbms.Db.Batch

/-!
# The server without its cache and its pool

The abstract server evaluates every statement of a request on the committed content, one
after another.  It has no cache, no snapshots and no workers, so it says what those of
`route.c` are for: they may show in the `meta` of a response, in the statistics, and as a
full queue, and nowhere else.
-/

namespace MiniDbms

/-! ## The abstract server -/

namespace Ideal

/-- A statement of a page or of a batch that only reads. -/
def readNow (d : Ideal) (sql : Bytes) : Except Fault (DbRes × Bool) := d.read d.ver d.com sql

def readEach (d : Ideal) : List Bytes → Except Fault (List (DbRes × Bool))
  | [] => .ok []
  | sql :: sqls => do
    let r ← d.readNow sql
    let out ← d.readEach sqls
    return r :: out

end Ideal

namespace Api

/-- What a response may say about the cache. -/
inductive CacheNote
  | hit
  | miss (reason : QueryCacheMissReason)

def CacheNote.status : CacheNote → Bytes
  | .hit => str "hit"
  | .miss _ => str "miss"

def CacheNote.reason : CacheNote → Bytes
  | .hit => str "cache_hit"
  | .miss reason => cacheReasonOf reason

/-- What the content does not decide. -/
structure Chance where
  note : CacheNote
  stats : ApiStats

/-- What no request changes. -/
structure Front where
  maxQry : Int
  maxBody : Int
  asset : Bytes → Option Bytes

def Srv.front (srv : Srv) : Front := ⟨srv.maxQry, srv.maxBody, srv.asset⟩

end Api

namespace Ideal

open Api

variable (d : Ideal) (reqId : Bytes) (env : Env)

def serveSql (note : CacheNote) (sql : Bytes) : Except Fault (Handled Ideal) := do
  let (d, res, ok) ← d.exec sql
  let (status, reason) :=
    if (cacheTable sql).isSome then (note.status, note.reason)
    else (str "miss", str "not_cacheable")
  return (d, if ok then sqlOkData reqId (sqlData res) env.meter status reason
    else sqlFailed reqId res)

def serveBatch (sqls : List Bytes) (tx : Bool) : Except Fault (Handled Ideal) :=
  if goesToPool sqls tx then do
    let out ← d.readEach sqls
    return (d, if env.par.refuses sqls.length then queueFull reqId
      else batchOk reqId (out.map Prod.fst) env.meter.latMs)
  else do
    let (d, resv, ok) ← d.batch sqls tx
    return (d, batchAnswer reqId resv env.meter.latMs tx ok)

def servePage (sqls : List Bytes) (mode : PageMode) (delayMs : Int) (workers : Nat) :
    Except Fault (Handled Ideal) := do
  let out ← d.readEach sqls
  let res :=
    match mode with
    | .sequential => singleAnswer reqId .sequential delayMs workers out env.seq
    | .parallel =>
      if env.par.refuses sqls.length then queueFull reqId
      else singleAnswer reqId .parallel delayMs workers out env.par
    | .compare =>
      if env.par.refuses sqls.length then queueFull reqId
      else compareAnswer reqId env delayMs workers out out
  return (d, res)

/-- One request. -/
def serve (front : Front) (req : Http.HttpReq) (chance : Chance) : Except Fault (Handled Ideal) :=
  dispatch d req reqId
    { asset := doAsset front.asset reqId
      sql := withQuery d req reqId (d.serveSql reqId env chance.note)
      batch := fun forceTx => withQueries d front.maxQry req reqId forceTx (d.serveBatch reqId env)
      page := withPage d req reqId (d.servePage reqId env (sqlv (pageSqls req)))
      metrics := doMst reqId env.apiPool env.dbPool (Mvcc.mvStat ⟨d.ver, []⟩) chance.stats
        env.timing }

/-- Requests one after another. -/
def serveAll (front : Front) : Ideal → List (Request × Chance) →
    Except Fault (Ideal × List (Option HttpRes))
  | d, [] => .ok (d, [])
  | d, (r, chance) :: rs => do
    let (d, answer) ← d.serve r.reqId r.env front r.req chance
    let (d, answers) ← serveAll front d rs
    return (d, answer :: answers)

end Ideal

/-! ## How the content moves on -/

/-- Versions that were there are still there or were replaced by newer ones. -/
structure Ideal.Newer (d d' : Ideal) : Prop where
  maxSql : d'.maxSql = d.maxSql
  maxQry : d'.maxQry = d.maxQry
  ver : d.ver ≤ d'.ver
  com : ∀ n tab, d'.com n = some tab → tab.verId ≤ d.ver → d.com n = some tab

namespace Ideal

variable {d d' : Ideal}

theorem Newer.refl (d : Ideal) : d.Newer d := ⟨rfl, rfl, Nat.le_refl _, fun _ _ h _ => h⟩

theorem Newer.trans {d'' : Ideal} (h : d.Newer d') (h' : d'.Newer d'') : d.Newer d'' where
  maxSql := h'.maxSql.trans h.maxSql
  maxQry := h'.maxQry.trans h.maxQry
  ver := h.ver.trans h'.ver
  com := fun n tab hcom hver => h.com n tab (h'.com n tab hcom (hver.trans h.ver)) hver

theorem install_newer (d : Ideal) (tx : IdealTx) : d.Newer (d.install tx) := by
  refine ⟨rfl, rfl, Nat.le_succ _, fun n tab hcom hver => ?_⟩
  change Db.override tx.work d.com (d.ver + 1) n = some tab at hcom
  unfold Db.override at hcom
  split at hcom
  · cases hcom
    exact absurd hver (Nat.not_succ_le_self _)
  · exact hcom

theorem write_newer {stmt : Statement} {res : DbRes} {ok : Bool}
    (h : d.write stmt = .ok (d', res, ok)) : d.Newer d' := by
  unfold write at h
  dsimp only at h
  split at h
  · cases h
    exact Newer.refl d
  · split at h
    · cases h
      exact Newer.refl d
    · obtain ⟨⟨tab', res', ok'⟩, -, h⟩ := bind_ok.1 h
      cases ok' with
      | true =>
          cases h
          exact d.install_newer _
      | false =>
          cases h
          exact Newer.refl d

theorem exec_newer {sql : Bytes} {res : DbRes} {ok : Bool} (h : d.exec sql = .ok (d', res, ok)) :
    d.Newer d' := by
  unfold exec at h
  split at h
  · cases h
    exact Newer.refl d
  · split at h
    · obtain ⟨r, -, h⟩ := bind_ok.1 h
      cases h
      exact Newer.refl d
    · exact write_newer h

theorem batchEach_newer : ∀ (sqls : List Bytes) {d d' : Ideal} {out : List DbRes},
    d.batchEach sqls = .ok (d', out) → d.Newer d'
  | [], d, d', out, h => by
      cases h
      exact Newer.refl d
  | sql :: sqls, d, d', out, h => by
      rw [batchEach] at h
      obtain ⟨⟨d₁, res, ok⟩, hexec, h⟩ := bind_ok.1 h
      obtain ⟨⟨d₂, out'⟩, hrest, h⟩ := bind_ok.1 h
      cases h
      exact (exec_newer hexec).trans (batchEach_newer sqls hrest)

theorem batch_newer {sqls : List Bytes} {tx : Bool} {out : List DbRes} {ok : Bool}
    (h : d.batch sqls tx = .ok (d', out, ok)) : d.Newer d' := by
  unfold batch at h
  split at h
  · cases h
    exact Newer.refl d
  split at h
  · cases h
    exact Newer.refl d
  split at h
  · obtain ⟨⟨tx', out', ok'⟩, -, h⟩ := bind_ok.1 h
    cases ok' with
    | true =>
        cases h
        exact d.install_newer tx'
    | false =>
        cases h
        exact Newer.refl d
  · obtain ⟨r, heach, h⟩ := bind_ok.1 h
    cases h
    exact batchEach_newer sqls heach

end Ideal

end MiniDbms
