import MiniDbms.Api.Counters
import MiniDbms.Api.Host

/-!
# Rounds that are taken one at a time

A round of `conn_run` as one step does to the counters what its thread does while all other
threads stand still.
-/

namespace MiniDbms

namespace Api

variable {srv srv' : Srv} {req : Http.HttpReq} {reqId : Bytes} {env : Env}

/-! ## What a request counts -/

/-- Only the counters of the cache have gone up. -/
def ApiStats.SameRequests (st st' : ApiStats) : Prop :=
  ∃ hits misses, st' = { st with
    cacheHits := st.cacheHits + hits, cacheMisses := st.cacheMisses + misses }

/-- The handler leaves the counters of the requests alone. -/
def Uncounted (srv : Srv) (out : Except Fault (Handled Srv)) : Prop :=
  ∀ srv' answer, out = .ok (srv', answer) → srv.stats.SameRequests srv'.stats

theorem sameRequests_refl (st : ApiStats) : st.SameRequests st :=
  ⟨0, 0, rfl⟩

theorem uncounted_of_eq {out : Except Fault (Handled Srv)}
    (h : ∀ srv' answer, out = .ok (srv', answer) → srv'.stats = srv.stats) : Uncounted srv out :=
  fun srv' answer heq => h srv' answer heq ▸ sameRequests_refl _

theorem execSql_stats {sql reason : Bytes} {ver : Nat} {answer : Option HttpRes}
    (h : execSql srv reqId env sql ver reason = .ok (srv', answer)) : srv'.stats = srv.stats := by
  unfold execSql at h
  obtain ⟨⟨db, dres, ok⟩, -, h⟩ := bind_ok.1 h
  dsimp only at h
  split at h
  · split at h
    · cases h
      rfl
    · cases h
      rfl
  · cases h
    rfl

theorem serveSql_uncounted (srv : Srv) (sql : Bytes) :
    Uncounted srv (serveSql srv reqId env sql) := by
  intro srv' answer h
  unfold serveSql at h
  split at h
  · rw [execSql_stats h]
    exact sameRequests_refl _
  · obtain ⟨⟨ver, db⟩, -, h⟩ := bind_ok.1 h
    dsimp only at h
    split at h
    · split at h
      · cases h
        exact ⟨1, 0, rfl⟩
      · rw [execSql_stats h]
        exact ⟨0, 1, rfl⟩
    · rw [execSql_stats h]
      exact ⟨0, 1, rfl⟩

theorem serveBatch_uncounted (srv : Srv) (sqls : List Bytes) (tx : Bool) :
    Uncounted srv (serveBatch srv reqId env sqls tx) := by
  refine uncounted_of_eq fun srv' answer h => ?_
  unfold serveBatch at h
  split at h
  · obtain ⟨⟨db, out⟩, -, h⟩ := bind_ok.1 h
    cases out with
    | none =>
        cases h
        rfl
    | some out =>
        cases h
        rfl
  · obtain ⟨⟨db, resv, ok⟩, -, h⟩ := bind_ok.1 h
    cases h
    rfl

theorem servePage_uncounted (srv : Srv) (sqls : List Bytes) (mode : PageMode) (delayMs : Int)
    (workers : Nat) : Uncounted srv (servePage srv sqls reqId env mode delayMs workers) := by
  refine uncounted_of_eq fun srv' answer h => ?_
  cases mode with
  | sequential =>
      obtain ⟨⟨db, out⟩, -, h⟩ := bind_ok.1 h
      cases h
      rfl
  | parallel =>
      obtain ⟨⟨db, out⟩, -, h⟩ := bind_ok.1 h
      cases out with
      | none =>
          cases h
          rfl
      | some out =>
          cases h
          rfl
  | compare =>
      obtain ⟨⟨db₁, out₁⟩, -, h⟩ := bind_ok.1 h
      obtain ⟨⟨db₂, out₂⟩, -, h⟩ := bind_ok.1 h
      cases out₂ with
      | none =>
          cases h
          rfl
      | some out₂ =>
          cases h
          rfl

/-- **A request counts at most as a hit or a miss of the cache.** -/
theorem routeDo_uncounted (srv : Srv) (req : Http.HttpReq) (reqId : Bytes) (env : Env) :
    Uncounted srv (routeDo srv req reqId env) := by
  have hstay : ∀ answer, Uncounted srv (.ok (srv, answer)) := fun answer =>
    uncounted_of_eq fun srv' answer' heq => by
      cases heq
      rfl
  have hsql : Uncounted srv (doSql srv req reqId env) :=
    withQuery_elim (serveSql_uncounted srv) fun _ _ _ _ => hstay _
  have hbatch : ∀ tx, Uncounted srv (doBatch srv req reqId env tx) := fun tx =>
    withQueries_elim (serveBatch_uncounted srv) fun _ _ _ _ => hstay _
  have hpage : Uncounted srv (doPage srv req reqId env) :=
    withPage_elim (servePage_uncounted srv _) fun _ _ _ _ => hstay _
  have honly : ∀ {out : Except Fault (Handled Srv)} (meth : Bytes), Uncounted srv out →
      Uncounted srv (only srv req reqId meth out) := fun meth hout => by
    unfold only
    split
    · exact hstay _
    · exact hout
  unfold routeDo dispatch
  dsimp only
  split
  · exact honly _ (hstay _)
  split
  · exact honly _ (hstay _)
  split
  · exact honly _ (hstay _)
  split
  · exact honly _ (hstay _)
  split
  · exact honly _ hsql
  split
  · exact honly _ (hbatch _)
  split
  · exact honly _ (hbatch _)
  split
  · exact honly _ hpage
  split
  · exact honly _ (hstay _)
  · exact hstay _

theorem respond_uncounted {result : Http.Result} {res : HttpRes} {connClose : Bool}
    (h : respond srv result reqId env = .ok (srv', res, connClose)) :
    srv.stats.SameRequests srv'.stats := by
  unfold respond at h
  split at h
  · cases h
    exact sameRequests_refl _
  · split at h
    · rename_i srv₁ answer hroute
      cases h
      exact routeDo_uncounted srv _ _ _ _ _ hroute
    · cases h


/-! ## One thread alone -/

/-- The operations of one request. -/
def requestOps (w hits misses code : Nat) : List TallyLabel :=
  [.work w .request, .work w .next, .work w .next, .work w .next] ++
    List.replicate hits (.work w .hit) ++ List.replicate misses (.work w .miss) ++
    [.work w (.respond code), .work w .next, .work w .next]

namespace Tally

variable {t : Tally} {w k : Nat} {phase : ConnPhase}

theorem run_cons (t : Tally) (l : TallyLabel) (ls : List TallyLabel) :
    t.run (l :: ls) = (t.step l).run ls := rfl

theorem run_append (t : Tally) (ls ls' : List TallyLabel) :
    t.run (ls ++ ls') = (t.run ls).run ls' := List.foldl_append

theorem step_work (hphase : t.workers[w]? = some phase) (act : Act) :
    t.step (.work w act) = t.work w phase act := by
  unfold step
  simp only [hphase]

theorem run_cache (hphase : t.workers[w]? = some (.serving k)) (hits misses : Nat) :
    t.run (List.replicate hits (.work w .hit) ++ List.replicate misses (.work w .miss)) =
      { t with stats := { t.stats with
          cacheHits := t.stats.cacheHits + hits, cacheMisses := t.stats.cacheMisses + misses } } := by
  have hmisses : ∀ (misses : Nat) (t : Tally), t.workers[w]? = some (.serving k) →
      t.run (List.replicate misses (.work w .miss)) =
        { t with stats := { t.stats with cacheMisses := t.stats.cacheMisses + misses } } := by
    intro misses
    induction misses with
    | zero => exact fun _ _ => rfl
    | succ misses ih =>
        intro t hphase
        rw [List.replicate_succ, run_cons, step_work hphase]
        refine (ih (t.work w (.serving k) .miss) hphase).trans ?_
        simp only [work, Nat.add_assoc, Nat.add_comm 1 misses]
  induction hits generalizing t with
  | zero => exact hmisses misses t hphase
  | succ hits ih =>
      rw [List.replicate_succ, List.cons_append, run_cons, step_work hphase]
      refine (ih (t := t.work w (.serving k) .hit) hphase).trans ?_
      simp only [work, Nat.add_assoc, Nat.add_comm 1 hits]

theorem run_started (hphase : t.workers[w]? = some (.ready k)) :
    t.run [.work w .request, .work w .next, .work w .next, .work w .next] =
      { t with
        stats := if 0 < k then t.stats.noteRequestStarted.noteKeepAliveReuse
          else t.stats.noteRequestStarted
        reqSeq := t.reqSeq + 1
        workers := t.workers.set w (.serving (k + 1))
        begun := t.begun ++ [k]
        numbers := t.numbers ++ [t.reqSeq + 1] } := by
  have hlt : w < t.workers.length := (List.getElem?_eq_some_iff.1 hphase).1
  simp only [run, List.foldl_cons, List.foldl_nil, step, hphase, work, move, List.set_set,
    List.getElem?_set_self hlt, ApiStats.noteRequestStarted_eq]

theorem run_finished (hphase : t.workers[w]? = some (.serving k)) (code : Nat) :
    t.run [.work w (.respond code), .work w .next, .work w .next] =
      { t with
        stats := t.stats.noteRequestFinished code
        workers := t.workers.set w (.ready k)
        answered := t.answered ++ [code] } := by
  have hlt : w < t.workers.length := (List.getElem?_eq_some_iff.1 hphase).1
  simp only [run, List.foldl_cons, List.foldl_nil, step, hphase, work, move, List.set_set,
    List.getElem?_set_self hlt, ApiStats.noteRequestFinished_eq]

theorem run_request (hphase : t.workers[w]? = some (.ready k)) (hits misses code : Nat)
    {started : ApiStats} (hstarted : started = if 0 < k then
      t.stats.noteRequestStarted.noteKeepAliveReuse else t.stats.noteRequestStarted) :
    ∃ begun numbers answered, t.run (requestOps w hits misses code) =
      { t with
        stats := ({ started with
          cacheHits := started.cacheHits + hits
          cacheMisses := started.cacheMisses + misses } : ApiStats).noteRequestFinished code
        reqSeq := t.reqSeq + 1
        workers := t.workers.set w (.ready (k + 1))
        begun := begun, numbers := numbers, answered := answered } := by
  have hlt : w < t.workers.length := (List.getElem?_eq_some_iff.1 hphase).1
  have hserving : (t.workers.set w (.serving (k + 1)))[w]? = some (.serving (k + 1)) :=
    List.getElem?_set_self hlt
  refine ⟨t.begun ++ [k], t.numbers ++ [t.reqSeq + 1], t.answered ++ [code], ?_⟩
  unfold requestOps
  rw [run_append, List.append_assoc, run_append, run_started hphase, ← hstarted]
  rw [run_cache hserving, run_finished hserving]
  simp only [List.set_set]

theorem run_reject (hrejecting : t.rejecting = false) : t.run [.reject, .reject] =
    { t with stats := t.stats.noteImmediate503, rejected := t.rejected + 1 } := by
  simp only [run, List.foldl_cons, List.foldl_nil, step, hrejecting, Bool.false_eq_true, if_false,
    if_true, ApiStats.noteImmediate503_eq]

end Tally

/-! ## The server one round after another -/

/-- The thread of each connection waits in front of its next request. -/
structure Waits (host : Host) (t : Tally) : Prop where
  stats : t.stats = host.srv.stats
  number : t.reqSeq = host.reqSeq
  quiet : t.rejecting = false
  live : ∀ (i : Nat) (conn : Conn), host.conns[i]? = some conn → conn.live = true →
    t.workers[i]? = some (ConnPhase.ready conn.reqCount)
  free : ∀ i : Nat, host.conns.length ≤ i → i < t.workers.length → t.workers[i]? = some ConnPhase.idle

variable {host host' : Host} {t : Tally}

theorem answered_stats {i : Nat} {conn : Conn} {e : Event} {srv : Srv} {http : Http.HttpConn}
    {bytes : Bytes} (ha : Answered host i conn e srv http bytes) : ∃ hits misses,
      (host.answered i conn e srv http bytes).srv.stats =
        ({ (host.srv.started conn.reqCount).stats with
          cacheHits := (host.srv.started conn.reqCount).stats.cacheHits + hits
          cacheMisses := (host.srv.started conn.reqCount).stats.cacheMisses + misses } :
            ApiStats).noteRequestFinished e.res.code := by
  obtain ⟨hits, misses, hst⟩ := respond_uncounted ha.responded
  exact ⟨hits, misses, congrArg (fun st => ApiStats.noteRequestFinished st e.res.code) hst⟩

/-- One step of the server is a run of the threads, one of them at a time. -/
theorem Waits.step (h : Waits host t) (hs : Host.Stepped host host')
    (hroom : host'.conns.length ≤ t.workers.length) :
    ∃ ls, Waits host' (t.run ls) ∧ (t.run ls).workers.length = t.workers.length := by
  cases hs with
  | accept chunks =>
      have hlen : host.conns.length < t.workers.length := by
        dsimp only at hroom
        rw [List.length_append, List.length_singleton] at hroom
        omega
      have hidle := h.free host.conns.length le_rfl hlen
      have hrun : t.run [.work host.conns.length .connect] =
          t.move host.conns.length (.ready 0) := Tally.step_work hidle .connect
      refine ⟨[.work host.conns.length .connect], ?_, ?_⟩
      · rw [hrun]
        refine ⟨h.stats, h.number, h.quiet, fun i conn hconn hlive => ?_, fun i hi hlt => ?_⟩
        · dsimp only at hconn
          rcases Nat.lt_or_ge i host.conns.length with hold | hnew
          · rw [List.getElem?_append_left hold] at hconn
            exact (List.getElem?_set_ne (by omega)).trans (h.live i conn hconn hlive)
          · rw [List.getElem?_append_right hnew] at hconn
            have heq : i = host.conns.length := by
              obtain ⟨hlt, -⟩ := List.getElem?_eq_some_iff.1 hconn
              rw [List.length_singleton] at hlt
              omega
            rw [heq, Nat.sub_self] at hconn
            cases hconn
            rw [heq]
            exact List.getElem?_set_self hlen
        · dsimp only at hi
          rw [List.length_append, List.length_singleton] at hi
          unfold Tally.move at hlt ⊢
          rw [List.length_set] at hlt
          rw [List.getElem?_set_ne (by omega)]
          exact h.free i (by omega) hlt
      · rw [hrun]
        exact List.length_set
  | reject =>
      refine ⟨[.reject, .reject], ?_, ?_⟩
      · rw [Tally.run_reject h.quiet]
        exact ⟨congrArg ApiStats.noteImmediate503 h.stats, h.number, h.quiet, h.live, h.free⟩
      · rw [Tally.run_reject h.quiet]
  | idle => exact ⟨[], h, rfl⟩
  | @ended i conn http hconn =>
      refine ⟨[], ⟨h.stats, h.number, h.quiet, fun j conn' hconn' hlive => ?_, ?_⟩, rfl⟩
      · dsimp only at hconn'
        by_cases hij : i = j
        · subst hij
          rw [List.getElem?_set_self (List.getElem?_eq_some_iff.1 hconn).1] at hconn'
          cases hconn'
          cases hlive
        · rw [List.getElem?_set_ne hij] at hconn'
          exact h.live j conn' hconn' hlive
      · intro j hj hlt
        dsimp only at hj
        rw [List.length_set] at hj
        exact h.free j hj hlt
  | @answered i conn e srv http bytes ha =>
      have hphase := h.live i conn ha.found ha.live
      obtain ⟨hits, misses, hst⟩ := answered_stats ha
      have hstarted : (host.srv.started conn.reqCount).stats = if 0 < conn.reqCount then
          t.stats.noteRequestStarted.noteKeepAliveReuse else t.stats.noteRequestStarted := by
        rw [h.stats]
        rfl
      obtain ⟨begun, numbers, answered, hrun⟩ :=
        Tally.run_request hphase hits misses e.res.code hstarted
      refine ⟨requestOps i hits misses e.res.code, ?_, ?_⟩
      · rw [hrun]
        refine ⟨hst.symm, congrArg (· + 1) h.number, h.quiet, fun j conn' hconn' hlive => ?_, ?_⟩
        · unfold Host.answered at hconn'
          dsimp only at hconn' ⊢
          by_cases hij : i = j
          · subst hij
            rw [List.getElem?_set_self (List.getElem?_eq_some_iff.1 ha.found).1] at hconn'
            cases hconn'
            exact List.getElem?_set_self (List.getElem?_eq_some_iff.1 hphase).1
          · rw [List.getElem?_set_ne hij] at hconn' ⊢
            exact h.live j conn' hconn' hlive
        · intro j hj hlt
          have hi : i < host.conns.length := (List.getElem?_eq_some_iff.1 ha.found).1
          unfold Host.answered at hj
          dsimp only at hj hlt ⊢
          rw [List.length_set] at hj hlt
          rw [List.getElem?_set_ne (by omega)]
          exact h.free j hj hlt
      · rw [hrun]
        exact List.length_set

theorem conns_grow (hs : Host.Stepped host host') : host.conns.length ≤ host'.conns.length := by
  cases hs with
  | accept chunks =>
      dsimp only
      rw [List.length_append]
      exact Nat.le_add_right _ _
  | reject => exact le_rfl
  | idle => exact le_rfl
  | ended hconn => exact List.length_set.ge
  | answered ha => exact List.length_set.ge

/-- The server that takes one round after another counts as its threads do. -/
theorem rounds_count_as_threads (srv : Srv) (hsrv : srv.stats = {}) :
    ∀ (ls : List Label) (host : Host), Run.exec Host.step (hostNew srv) ls = .ok host →
      ∃ ops, ((Tally.start host.conns.length).run ops).stats = host.srv.stats ∧
        ((Tally.start host.conns.length).run ops).reqSeq = host.reqSeq := by
  have hrun : ∀ (ls : List Label) (first : Host) (t : Tally) (host : Host), Waits first t →
      Run.exec Host.step first ls = .ok host → host.conns.length ≤ t.workers.length →
        ∃ ops, Waits host (t.run ops) := by
    intro ls
    induction ls with
    | nil =>
        intro first t host h hexec _
        cases hexec
        exact ⟨[], h⟩
    | cons l ls ih =>
        intro first t host h hexec hroom
        obtain ⟨next, hstep, hexec⟩ := Run.exec_cons.1 hexec
        have hs := Host.step_cases hstep
        have hgrow : ∀ (ls : List Label) (first : Host),
            Run.exec Host.step first ls = .ok host → first.conns.length ≤ host.conns.length := by
          intro ls first hexec
          exact Run.kept (I := fun host => first.conns.length ≤ host.conns.length)
            (fun hi hstep => hi.trans (conns_grow (Host.step_cases hstep))) le_rfl hexec
        obtain ⟨ops, hwaits, hlen⟩ := h.step hs ((hgrow ls next hexec).trans hroom)
        obtain ⟨ops', hwaits'⟩ := ih next (t.run ops) host hwaits hexec (by rw [hlen]; exact hroom)
        exact ⟨ops ++ ops', by rw [Tally.run_append]; exact hwaits'⟩
  intro ls host hexec
  have hstart : Waits (hostNew srv) (Tally.start host.conns.length) := by
    refine ⟨hsrv.symm, rfl, rfl, fun i conn hconn => (by cases hconn), fun i _ hlt => ?_⟩
    rw [Tally.start, List.length_replicate] at hlt
    exact List.getElem?_replicate_of_lt hlt
  obtain ⟨ops, hwaits⟩ := hrun ls _ _ host hstart hexec (by rw [Tally.start, List.length_replicate])
  exact ⟨ops, hwaits.stats, hwaits.number⟩

end Api

end MiniDbms
