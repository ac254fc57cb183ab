import MiniDbms.Api.IdealServer

/-!
# The server refines the abstract one

Between two requests no snapshot is live, and every cache entry whose label is the number
of the committed version holds the answer of that version.  Each handler keeps this, and
its response is the one of the abstract server.
-/

namespace MiniDbms

namespace Db

variable {db db' db₁ db₂ : Db} {ws : List Nat} {sql name : Bytes} {res : DbRes} {ok : Bool}

/-! ## Reads on one snapshot -/

theorem Private.settled (h : Private ws db db') (hwf : db'.Wf ws) (hlive : db.Live) :
    Settled db db' ws db.abs where
  wf := hwf
  abs := by
    unfold Db.abs
    rw [h.com, h.mv, h.maxSql, h.maxQry]
  snaps := h.mv ▸ List.Perm.refl _
  cur := h.mv ▸ Nat.le_refl _
  stable := h.stable.mono fun s hs => (hlive s hs).1
  works := h.works

theorem Begun.read (h : Begun db db₁ ⟨db.mv.curVer, []⟩ ws db.abs.begin)
    (hrun : db₁.doRead db.mv.curVer sql = .ok (db₂, res, ok)) :
    Begun db db₂ ⟨db.mv.curVer, []⟩ ws db.abs.begin ∧ db.abs.readNow sql = .ok (res, ok) := by
  have hc := doRead_spec h.ran.opened.txwf.wf h.wf.curVer_pos h.ran.opened.sees sql
  rw [hrun] at hc
  cases hc with
  | read hwf₂ hp hread =>
      obtain ⟨hopen, habs⟩ := h.ran.opened.private hwf₂ hp
      refine ⟨⟨h.wf, h.live, hopen, h.ran.priv.trans hp, habs.trans h.ran.abs, rfl⟩, ?_⟩
      have hseen : db₁.seen db.mv.curVer = db.com := by
        rw [h.ran.priv.stable.seen _ h.wf.curVer_pos]
        exact h.wf.seen_now
      rw [h.absDb, hseen] at hread
      exact hread

/-- The jobs of one snapshot, in whatever order they run. -/
theorem readJobs_spec {sqls : List Bytes} : ∀ {order : List Nat} {db₁ db₂ : Db}
    {done : List (Nat × DbRes × Bool)}, Begun db db₁ ⟨db.mv.curVer, []⟩ ws db.abs.begin →
    db₁.readJobs db.mv.curVer sqls order = .ok (db₂, done) →
    Begun db db₂ ⟨db.mv.curVer, []⟩ ws db.abs.begin ∧
      ∀ i ∈ order, ∃ r, done.lookup i = some r ∧ db.abs.readNow (sqls.getD i []) = .ok r
  | [], db₁, db₂, done, h, hrun => by
      cases hrun
      exact ⟨h, fun i hi => absurd hi List.not_mem_nil⟩
  | j :: order, db₁, db₂, done, h, hrun => by
      rw [readJobs] at hrun
      obtain ⟨⟨db₃, res, ok⟩, hread, hrun⟩ := bind_ok.1 hrun
      obtain ⟨⟨db₄, done'⟩, hrest, hrun⟩ := bind_ok.1 hrun
      cases hrun
      obtain ⟨h₃, hj⟩ := h.read hread
      obtain ⟨h₄, hall⟩ := readJobs_spec h₃ hrest
      refine ⟨h₄, fun i hi => ?_⟩
      rw [List.lookup_cons]
      by_cases hij : i = j
      · subst hij
        exact ⟨(res, ok), by simp, hj⟩
      · obtain ⟨r, hr⟩ := hall i ((List.mem_cons.1 hi).resolve_left hij)
        exact ⟨r, by simpa [beq_eq_false_iff_ne.2 hij] using hr.1, hr.2⟩

/-- **`db_tab_ver`** gives the number of the committed version. -/
theorem dbTabVer_spec {ver : Nat} (hwf : db.Wf ws) (hrun : db.dbTabVer name = .ok (ver, db')) :
    db'.Wf ws ∧ Private ws db db' ∧ ver ≤ db.abs.ver ∧
      (0 < ver → ∃ tab, db.abs.com name = some tab ∧ tab.verId = ver) := by
  unfold dbTabVer at hrun
  split at hrun
  · cases hrun
    exact ⟨hwf, Private.refl _ _, Nat.zero_le _, by simp⟩
  · obtain ⟨⟨k?, db₁⟩, hneed, hrun⟩ := bind_ok.1 hrun
    cases k? with
    | none =>
        cases hrun
        obtain ⟨rfl, -⟩ := needEnt_none hneed
        exact ⟨hwf, Private.refl _ _, Nat.zero_le _, by simp⟩
    | some k =>
        obtain ⟨hwf₁, hp, -, e, he, hname⟩ := needEnt_private hwf hneed ws fun _ ha => ha
        have hok := hwf₁.chain e (List.mem_of_getElem? he)
        obtain ⟨a, rest, hchain⟩ := List.exists_cons_of_ne_nil hok.nonempty
        obtain ⟨tab, htab, -, -, -, hle⟩ := hok.live a (hchain ▸ List.mem_cons_self)
        have hent : db₁.entAt ⟨db₁.tabsGen, k⟩ = .ok e := entAt_fresh rfl he
        have hver : db₁.ver a = .ok tab := by simp [Db.ver, htab]
        simp only [bind, Except.bind, hent, hchain, List.head?_cons, hver] at hrun
        cases hrun
        rw [hp.mv] at hle
        refine ⟨hwf₁, hp, hle, fun _ => ⟨tab, ?_, rfl⟩⟩
        change db.com name = some tab
        rw [← hp.com]
        unfold com headAddr
        rw [← hname, hwf₁.getEnt_eq he]
        simp [he, hchain, htab]

end Db

/-! ## Jobs of the pool -/

namespace Api

theorem mem_schedule {order : List Nat} {lo hi i : Nat} (hlo : lo ≤ i) (hhi : i < hi) :
    i ∈ schedule order lo hi := by
  unfold schedule
  rw [List.mem_append]
  by_cases hlisted : i ∈ (order.filter fun i => decide (lo ≤ i ∧ i < hi)).dedup
  · exact Or.inl hlisted
  · refine Or.inr (List.mem_filter.2 ⟨?_, decide_eq_true hlisted⟩)
    rw [List.mem_range'_1]
    omega

theorem mem_jobOrder {workers n i : Nat} {phase : Phase} (hw : 0 < workers)
    (hno : phase.refuses n = false) (hi : i < n) : i ∈ jobOrder workers n phase := by
  have hadded : (phase.refused.map fun j => min j n).getD n = n := by
    unfold Phase.refuses at hno
    split at hno
    · rename_i j hj
      rw [decide_eq_false_iff_not] at hno
      rw [hj, Option.map_some, Option.getD_some, Nat.min_eq_right (by omega)]
    · rename_i hj
      rw [hj]
      rfl
  unfold jobOrder
  rw [hadded, List.mem_flatMap]
  have hstart := Nat.div_mul_le_self i workers
  have hend := Nat.lt_div_mul_add (a := i) hw
  refine ⟨i / workers * workers, List.mem_filter.2 ⟨List.mem_range.2 (by omega), ?_⟩, ?_⟩
  · rw [Nat.mul_mod_left]
    rfl
  · exact mem_schedule hstart (by omega)

end Api

theorem Ideal.readEach_of_forall {d : Ideal} : ∀ {sqls : List Bytes} {out : List (DbRes × Bool)},
    out.length = sqls.length →
    (∀ (i : Nat) r, out[i]? = some r → d.readNow (sqls.getD i []) = .ok r) →
    d.readEach sqls = .ok out
  | [], [], _, _ => rfl
  | sql :: sqls, r :: out, hlen, h => by
      have hhead : d.readNow sql = .ok r := h 0 r rfl
      have htail : d.readEach sqls = .ok out :=
        Ideal.readEach_of_forall (Nat.succ.inj hlen) fun i r' hr => h (i + 1) r' hr
      rw [Ideal.readEach, hhead, htail]
      rfl

namespace TabVer

variable {tab : TabVer} {stmt : Statement}

theorem runOn_select (hsel : stmt.type = .select) (snap : Nat) :
    runOn tab stmt snap =
      .ok (tab, (tab.selDo stmt { snapId := snap }).1, (tab.selDo stmt { snapId := snap }).2) := by
  unfold runOn execStmt
  rw [hsel]

theorem answer_select (hsel : stmt.type = .select) (snap : Nat) :
    tab.answer stmt = if (tab.selDo stmt { snapId := snap }).2 then
      some (sqlData (tab.selDo stmt { snapId := snap }).1) else none := by
  have hsnap := tab.selDo_snap stmt snap {}
  rw [show ({ ({} : DbRes) with snapId := snap } : DbRes) = { snapId := snap } from rfl] at hsnap
  rw [hsnap]
  unfold answer execStmt
  rw [hsel]
  dsimp only
  cases (tab.selDo stmt {}).2 with
  | true => rfl
  | false => rfl

end TabVer

theorem Ideal.exec_select {d : Ideal} {sql : Bytes} {stmt : Statement} {tab : TabVer}
    (hparse : parseSql d.maxSql sql = .ok stmt) (hsel : stmt.type = .select)
    (htab : d.com stmt.tableName.bytes = some tab) :
    d.exec sql = .ok (d, (tab.selDo stmt { snapId := d.ver }).1,
      (tab.selDo stmt { snapId := d.ver }).2) := by
  unfold exec read
  simp only [hparse, hsel, if_true, ne_eq, not_true_eq_false, if_false, htab,
    TabVer.runOn_select hsel, bind, Except.bind, pure, Except.pure]

theorem Ideal.parse_of_exec {d d' : Ideal} {sql : Bytes} {stmt : Statement} {res : DbRes}
    (h : d.exec sql = .ok (d', res, true)) (hparse : parseStatement sql = some stmt) :
    parseSql d.maxSql sql = .ok stmt := by
  unfold exec at h
  unfold parseSql at h ⊢
  split at h
  · cases h
  · rename_i hok
    split at hok
    · cases hok
    · rename_i hshort
      rw [if_neg hshort, hparse]

namespace Api

open Db (Settled)

variable {d d' : Ideal} {srv srv' : Srv} {sql data reqId reason : Bytes} {ver : Nat} {env : Env}
  {front : Front} {answer : Option HttpRes}

/-! ## The relation -/

/-- Where `ver` numbers the committed version, `data` is its answer to `sql`. -/
def Current (d : Ideal) (sql : Bytes) (ver : Nat) (data : Bytes) : Prop :=
  ver ≤ d.ver ∧ ∃ stmt, parseSql d.maxSql sql = .ok stmt ∧ stmt.type = .select ∧
    ∀ tab, d.com stmt.tableName.bytes = some tab → tab.verId = ver → tab.answer stmt = some data

theorem Current.newer (h : Current d sql ver data) (hn : d.Newer d') : Current d' sql ver data := by
  obtain ⟨hver, stmt, hparse, hsel, hanswer⟩ := h
  refine ⟨hver.trans hn.ver, stmt, hn.maxSql ▸ hparse, hsel, fun tab htab heq => ?_⟩
  exact hanswer tab (hn.com _ _ htab (heq ▸ hver)) heq

/-- The server between two requests. -/
structure Srv.Tracks (srv : Srv) (front : Front) (d : Ideal) : Prop where
  front : srv.front = front
  wf : srv.db.Wf []
  abs : srv.db.abs = d
  snaps : srv.db.mv.snaps = []
  cache : ∀ sql ver data, srv.cache.Holds sql ver data → Current d sql ver data

namespace Srv.Tracks

theorem live (h : srv.Tracks front d) : srv.db.Live := fun s hs => by
  rw [h.snaps] at hs
  exact absurd hs List.not_mem_nil

theorem move (h : srv.Tracks front d) (hf : srv'.front = srv.front)
    (hs : Settled srv.db srv'.db [] d') (hn : d.Newer d')
    (hc : ∀ sql ver data, srv'.cache.Holds sql ver data →
      srv.cache.Holds sql ver data ∨ Current d' sql ver data) : srv'.Tracks front d' where
  front := hf.trans h.front
  wf := hs.wf
  abs := hs.abs
  snaps := List.Perm.eq_nil (h.snaps ▸ hs.snaps)
  cache := fun sql ver data hh => by
    rcases hc sql ver data hh with hold | hnew
    · exact (h.cache sql ver data hold).newer hn
    · exact hnew

/-! ## Statements -/

/-- **`do_sql` behind the cache**: the statement runs, and its answer may be stored. -/
theorem execSql (h : srv.Tracks front d) (hver : ver ≤ d.ver)
    (hcom : 0 < ver → ∃ stmt tab, parseStatement sql = some stmt ∧ stmt.type = .select ∧
      d.com stmt.tableName.bytes = some tab ∧ tab.verId = ver)
    (hrun : Api.execSql srv reqId env sql ver reason = .ok (srv', answer)) :
    ∃ d' res ok, d.exec sql = .ok (d', res, ok) ∧ srv'.Tracks front d' ∧
      answer = if ok then sqlOkData reqId (sqlData res) env.meter (str "miss") reason
        else sqlFailed reqId res := by
  unfold Api.execSql at hrun
  obtain ⟨⟨db', res, ok⟩, hexec, hrun⟩ := bind_ok.1 hrun
  have hc := Db.dbExec_spec h.wf h.live sql
  rw [hexec, h.abs] at hc
  cases hc with
  | @done _ d' _ _ hi hs =>
      have hn := Ideal.exec_newer hi
      refine ⟨d', res, ok, hi, ?_⟩
      cases ok with
      | false =>
          cases hrun
          exact ⟨h.move rfl hs hn fun _ _ _ hh => Or.inl hh, rfl⟩
      | true =>
          simp only [if_true, Buf.sqlDataDump_eq] at hrun
          cases hrun
          refine ⟨h.move rfl hs hn fun key v body hh => ?_, rfl⟩
          dsimp only at hh
          split at hh
          · rename_i hpos
            rcases QueryCache.queryCacheStore_holds hh with ⟨rfl, rfl, rfl⟩ | hold
            · obtain ⟨stmt, tab, hparse, hsel, htab, hverId⟩ := hcom hpos
              have hparse' := Ideal.parse_of_exec hi hparse
              rw [Ideal.exec_select hparse' hsel htab] at hi
              simp only [Except.ok.injEq, Prod.mk.injEq] at hi
              obtain ⟨rfl, rfl, hok⟩ := hi
              refine Or.inr ⟨hver, stmt, hparse', hsel, fun tab' htab' _ => ?_⟩
              rw [htab, Option.some.injEq] at htab'
              subst htab'
              rw [TabVer.answer_select hsel d.ver, if_pos hok]
            · exact Or.inl hold
          · exact Or.inl hh

end Srv.Tracks

/-- What the cache makes of a statement. -/
def Srv.note (srv : Srv) (env : Env) (sql : Bytes) : CacheNote :=
  match cacheTable sql with
  | none => .miss .noEntry
  | some table =>
    match srv.db.dbTabVer table with
    | .error _ => .miss .noEntry
    | .ok (ver, _) =>
      if 0 < ver then
        match srv.cache.queryCacheLookup sql ver env.lookNs with
        | (_, some _, _) => .hit
        | (_, none, reason) => .miss reason
      else .miss .noEntry

theorem cacheTable_some {table : Bytes} (h : cacheTable sql = some table) :
    ∃ stmt, parseStatement sql = some stmt ∧ stmt.type = .select ∧
      stmt.tableName.bytes = table := by
  unfold cacheTable at h
  split at h
  · rename_i stmt hparse
    split at h
    · rename_i hsel
      cases h
      exact ⟨stmt, hparse, hsel.1, rfl⟩
    · cases h
  · cases h

namespace Srv.Tracks

/-- **`do_sql`**: a hit is what running the statement would give. -/
theorem serveSql (h : srv.Tracks front d)
    (hrun : Api.serveSql srv reqId env sql = .ok (srv', answer)) :
    ∃ d', d.serveSql reqId env (srv.note env sql) sql = .ok (d', answer) ∧
      srv'.Tracks front d' := by
  unfold Api.serveSql at hrun
  unfold Ideal.serveSql Srv.note
  cases htable : cacheTable sql with
  | none =>
      rw [htable] at hrun
      obtain ⟨d', res, ok, hi, ht, rfl⟩ := h.execSql (Nat.zero_le _)
        (fun hpos => absurd hpos (Nat.lt_irrefl 0)) hrun
      rw [hi]
      exact ⟨d', rfl, ht⟩
  | some table =>
      rw [htable] at hrun
      obtain ⟨stmt, hparse, hsel, rfl⟩ := cacheTable_some htable
      obtain ⟨⟨ver, db'⟩, hver, hrun⟩ := bind_ok.1 hrun
      obtain ⟨hwf, hp, hle, hcom⟩ := Db.dbTabVer_spec h.wf hver
      rw [h.abs] at hle hcom
      have hs : Settled srv.db db' [] d := h.abs ▸ hp.settled hwf h.live
      simp only [hver]
      dsimp only at hrun
      by_cases hpos : 0 < ver
      · rw [if_pos hpos] at hrun ⊢
        obtain ⟨tab, htab, hverId⟩ := hcom hpos
        cases hlook : srv.cache.queryCacheLookup sql ver env.lookNs with
        | mk cache out =>
            obtain ⟨out, why⟩ := out
            obtain ⟨hhit, hkeep⟩ := QueryCache.queryCacheLookup_spec hlook
            rw [hlook] at hrun
            cases out with
            | some data =>
                cases hrun
                obtain ⟨-, stmt', hparse', hsel', hanswer⟩ := h.cache _ _ _ (hhit data rfl)
                have heq : stmt' = stmt := by
                  unfold parseSql at hparse'
                  rw [hparse] at hparse'
                  split at hparse'
                  · cases hparse'
                  · cases hparse'
                    rfl
                subst heq
                have hdata := hanswer tab htab hverId
                rw [TabVer.answer_select hsel d.ver] at hdata
                split at hdata
                · rename_i hok
                  cases hdata
                  rw [Ideal.exec_select hparse' hsel htab]
                  refine ⟨d, ?_, h.move rfl hs (Ideal.Newer.refl d) fun _ _ _ hh =>
                    Or.inl (hkeep _ _ _ hh)⟩
                  simp only [bind, Except.bind, hok, if_true]
                  rfl
                · cases hdata
            | none =>
                have h₁ : Srv.Tracks { srv with
                    db := db', cache := cache
                    stats := { srv.stats with cacheMisses := srv.stats.cacheMisses + 1 } }
                      front d :=
                  h.move rfl hs (Ideal.Newer.refl d) fun _ _ _ hh => Or.inl (hkeep _ _ _ hh)
                obtain ⟨d', res, ok, hi, ht, rfl⟩ := h₁.execSql hle
                  (fun _ => ⟨stmt, tab, hparse, hsel, htab, hverId⟩) hrun
                rw [hi]
                exact ⟨d', rfl, ht⟩
      · rw [if_neg hpos] at hrun ⊢
        have h₁ : Srv.Tracks { srv with
            db := db'
            stats := { srv.stats with cacheMisses := srv.stats.cacheMisses + 1 } } front d :=
          h.move rfl hs (Ideal.Newer.refl d) fun _ _ _ hh => Or.inl hh
        obtain ⟨d', res, ok, hi, ht, rfl⟩ := h₁.execSql (Nat.zero_le _)
          (fun hpos => absurd hpos (Nat.lt_irrefl 0)) hrun
        rw [hi]
        exact ⟨d', rfl, ht⟩

/-! ## Statements on one snapshot -/

/-- Statements on one snapshot leave the content as it is, and where each of them had its turn,
the order does not show. -/
theorem readOn {sqls : List Bytes} {order : List Nat} {db' : Db} {out : List (DbRes × Bool)}
    (h : srv.Tracks front d) (hrun : Api.readOn srv.db sqls order = .ok (db', out)) :
    Settled srv.db db' [] d ∧
      ((∀ i < sqls.length, i ∈ order) → d.readEach sqls = .ok out) := by
  unfold Api.readOn at hrun
  obtain ⟨⟨db₁, done⟩, hjobs, hrun⟩ := bind_ok.1 hrun
  obtain ⟨db₂, hdone, hrun⟩ := bind_ok.1 hrun
  cases hrun
  obtain ⟨hb, hall⟩ := Db.readJobs_spec (Db.Begun.start h.wf h.live) hjobs
  obtain ⟨db₃, habort, hs⟩ := hb.abort
  have heq : db₁.dbDone srv.db.mv.curVer = .ok db₃ := habort
  have hsame : db₁.dbDone srv.db.mv.curVer = .ok db' := hdone
  rw [heq] at hsame
  cases hsame
  rw [h.abs] at hs hall
  refine ⟨hs, fun hcover => Ideal.readEach_of_forall (by simp) fun i r hr => ?_⟩
  rw [List.getElem?_map] at hr
  obtain ⟨j, hj, rfl⟩ := Option.map_eq_some_iff.1 hr
  obtain ⟨hlt, rfl⟩ := List.getElem?_eq_some_iff.1 hj
  rw [List.length_range] at hlt
  rw [List.getElem_range]
  obtain ⟨r, hlook, hread⟩ := hall i (hcover i hlt)
  unfold resultOf
  rw [hlook]
  exact hread

/-- The pool shows only where it refuses a job. -/
theorem readParallel {sqls : List Bytes} {workers : Nat} {phase : Phase} {db' : Db}
    {out? : Option (List (DbRes × Bool))} (h : srv.Tracks front d) (hw : 0 < workers)
    (hrun : Api.readParallel srv.db sqls workers phase = .ok (db', out?)) :
    Settled srv.db db' [] d ∧
      ((phase.refuses sqls.length = true ∧ out? = none) ∨
        (phase.refuses sqls.length = false ∧
          ∃ out, out? = some out ∧ d.readEach sqls = .ok out)) := by
  unfold Api.readParallel at hrun
  obtain ⟨⟨db₁, out⟩, hread, hrun⟩ := bind_ok.1 hrun
  cases hrun
  obtain ⟨hs, hout⟩ := h.readOn hread
  refine ⟨hs, ?_⟩
  cases hrefuse : phase.refuses sqls.length with
  | true => exact Or.inl ⟨rfl, rfl⟩
  | false => exact Or.inr ⟨rfl, out, rfl, hout fun i hi => mem_jobOrder hw hrefuse hi⟩

end Srv.Tracks

end Api

theorem Ideal.readNow_total (d : Ideal) (sql : Bytes) : ∃ r, d.readNow sql = .ok r := by
  unfold readNow read
  split
  · exact ⟨_, rfl⟩
  · rename_i stmt _
    by_cases hsel : stmt.type = .select
    · simp only [hsel, ne_eq, not_true_eq_false, if_false]
      split
      · exact ⟨_, rfl⟩
      · rw [TabVer.runOn_select hsel]
        exact ⟨_, rfl⟩
    · rw [if_pos hsel]
      exact ⟨_, rfl⟩

theorem Ideal.readEach_total (d : Ideal) : ∀ sqls : List Bytes, ∃ out, d.readEach sqls = .ok out
  | [] => ⟨[], rfl⟩
  | sql :: sqls => by
      obtain ⟨r, hr⟩ := d.readNow_total sql
      obtain ⟨out, hout⟩ := d.readEach_total sqls
      rw [readEach, hr, hout]
      exact ⟨_, rfl⟩

namespace Api

open Db (Settled)

variable {d : Ideal} {srv : Srv} {front : Front} {reqId : Bytes} {env : Env} {req : Http.HttpReq}

/-! ## Handlers -/

/-- Where the server answers, the abstract server gives the same answer, and the server tracks
what it leaves. -/
def Agrees (front : Front) (r : Except Fault (Handled Srv)) (r' : Except Fault (Handled Ideal)) :
    Prop :=
  ∀ srv' answer, r = .ok (srv', answer) → ∃ d', r' = .ok (d', answer) ∧ srv'.Tracks front d'

theorem Srv.Tracks.stays (h : srv.Tracks front d) (answer : Option HttpRes) :
    Agrees front (.ok (srv, answer)) (.ok (d, answer)) := by
  intro srv' answer' heq
  cases heq
  exact ⟨d, rfl, h⟩

theorem Srv.Tracks.serveBatch (h : srv.Tracks front d) (sqls : List Bytes) (tx : Bool) :
    Agrees front (Api.serveBatch srv reqId env sqls tx) (d.serveBatch reqId env sqls tx) := by
  intro srv' answer hrun
  unfold Api.serveBatch at hrun
  unfold Ideal.serveBatch
  by_cases hpool : goesToPool sqls tx = true
  · rw [if_pos hpool] at hrun ⊢
    have hlong : 0 < sqls.length := by
      simp only [goesToPool, Bool.and_eq_true, decide_eq_true_eq] at hpool
      omega
    obtain ⟨⟨db', out?⟩, hread, hrun⟩ := bind_ok.1 hrun
    obtain ⟨hs, ⟨hrefuse, rfl⟩ | ⟨hrefuse, out, rfl, hout⟩⟩ := h.readParallel hlong hread
    · cases hrun
      obtain ⟨out, hout⟩ := d.readEach_total sqls
      refine ⟨d, ?_, h.move rfl hs (Ideal.Newer.refl d) fun _ _ _ hh => Or.inl hh⟩
      simp only [bind, Except.bind, hout, hrefuse, if_true]
      rfl
    · cases hrun
      refine ⟨d, ?_, h.move rfl hs (Ideal.Newer.refl d) fun _ _ _ hh => Or.inl hh⟩
      simp only [bind, Except.bind, hout, hrefuse, Bool.false_eq_true, if_false]
      rfl
  · rw [if_neg hpool] at hrun ⊢
    obtain ⟨⟨db', resv, ok⟩, hbatch, hrun⟩ := bind_ok.1 hrun
    cases hrun
    have hc := Db.dbBatch_spec h.wf h.live sqls tx
    rw [hbatch, h.abs] at hc
    cases hc with
    | @done _ d' _ _ hi hs =>
        rw [hi]
        exact ⟨d', rfl, h.move rfl hs (Ideal.batch_newer hi) fun _ _ _ hh => Or.inl hh⟩

theorem Srv.Tracks.servePage (h : srv.Tracks front d) (sqls : List Bytes) (mode : PageMode)
    (delayMs : Int) {workers : Nat} (hw : 0 < workers) :
    Agrees front (Api.servePage srv sqls reqId env mode delayMs workers)
      (d.servePage reqId env sqls mode delayMs workers) := by
  intro srv' answer hrun
  unfold Api.servePage at hrun
  unfold Ideal.servePage
  have hquiet : ∀ {db' : Db}, Settled srv.db db' [] d →
      Srv.Tracks { srv with db := db' } front d := fun hs =>
    h.move rfl hs (Ideal.Newer.refl d) fun _ _ _ hh => Or.inl hh
  obtain ⟨each, heach⟩ := d.readEach_total sqls
  rw [heach]
  cases mode with
  | sequential =>
      obtain ⟨⟨db', out⟩, hread, hrun⟩ := bind_ok.1 hrun
      cases hrun
      obtain ⟨hs, hout⟩ := h.readOn hread
      rw [hout fun i hi => List.mem_range.2 hi] at heach
      cases heach
      exact ⟨d, rfl, hquiet hs⟩
  | parallel =>
      obtain ⟨⟨db', out?⟩, hread, hrun⟩ := bind_ok.1 hrun
      obtain ⟨hs, ⟨hrefuse, rfl⟩ | ⟨hrefuse, out, rfl, hout⟩⟩ := h.readParallel hw hread
      · cases hrun
        exact ⟨d, by simp only [bind, Except.bind, hrefuse, if_true]; rfl, hquiet hs⟩
      · cases hrun
        rw [hout] at heach
        cases heach
        refine ⟨d, ?_, hquiet hs⟩
        simp only [bind, Except.bind, hrefuse, Bool.false_eq_true, if_false]
        rfl
  | compare =>
      obtain ⟨⟨db₁, seqOut⟩, hseq, hrun⟩ := bind_ok.1 hrun
      obtain ⟨⟨db', out?⟩, hread, hrun⟩ := bind_ok.1 hrun
      obtain ⟨hs₁, hseqOut⟩ := h.readOn hseq
      rw [hseqOut fun i hi => List.mem_range.2 hi] at heach
      cases heach
      have h₁ := hquiet hs₁
      obtain ⟨hs, hcase⟩ := h₁.readParallel hw hread
      have hs' : Settled srv.db db' [] d := hs₁.trans hs
      obtain ⟨hrefuse, rfl⟩ | ⟨hrefuse, out, rfl, hout⟩ := hcase
      · cases hrun
        exact ⟨d, by simp only [bind, Except.bind, hrefuse, if_true]; rfl, hquiet hs'⟩
      · cases hrun
        rw [hseqOut fun i hi => List.mem_range.2 hi] at hout
        cases hout
        refine ⟨d, ?_, hquiet hs'⟩
        simp only [bind, Except.bind, hrefuse, Bool.false_eq_true, if_false]
        rfl

end Api

end MiniDbms
