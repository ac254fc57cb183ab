import MiniDbms.Conc.Sections

/-!
# The steps of the machine

What a step can do, once and for all: which thread moves, what it found in the
store and what it leaves there.
-/

namespace MiniDbms

namespace Conc

/-- The call that `tx_view` and the statement belong to, and the thread it leaves. -/
inductive Asks (db : Db) (t : TxThread) (stmt : Statement) : TxThread → Prop
  | client (hjob : t.job = .client) : Asks db t stmt t
  | exec {res : DbRes} {left : Nat} (hjob : t.job = .exec stmt res left) : Asks db t stmt t
  | batch {sqls todo : List Bytes} {sql : Bytes} (hjob : t.job = .batch sqls (sql :: todo))
      (hparse : db.parseOk sql = .ok stmt) : Asks db t stmt { t with job := .batch sqls todo }

/-- A thread that may call `db_commit`. -/
def MayCommit (t : TxThread) : Prop :=
  t.pc = .commit ∨ t.pc = .ready ∧ (t.job = .client ∨ ∃ sqls, t.job = .batch sqls [])

/-- A thread that may call `db_abort`. -/
def MayAbort (t : TxThread) : Prop := t.pc = .abort ∨ t.pc = .ready ∧ t.job = .client

/-- The steps of a transaction. -/
inductive TxStep (m : Conc) (i : Nat) (t : TxThread) : Conc → Prop
  | view {stmt : Statement} {item? : Option Nat} {db' : Db} {tx' : DbTx} {t₀ : TxThread}
      (hpc : t.pc = .ready) (hask : Asks m.db t stmt t₀) (howner : m.owner = none)
      (hrun : m.db.txView t.tx stmt.tableName.bytes = .ok (item?, db', tx')) :
      TxStep m i t ({ m with db := db' }.set i (.tx { t₀ with tx := tx', pc := .run item? stmt }))
  | unparsed {sqls todo : List Bytes} {sql : Bytes} (hpc : t.pc = .ready)
      (hjob : t.job = .batch sqls (sql :: todo)) :
      TxStep m i t (m.set i (.tx { t with pc := .abort }))
  | look {sql : Bytes} {db' : Db} {res : DbRes} {ok : Bool} (hpc : t.pc = .ready)
      (hjob : t.job = .client) (howner : m.owner = none)
      (hrun : m.db.doRead t.tx.snapId sql = .ok (db', res, ok)) :
      TxStep m i t { m with db := db' }
  | run {item? : Option Nat} {stmt : Statement} {db' : Db} {tx' : DbTx} {res : DbRes} {ok : Bool}
      (hpc : t.pc = .run item? stmt)
      (hrun : (∃ stmt' res₀ left, t.job = .exec stmt' res₀ left ∧
          m.db.execRun t.tx item? stmt res₀ = .ok (db', tx', res, ok)) ∨
        (t.job = .client ∨ ∃ sqls todo, t.job = .batch sqls todo) ∧
          m.db.txRun t.tx item? stmt = .ok (db', tx', res, ok)) :
      TxStep m i t ({ m with db := db' }.set i (.tx (ran { t with
        tx := tx'
        log := if stmt.isWr then t.log ++ [stmt] else t.log } res ok)))
  | commit (hmay : MayCommit t) (howner : m.owner = none)
      (hrun : m.db.commitCheck t.tx.tabs = .ok true) :
      TxStep m i t ({ m with
        db := { m.db with mv := m.db.mv.mvBump }
        owner := some i }.set i (.tx { t with pc := .install m.db.mv.mvBump.curVer 0 }))
  | conflict (hmay : MayCommit t) (howner : m.owner = none)
      (hrun : m.db.commitCheck t.tx.tabs = .ok false) :
      TxStep m i t (m.set i (.tx (refused t)))
  | skip {ver k : Nat} {it : TxTab} (hpc : t.pc = .install ver k) (hk : t.tx.tabs[k]? = some it)
      (hd : it.dirty = false) :
      TxStep m i t (m.set i (.tx { t with pc := .install ver (k + 1) }))
  | install {ver k : Nat} {it it' : TxTab} {db' : Db} {saved : Bool}
      (hpc : t.pc = .install ver k) (hk : t.tx.tabs[k]? = some it) (hd : it.dirty = true)
      (hrun : m.db.commitInstall it ver .ok = .ok (db', it', saved)) :
      TxStep m i t ({ m with db := db' }.set i (.tx { t with
        tx := { t.tx with tabs := t.tx.tabs.set k it' }
        pc := .install ver (k + 1) }))
  | finish {ver k : Nat} (hpc : t.pc = .install ver k) (hk : t.tx.tabs[k]? = none) :
      TxStep m i t ({ m with
        owner := none
        hist := m.hist ++ [(⟨i, ver, t.log, written m.db t.tx⟩ : Commit)] }.set i
          (.tx { t with pc := .gc true }))
  | abort {heap : Heap TabVer} (hmay : MayAbort t)
      (hrun : Db.freeAll m.db.heap t.tx.works = .ok heap) :
      TxStep m i t ({ m with db := { m.db with heap := heap } }.set i
        (.tx { t with tx := { t.tx with tabs := [] }, pc := .gc false }))
  | gc {ok : Bool} (hpc : t.pc = .gc ok) :
      TxStep m i t (m.gc i t.tx.snapId (.tx { t with pc := .stat ok }))
  | stat {ok : Bool} (hpc : t.pc = .stat ok) :
      TxStep m i t (m.set i (.tx { t with pc := .prune m.db.gcKeepId ok }))
  | prune {keep : Nat} {ok : Bool} {db' : Db} (hpc : t.pc = .prune keep ok)
      (howner : m.owner = none) (hrun : m.db.gcPrune keep = .ok db') :
      TxStep m i t ({ m with db := db' }.set i (.tx { t with pc := .over ok }))
  | retry {stmt : Statement} {res : DbRes} {left : Nat} (hpc : t.pc = .over false)
      (hjob : t.job = .exec stmt res (left + 1)) (herr : res.err = none) :
      TxStep m i t ({ m with db := { m.db with mv := m.db.mv.mvSnap } }.set i
        (m.fresh (.exec stmt res left)))

/-- The steps of a request. -/
inductive ReqStep (m : Conc) (i : Nat) (sql : Bytes) (stmt : Statement) : ReqPc → Conc → Prop
  | start {ver : Nat} {db' : Db} (howner : m.owner = none)
      (hrun : m.db.dbTabVer stmt.tableName.bytes = .ok (ver, db')) :
      ReqStep m i sql stmt .start ({ m with db := db' }.set i
        (.req sql stmt (if 0 < ver then .look ver else .snap ver)))
  | hit {ver : Nat} {cache : QueryCache} {data : Bytes} {reason : QueryCacheMissReason}
      (hrun : m.cache.queryCacheLookup sql ver m.clock = (cache, some data, reason)) :
      ReqStep m i sql stmt (.look ver) ({ m with cache := cache }.set i (.req sql stmt (.hit data)))
  | miss {ver : Nat} {cache : QueryCache} {reason : QueryCacheMissReason}
      (hrun : m.cache.queryCacheLookup sql ver m.clock = (cache, none, reason)) :
      ReqStep m i sql stmt (.look ver) ({ m with cache := cache }.set i (.req sql stmt (.snap ver)))
  | snap {ver : Nat} :
      ReqStep m i sql stmt (.snap ver) ({ m with db := { m.db with mv := m.db.mv.mvSnap } }.set i
        (.req sql stmt (.read ver m.db.mv.snapId)))
  | read {ver snap : Nat} {db' : Db} {res : DbRes} {ok : Bool} (howner : m.owner = none)
      (hrun : m.db.doRead snap sql = .ok (db', res, ok)) :
      ReqStep m i sql stmt (.read ver snap) ({ m with db := db' }.set i
        (.req sql stmt (.gc ver snap (if ok then some (sqlData res) else none))))
  | gc {ver snap : Nat} {out : Option Bytes} :
      ReqStep m i sql stmt (.gc ver snap out) (m.gc i snap (.req sql stmt (.stat ver out)))
  | stat {ver : Nat} {out : Option Bytes} :
      ReqStep m i sql stmt (.stat ver out) (m.set i (.req sql stmt (.prune ver m.db.gcKeepId out)))
  | stored {ver keep : Nat} {data : Bytes} {db' : Db} (howner : m.owner = none) (hver : 0 < ver)
      (hrun : m.db.gcPrune keep = .ok db') :
      ReqStep m i sql stmt (.prune ver keep (some data))
        ({ m with db := db' }.set i (.req sql stmt (.store ver data)))
  | ended {ver keep : Nat} {out : Option Bytes} {db' : Db} (howner : m.owner = none)
      (hrun : m.db.gcPrune keep = .ok db') :
      ReqStep m i sql stmt (.prune ver keep out) ({ m with db := db' }.set i
        (.req sql stmt (.done out)))
  | store {ver : Nat} {data : Bytes} :
      ReqStep m i sql stmt (.store ver data)
        ({ m with cache := m.cache.queryCacheStore sql ver data m.clock }.set i
          (.req sql stmt (.done (some data))))

/-- The steps of the machine, before the heads go on record. -/
inductive Turn (m : Conc) : Label → Conc → Prop
  | idle (l : Label) : Turn m l m
  | tick (ns : Nat) : Turn m (.tick ns) { m with clock := m.clock + ns }
  | spawn {l : Label} {job : Job} (hjob : job = .client ∨
      (∃ stmt, stmt.isWr = true ∧ job = .exec stmt {} (Db.writeAttempts - 1)) ∨
        ∃ sqls, job = .batch sqls sqls) : Turn m l (m.spawn job)
  | request {text : Bytes} {stmt : Statement} (hparse : parseStatement text = some stmt)
      (hsel : stmt.type = .select) : Turn m (.sql text)
        { m with threads := m.threads ++ [.req (cstr text) stmt .start] }
  | tx {l : Label} {i : Nat} {t : TxThread} {m' : Conc} (ht : m.threads[i]? = some (.tx t))
      (hl : l = .move i ∨ (∃ a, l = .call i a) ∧ t.pc = .ready) (h : TxStep m i t m') :
      Turn m l m'
  | req {i : Nat} {sql : Bytes} {stmt : Statement} {pc : ReqPc} {m' : Conc}
      (ht : m.threads[i]? = some (.req sql stmt pc)) (h : ReqStep m i sql stmt pc m') :
      Turn m (.move i) m'

variable {m m' : Conc} {i : Nat} {t : TxThread}

theorem ReqStep.threads {sql : Bytes} {stmt : Statement} {pc : ReqPc}
    (hs : ReqStep m i sql stmt pc m') :
    ∃ pc', m'.threads = m.threads.set i (.req sql stmt pc') := by
  cases hs <;> exact ⟨_, rfl⟩

theorem view_cases {t₀ : TxThread} {stmt : Statement} (hpc : t.pc = .ready)
    (hask : Asks m.db t stmt t₀) (htx : t₀.tx = t.tx) (h : m.view i t₀ stmt = .ok m') :
    m' = m ∨ TxStep m i t m' := by
  unfold view at h
  split at h
  · cases h
    exact Or.inl rfl
  · rename_i howner
    cases hrun : m.db.txView t₀.tx stmt.tableName.bytes with
    | error f =>
        simp only [bind, Except.bind, hrun] at h
        cases h
    | ok r =>
        obtain ⟨item?, db', tx'⟩ := r
        simp only [bind, Except.bind, hrun] at h
        cases h
        rw [htx] at hrun
        exact Or.inr (.view hpc hask (not_not.1 howner) hrun)

theorem commit_cases (hmay : MayCommit t) (h : m.commit i t = .ok m') :
    m' = m ∨ TxStep m i t m' := by
  unfold commit at h
  split at h
  · cases h
    exact Or.inl rfl
  · rename_i howner
    cases hrun : m.db.commitCheck t.tx.tabs with
    | error f =>
        simp only [bind, Except.bind, hrun] at h
        cases h
    | ok r =>
        simp only [bind, Except.bind, hrun] at h
        cases r with
        | true =>
            cases h
            exact Or.inr (.commit hmay (not_not.1 howner) hrun)
        | false =>
            cases h
            exact Or.inr (.conflict hmay (not_not.1 howner) hrun)

theorem abort_cases (hmay : MayAbort t) (h : m.abort i t = .ok m') : TxStep m i t m' := by
  unfold abort at h
  cases hrun : Db.freeAll m.db.heap (t.tx.tabs.filterMap fun item => item.work) with
  | error f =>
      simp only [bind, Except.bind, hrun] at h
      cases h
  | ok heap =>
      simp only [bind, Except.bind, hrun] at h
      cases h
      exact .abort hmay hrun

theorem install_cases {ver k : Nat} (hpc : t.pc = .install ver k)
    (h : m.install i t ver k = .ok m') : TxStep m i t m' := by
  unfold install at h
  cases hk : t.tx.tabs[k]? with
  | none =>
      rw [hk] at h
      cases h
      exact .finish hpc hk
  | some it =>
      rw [hk] at h
      dsimp only at h
      cases hd : it.dirty with
      | false =>
          rw [hd, if_neg Bool.false_ne_true] at h
          cases h
          exact .skip hpc hk hd
      | true =>
          rw [hd, if_pos rfl] at h
          cases hrun : m.db.commitInstall it ver .ok with
          | error f =>
              simp only [bind, Except.bind, hrun] at h
              cases h
          | ok r =>
              obtain ⟨db', it', saved⟩ := r
              simp only [bind, Except.bind, hrun] at h
              cases h
              exact .install hpc hk hd hrun

theorem run_cases {item? : Option Nat} {stmt : Statement} (hpc : t.pc = .run item? stmt)
    (h : m.run i t item? stmt = .ok m') : TxStep m i t m' := by
  unfold run at h
  cases hjob : t.job with
  | exec stmt' res₀ left =>
      rw [hjob] at h
      dsimp only at h
      cases hrun : m.db.execRun t.tx item? stmt res₀ with
      | error f =>
          simp only [bind, Except.bind, hrun] at h
          cases h
      | ok r =>
          obtain ⟨db', tx', res, ok⟩ := r
          simp only [bind, Except.bind, hrun] at h
          cases h
          rw [← hjob]
          exact .run hpc (Or.inl ⟨stmt', res₀, left, hjob, hrun⟩)
  | client =>
      rw [hjob] at h
      dsimp only at h
      cases hrun : m.db.txRun t.tx item? stmt with
      | error f =>
          simp only [bind, Except.bind, hrun] at h
          cases h
      | ok r =>
          obtain ⟨db', tx', res, ok⟩ := r
          simp only [bind, Except.bind, hrun] at h
          cases h
          rw [← hjob]
          exact .run hpc (Or.inr ⟨Or.inl hjob, hrun⟩)
  | batch sqls todo =>
      rw [hjob] at h
      dsimp only at h
      cases hrun : m.db.txRun t.tx item? stmt with
      | error f =>
          simp only [bind, Except.bind, hrun] at h
          cases h
      | ok r =>
          obtain ⟨db', tx', res, ok⟩ := r
          simp only [bind, Except.bind, hrun] at h
          cases h
          rw [← hjob]
          exact .run hpc (Or.inr ⟨Or.inr ⟨sqls, todo, hjob⟩, hrun⟩)

theorem prune_cases {keep : Nat} {t' : Thread} (h : m.prune i keep t' = .ok m') :
    m' = m ∨ ∃ db', m.owner = none ∧ m.db.gcPrune keep = .ok db' ∧
      m' = { m with db := db' }.set i t' := by
  unfold prune at h
  split at h
  · cases h
    exact Or.inl rfl
  · rename_i howner
    cases hrun : m.db.gcPrune keep with
    | error f =>
        simp only [bind, Except.bind, hrun] at h
        cases h
    | ok db' =>
        simp only [bind, Except.bind, hrun] at h
        cases h
        exact Or.inr ⟨db', not_not.1 howner, rfl, rfl⟩

theorem moveTx_cases (h : m.moveTx i t = .ok m') : m' = m ∨ TxStep m i t m' := by
  unfold moveTx at h
  cases hpc : t.pc with
  | ready =>
      rw [hpc] at h
      dsimp only at h
      unfold next at h
      cases hjob : t.job with
      | client =>
          rw [hjob] at h
          cases h
          exact Or.inl rfl
      | exec stmt res left =>
          rw [hjob] at h
          exact view_cases hpc (.exec hjob) rfl h
      | batch sqls todo =>
          rw [hjob] at h
          cases todo with
          | nil => exact commit_cases (Or.inr ⟨hpc, Or.inr ⟨sqls, hjob⟩⟩) h
          | cons sql todo =>
              dsimp only at h
              cases hp : m.db.parseOk sql with
              | error err =>
                  rw [hp] at h
                  cases h
                  rw [← hjob]
                  exact Or.inr (.unparsed hpc hjob)
              | ok stmt =>
                  rw [hp] at h
                  exact view_cases hpc (.batch hjob hp) rfl h
  | run item? stmt =>
      rw [hpc] at h
      exact Or.inr (run_cases hpc h)
  | commit =>
      rw [hpc] at h
      exact commit_cases (Or.inl hpc) h
  | abort =>
      rw [hpc] at h
      exact Or.inr (abort_cases (Or.inl hpc) h)
  | install ver k =>
      rw [hpc] at h
      exact Or.inr (install_cases hpc h)
  | gc ok =>
      rw [hpc] at h
      cases h
      exact Or.inr (.gc hpc)
  | stat ok =>
      rw [hpc] at h
      cases h
      exact Or.inr (.stat hpc)
  | prune keep ok =>
      rw [hpc] at h
      rcases prune_cases h with hm | ⟨db', howner, hrun, rfl⟩
      · exact Or.inl hm
      · exact Or.inr (.prune hpc howner hrun)
  | «over» ok =>
      rw [hpc] at h
      unfold retry at h
      cases hjob : t.job with
      | client =>
          rw [hjob] at h
          cases h
          exact Or.inl rfl
      | batch sqls todo =>
          rw [hjob] at h
          cases h
          exact Or.inl rfl
      | exec stmt res left =>
          rw [hjob] at h
          cases left with
          | zero =>
              cases h
              exact Or.inl rfl
          | succ left =>
              dsimp only at h
              split at h
              · rename_i hcond
                cases h
                obtain ⟨hok, herr⟩ := hcond
                have hok' : ok = false := by simpa using hok
                subst hok'
                exact Or.inr (.retry hpc hjob herr)
              · cases h
                exact Or.inl rfl

theorem moveReq_cases {sql : Bytes} {stmt : Statement} {pc : ReqPc}
    (h : m.moveReq i sql stmt pc = .ok m') : m' = m ∨ ReqStep m i sql stmt pc m' := by
  unfold moveReq at h
  cases pc with
  | start =>
      dsimp only at h
      split at h
      · cases h
        exact Or.inl rfl
      · rename_i howner
        cases hrun : m.db.dbTabVer stmt.tableName.bytes with
        | error f =>
            simp only [bind, Except.bind, hrun] at h
            cases h
        | ok r =>
            obtain ⟨ver, db'⟩ := r
            simp only [bind, Except.bind, hrun] at h
            cases h
            exact Or.inr (.start (not_not.1 howner) hrun)
  | look ver =>
      dsimp only at h
      split at h
      · rename_i cache data reason hrun
        cases h
        exact Or.inr (.hit hrun)
      · rename_i cache reason hrun
        cases h
        exact Or.inr (.miss hrun)
  | snap ver =>
      cases h
      exact Or.inr .snap
  | read ver snap =>
      dsimp only at h
      split at h
      · cases h
        exact Or.inl rfl
      · rename_i howner
        cases hrun : m.db.doRead snap sql with
        | error f =>
            simp only [bind, Except.bind, hrun] at h
            cases h
        | ok r =>
            obtain ⟨db', res, ok⟩ := r
            simp only [bind, Except.bind, hrun] at h
            cases h
            exact Or.inr (.read (not_not.1 howner) hrun)
  | gc ver snap out =>
      cases h
      exact Or.inr .gc
  | stat ver out =>
      cases h
      exact Or.inr .stat
  | prune ver keep out =>
      rcases prune_cases h with hm | ⟨db', howner, hrun, rfl⟩
      · exact Or.inl hm
      · cases out with
        | none => exact Or.inr (.ended howner hrun)
        | some data =>
            by_cases hver : 0 < ver
            · simp only [hver, if_true]
              exact Or.inr (.stored howner hver hrun)
            · simp only [hver, if_false]
              exact Or.inr (.ended howner hrun)
  | store ver data =>
      cases h
      exact Or.inr .store
  | hit data =>
      cases h
      exact Or.inl rfl
  | done out =>
      cases h
      exact Or.inl rfl

theorem callTx_cases {act : Act} (hpc : t.pc = .ready) (hjob : t.job = .client)
    (h : m.callTx i t act = .ok m') : m' = m ∨ TxStep m i t m' := by
  cases act with
  | txdo sql =>
      unfold callTx at h
      dsimp only at h
      cases hp : m.db.parseOk sql with
      | error err =>
          rw [hp] at h
          cases h
          exact Or.inl rfl
      | ok stmt =>
          rw [hp] at h
          exact view_cases hpc (.client hjob) rfl h
  | commit => exact commit_cases (Or.inr ⟨hpc, Or.inl hjob⟩) h
  | abort => exact Or.inr (abort_cases (Or.inr ⟨hpc, hjob⟩) h)
  | read sql =>
      unfold callTx at h
      dsimp only at h
      split at h
      · cases h
        exact Or.inl rfl
      · rename_i howner
        cases hrun : m.db.doRead t.tx.snapId sql with
        | error f =>
            simp only [bind, Except.bind, hrun] at h
            cases h
        | ok r =>
            obtain ⟨db', res, ok⟩ := r
            simp only [bind, Except.bind, hrun] at h
            cases h
            exact Or.inr (.look hpc hjob (not_not.1 howner) hrun)

/-- **What a step can do.** -/
theorem act_cases {l : Label} (h : m.act l = .ok m') : Turn m l m' := by
  cases l with
  | begin =>
      cases h
      exact .spawn (Or.inl rfl)
  | exec sql =>
      unfold act at h
      dsimp only at h
      cases hp : m.db.parseOk sql with
      | error err =>
          rw [hp] at h
          cases h
          exact .idle _
      | ok stmt =>
          rw [hp] at h
          dsimp only at h
          split at h
          · rename_i hwr
            cases h
            exact .spawn (Or.inr (Or.inl ⟨stmt, hwr, rfl⟩))
          · cases h
            exact .idle _
  | batch sqls =>
      unfold act at h
      dsimp only at h
      split at h
      · cases h
        exact .idle _
      · cases h
        exact .spawn (Or.inr (Or.inr ⟨sqls, rfl⟩))
  | sql text =>
      unfold act at h
      dsimp only at h
      cases hp : parseStatement text with
      | none =>
          rw [hp] at h
          cases h
          exact .idle _
      | some stmt =>
          rw [hp] at h
          dsimp only at h
          split at h
          · rename_i hsel
            cases h
            exact .request hp hsel.1
          · cases h
            exact .idle _
  | move i =>
      unfold act at h
      dsimp only at h
      cases ht : m.threads[i]? with
      | none =>
          rw [ht] at h
          cases h
          exact .idle _
      | some th =>
          rw [ht] at h
          cases th with
          | tx t =>
              rcases moveTx_cases h with rfl | hstep
              · exact .idle _
              · exact .tx ht (Or.inl rfl) hstep
          | req sql stmt pc =>
              rcases moveReq_cases h with rfl | hstep
              · exact .idle _
              · exact .req ht hstep
  | call i act =>
      unfold Conc.act at h
      dsimp only at h
      split at h
      · rename_i tx log ht
        rcases callTx_cases rfl rfl h with rfl | hstep
        · exact .idle _
        · exact .tx ht (Or.inr ⟨⟨act, rfl⟩, rfl⟩) hstep
      · cases h
        exact .idle _
  | tick ns =>
      cases h
      exact .tick ns

theorem step_cases {l : Label} (h : m.step l = .ok m') : ∃ m₁, Turn m l m₁ ∧ m' = m₁.watch := by
  unfold step at h
  cases ha : m.act l with
  | error f =>
      simp only [bind, Except.bind, ha] at h
      cases h
  | ok m₁ =>
      simp only [bind, Except.bind, ha] at h
      cases h
      exact ⟨m₁, act_cases ha, rfl⟩

end Conc

end MiniDbms
