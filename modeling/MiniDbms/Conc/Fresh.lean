import MiniDbms.Conc.Kept
import MiniDbms.Sql.Faithful

/-!
# Cached answers

A request asks for the version of its table, looks into the cache, and only then
takes its snapshot and reads, so an entry may hold an answer from a version that is
newer than its label.  It never holds one from an older version, and a hit is the
answer of a version that was in front while the request was on its way.
-/

namespace MiniDbms

open Versions

namespace Conc

variable {m m' : Conc} {l : Label} {n sql data : Bytes} {stmt : Statement} {ver snap : Nat}

/-- The answer to `sql` on a version that was in front at some time and is not older than
the label. -/
def Dated (m : Conc) (sql : Bytes) (ver : Nat) (data : Bytes) : Prop :=
  ∃ stmt tab, parseStatement sql = some stmt ∧ tab ∈ m.past stmt.tableName.bytes ∧
    ver ≤ tab.verId ∧ tab.answer stmt = some data

/-- The label is the number of a version that was in front. -/
def Labelled (m : Conc) (stmt : Statement) (ver : Nat) : Prop :=
  0 < ver → ∃ tab ∈ m.past stmt.tableName.bytes, tab.verId = ver

/-- What a request knows where it is. -/
def Knows (m : Conc) (sql : Bytes) (stmt : Statement) : ReqPc → Prop
  | .start => True
  | .look ver => m.Labelled stmt ver
  | .snap ver => m.Labelled stmt ver
  | .read ver snap => m.Labelled stmt ver ∧ ver ≤ snap
  | .gc ver _ out => ∀ data, 0 < ver → out = some data → m.Dated sql ver data
  | .stat ver out => ∀ data, 0 < ver → out = some data → m.Dated sql ver data
  | .prune ver _ out => ∀ data, 0 < ver → out = some data → m.Dated sql ver data
  | .store ver data => m.Dated sql ver data
  | .hit _ => True
  | .done _ => True

structure Fresh (m : Conc) : Prop where
  cache : ∀ sql ver data, m.cache.Holds sql ver data → m.Dated sql ver data
  reqs : ∀ (i : Nat) sql stmt pc, m.threads[i]? = some (.req sql stmt pc) →
    (parseStatement sql = some stmt ∧ stmt.type = .select) ∧ m.Knows sql stmt pc

/-! ## One step -/

/-- The record only grows. -/
def Grows (m m' : Conc) : Prop := ∀ n, ∀ v ∈ m.past n, v ∈ m'.past n

theorem Dated.mono (h : m.Dated sql ver data) (hg : Grows m m') : m'.Dated sql ver data := by
  obtain ⟨stmt, tab, hparse, htab, hver, hdata⟩ := h
  exact ⟨stmt, tab, hparse, hg _ tab htab, hver, hdata⟩

theorem Labelled.mono (h : m.Labelled stmt ver) (hg : Grows m m') : m'.Labelled stmt ver := by
  intro hpos
  obtain ⟨tab, htab, hver⟩ := h hpos
  exact ⟨tab, hg _ tab htab, hver⟩

theorem Knows.mono {pc : ReqPc} (h : m.Knows sql stmt pc) (hg : Grows m m') :
    m'.Knows sql stmt pc := by
  cases pc with
  | start => trivial
  | look ver => exact Labelled.mono h hg
  | snap ver => exact Labelled.mono h hg
  | read ver snap => exact ⟨Labelled.mono h.1 hg, h.2⟩
  | gc ver snap out => exact fun data hpos hout => (h data hpos hout).mono hg
  | stat ver out => exact fun data hpos hout => (h data hpos hout).mono hg
  | prune ver keep out => exact fun data hpos hout => (h data hpos hout).mono hg
  | store ver data => exact Dated.mono h hg
  | hit data => trivial
  | done out => trivial

theorem record_verId (past : List TabVer) (o : Option TabVer) :
    record TabVer.verId past o = past ∨ ∃ v, o = some v ∧ record TabVer.verId past o = v :: past :=
  record_cases past o

theorem Stepped.grows (h : Stepped m l m') : Grows m m' := fun n v hv => by
  rw [h.past]
  rcases record_verId (m.past n) (m'.db.vers n).head? with heq | ⟨w, -, heq⟩
  · rw [heq]
    exact hv
  · rw [heq]
    exact List.mem_cons_of_mem _ hv

theorem TxStep.req {i j : Nat} {t : TxThread} {pc : ReqPc} (hs : TxStep m i t m')
    (hj : m'.threads[j]? = some (.req sql stmt pc)) : m.threads[j]? = some (.req sql stmt pc) := by
  have hset : ∀ (m₁ : Conc) (x : TxThread), m₁.threads = m.threads →
      (m₁.set i (.tx x)).threads[j]? = some (.req sql stmt pc) →
      m.threads[j]? = some (.req sql stmt pc) := by
    intro m₁ x hthreads h
    unfold set at h
    dsimp only at h
    rw [List.getElem?_set] at h
    split at h
    · split at h <;> cases h
    · rwa [hthreads] at h
  cases hs with
  | look hpc hjob howner hrun => exact hj
  | _ => exact hset _ _ rfl hj

theorem TxStep.cache {i : Nat} {t : TxThread} (hs : TxStep m i t m') : m'.cache = m.cache := by
  cases hs <;> rfl

/-- Where a request that is in the machine after a step comes from. -/
inductive Comes (m m' : Conc) (l : Label) (j : Nat) (sql : Bytes) (stmt : Statement) : ReqPc → Prop
  | still {pc : ReqPc} (ht : m.threads[j]? = some (.req sql stmt pc)) : Comes m m' l j sql stmt pc
  | new (hparse : parseStatement sql = some stmt) (hsel : stmt.type = .select) :
      Comes m m' l j sql stmt .start
  | moved {pc pc' : ReqPc} (hl : l = .move j) (ht : m.threads[j]? = some (.req sql stmt pc))
      (h : ReqStep m j sql stmt pc m') : Comes m m' l j sql stmt pc'

theorem set_self {i : Nat} {t t' : Thread} {m₁ : Conc} (ht : m.threads[i]? = some t)
    (hthreads : m₁.threads = m.threads) : (m₁.set i t').threads[i]? = some t' := by
  obtain ⟨hlt, -⟩ := List.getElem?_eq_some_iff.1 ht
  unfold set
  rw [← hthreads] at hlt
  rw [List.getElem?_set_self hlt]

theorem req_self {i : Nat} {t : Thread} {pc pc' : ReqPc} {m₁ : Conc}
    (ht : m.threads[i]? = some t) (hthreads : m₁.threads = m.threads)
    (hj : (m₁.set i (.req sql stmt pc)).threads[i]? = some (.req sql stmt pc')) : pc' = pc := by
  rw [set_self ht hthreads] at hj
  cases hj
  rfl

theorem Turn.comes (ht : Turn m l m') {j : Nat} {pc : ReqPc}
    (hj : m'.threads[j]? = some (.req sql stmt pc)) : Comes m m' l j sql stmt pc := by
  have hadd : ∀ x : Thread, (m.threads ++ [x])[j]? = some (.req sql stmt pc) →
      m.threads[j]? = some (.req sql stmt pc) ∨ x = .req sql stmt pc := by
    intro x h
    rcases Nat.lt_or_ge j m.threads.length with hlt | hge
    · rw [List.getElem?_append_left hlt] at h
      exact Or.inl h
    · rw [List.getElem?_append_right hge] at h
      exact Or.inr (List.mem_singleton.1 (List.mem_of_getElem? h)).symm
  cases ht with
  | idle => exact .still hj
  | tick ns => exact .still hj
  | spawn hjob =>
      rcases hadd _ hj with hold | hnew
      · exact .still hold
      · cases hnew
  | @request text stmt' hparse hsel =>
      rcases hadd _ hj with hold | hnew
      · exact .still hold
      · cases hnew
        refine .new ?_ hsel
        rw [← hparse]
        unfold parseStatement
        rw [Sql.cstr_cstr]
  | tx ht hl hstep => exact .still (hstep.req hj)
  | @req i sql' stmt' pc' _ ht hstep =>
      obtain ⟨pc₁, hthreads⟩ := hstep.threads
      rw [hthreads, List.getElem?_set] at hj
      split at hj
      · rename_i hij
        subst hij
        split at hj
        · cases hj
          exact .moved rfl ht hstep
        · cases hj
      · exact .still hj

/-- **What a request knows after its step.** -/
theorem ReqStep.knows {i : Nat} {pc pc' : ReqPc} {m₁ : Conc} (h : Ok m)
    (hs : ReqStep m i sql stmt pc m₁) (h' : Ok m₁.watch) (hg : Grows m m₁.watch)
    (hparse : parseStatement sql = some stmt) (hsel : stmt.type = .select)
    (hk : m.Knows sql stmt pc) (ht : m.threads[i]? = some (.req sql stmt pc))
    (hj : m₁.threads[i]? = some (.req sql stmt pc')) : m₁.watch.Knows sql stmt pc' := by
  have hwf : m.db.Wf ([] ++ worksOf m.threads) := h.inv.wf
  cases hs with
  | @start ver db' howner hrun =>
      rw [req_self ht rfl hj]
      have hlab : ∀ m₂ : Conc, m₂.db = db' → Ok m₂ → m₂.Labelled stmt ver := by
        intro m₂ hdb hok hpos
        obtain ⟨tab, hhead, hver⟩ := (Db.dbTabVer_section (p := none) hwf hrun).2.2 hpos
        refine ⟨tab, (hok.past _).first.subset ?_, hver⟩
        rw [hdb]
        exact List.mem_of_mem_head? hhead
      by_cases hpos : 0 < ver
      · rw [if_pos hpos] at h' ⊢
        exact hlab _ rfl h'
      · rw [if_neg hpos] at h' ⊢
        exact hlab _ rfl h'
  | hit hrun =>
      rw [req_self ht rfl hj]
      trivial
  | miss hrun =>
      rw [req_self ht rfl hj]
      exact Labelled.mono hk hg
  | @snap ver =>
      rw [req_self ht rfl hj]
      refine ⟨Labelled.mono hk hg, ?_⟩
      by_cases hpos : 0 < ver
      · obtain ⟨tab, htab, hver⟩ := hk hpos
        rw [← hver]
        exact ((h.past _).range tab htab).2
      · omega
  | @read ver snap db' res ok howner hrun =>
      rw [req_self ht rfl hj]
      intro data hpos hout
      cases ok with
      | false => cases hout
      | true =>
          rw [if_pos rfl, Option.some.injEq] at hout
          obtain ⟨hlab, hle⟩ := hk
          obtain ⟨stmt', tab, tab', hparse', hvis, hexec⟩ :=
            (Db.doRead_section (p := none) hwf hrun).2.2 rfl
          have heq : stmt' = stmt := by
            unfold Db.parseOk parseSql at hparse'
            rw [hparse] at hparse'
            split at hparse'
            · cases hparse'
            · cases hparse'
              rfl
          subst heq
          obtain ⟨old, hold, hver⟩ := hlab.mono hg hpos
          have hp := h'.past stmt'.tableName.bytes
          have hvis' := hp.visible_past hvis
          -- the snapshot sees the version of the label or a newer one
          obtain ⟨w, hw, hnewer⟩ := visible_newest hp.sorted hold (hver.le.trans hle)
          rw [hvis', Option.some.injEq] at hw
          subst hw
          exact ⟨stmt', tab, hparse, (visible_mem hvis').1, hver ▸ hnewer,
            hout ▸ TabVer.answer_snap hsel hexec⟩
  | gc =>
      rw [req_self ht rfl hj]
      exact fun data hpos hout => (hk data hpos hout).mono hg
  | stat =>
      rw [req_self ht rfl hj]
      exact fun data hpos hout => (hk data hpos hout).mono hg
  | stored howner hver hrun =>
      rw [req_self ht rfl hj]
      exact (hk _ hver rfl).mono hg
  | ended howner hrun =>
      rw [req_self ht rfl hj]
      trivial
  | store =>
      rw [req_self ht rfl hj]
      trivial

theorem ReqStep.cache {i : Nat} {pc : ReqPc} (h : Fresh m) (hs : ReqStep m i sql stmt pc m')
    (hk : m.Knows sql stmt pc) {key body : Bytes} {v : Nat} (hh : m'.cache.Holds key v body) :
    m.Dated key v body := by
  cases hs with
  | hit hrun => exact h.cache _ _ _ ((QueryCache.queryCacheLookup_spec hrun).2 _ _ _ hh)
  | miss hrun => exact h.cache _ _ _ ((QueryCache.queryCacheLookup_spec hrun).2 _ _ _ hh)
  | store =>
      rcases QueryCache.queryCacheStore_holds hh with ⟨rfl, rfl, rfl⟩ | hold
      · exact hk
      · exact h.cache _ _ _ hold
  | _ => exact h.cache _ _ _ hh

theorem Turn.cache (h : Fresh m) (ht : Turn m l m') {key body : Bytes} {v : Nat}
    (hh : m'.cache.Holds key v body) : m.Dated key v body := by
  cases ht with
  | tx ht hl hstep => exact h.cache _ _ _ (hstep.cache ▸ hh)
  | req ht hstep => exact hstep.cache h (h.reqs _ _ _ _ ht).2 hh
  | _ => exact h.cache _ _ _ hh

/-- **One step.** -/
theorem Fresh.step (hf : Fresh m) (h : Ok m) (hs : m.step l = .ok m') : Ok m' ∧ Fresh m' := by
  obtain ⟨h', hstep⟩ := h.step hs
  have hg := hstep.grows
  obtain ⟨m₁, hturn, rfl⟩ := hstep.turn
  refine ⟨h', fun sql ver data hh => (hturn.cache hf hh).mono hg, ?_⟩
  intro j sql stmt pc hj
  have hj₁ : m₁.threads[j]? = some (.req sql stmt pc) := hj
  cases hturn.comes hj₁ with
  | still ht =>
      obtain ⟨hreq, hk⟩ := hf.reqs _ _ _ _ ht
      exact ⟨hreq, hk.mono hg⟩
  | new hparse hsel => exact ⟨⟨hparse, hsel⟩, trivial⟩
  | moved hl ht hreq =>
      obtain ⟨⟨hparse, hsel⟩, hk⟩ := hf.reqs _ _ _ _ ht
      exact ⟨⟨hparse, hsel⟩, hreq.knows h h' hg hparse hsel hk ht hj₁⟩

/-! ## A whole run -/

theorem fresh_of_run {files : Bytes → Option Bytes} {maxSql maxQry : Int} {ttlNs : Nat}
    {ls : List Label} (hrun : Run.exec step (init files maxSql maxQry ttlNs) ls = .ok m) :
    Ok m ∧ Fresh m := by
  refine Run.kept (I := fun m => Ok m ∧ Fresh m) (fun h hs => h.2.step h.1 hs)
    ⟨init_ok files maxSql maxQry ttlNs, fun _ _ _ hh => ?_, by simp [init]⟩ hrun
  obtain ⟨i, huse, -⟩ := hh
  cases huse

theorem ReqStep.of_hit {i : Nat} {pc : ReqPc} (hs : ReqStep m i sql stmt pc m')
    (ht : m.threads[i]? = some (.req sql stmt pc))
    (hj : m'.threads[i]? = some (.req sql stmt (.hit data))) :
    ∃ ver, pc = .look ver ∧ m.cache.Holds sql ver data := by
  cases hs with
  | @hit ver cache data' reason hrun =>
      cases req_self ht rfl hj
      exact ⟨ver, rfl, (QueryCache.queryCacheLookup_spec hrun).1 _ rfl⟩
  | start howner hrun =>
      have hpc := req_self ht rfl hj
      split at hpc <;> cases hpc
  | _ => cases req_self ht rfl hj

/-- A request looks into the cache under the number of the version it found in front. -/
theorem ReqStep.of_look {i : Nat} {pc : ReqPc} (h : Ok m) (hs : ReqStep m i sql stmt pc m')
    (ht : m.threads[i]? = some (.req sql stmt pc))
    (hj : m'.threads[i]? = some (.req sql stmt (.look ver))) :
    pc = .start ∧ ∃ tab, (m'.db.vers stmt.tableName.bytes).head? = some tab ∧ tab.verId = ver := by
  have hwf : m.db.Wf ([] ++ worksOf m.threads) := h.inv.wf
  cases hs with
  | @start ver' db' howner hrun =>
      have hpc := req_self ht rfl hj
      split at hpc
      · rename_i hpos
        cases hpc
        exact ⟨rfl, (Db.dbTabVer_section (p := none) hwf hrun).2.2 hpos⟩
      · cases hpc
  | _ => cases req_self ht rfl hj

theorem Stepped.head_of_new {tab : TabVer} (h : Stepped m l m') (hold : tab ∉ m.past n)
    (hnew : tab ∈ m'.past n) : (m'.db.vers n).head? = some tab := by
  rw [h.past] at hnew
  rcases record_verId (m.past n) (m'.db.vers n).head? with heq | ⟨w, hw, heq⟩
  · rw [heq] at hnew
    exact absurd hnew hold
  · rw [heq] at hnew
    rcases List.mem_cons.1 hnew with rfl | hnew
    · exact hw
    · exact absurd hnew hold

/-- A version on record at the end that is not older than the one in front at the start was in
front at some moment of the run. -/
theorem exists_head {ls : List Label} {head tab : TabVer} (h : Ok m)
    (hhead : (m.db.vers n).head? = some head) (hrun : Run.exec step m ls = .ok m')
    (htab : tab ∈ m'.past n) (hver : head.verId ≤ tab.verId) :
    ∃ as bs mid, ls = as ++ bs ∧ Run.exec step m as = .ok mid ∧ Run.exec step mid bs = .ok m' ∧
      mid.db.headOf n = some tab := by
  by_cases hin : tab ∈ m.past n
  · refine ⟨[], ls, m, rfl, rfl, hrun, ?_⟩
    obtain ⟨rest, hl⟩ := List.head?_eq_some_iff.1 hhead
    have hp := h.past n
    have hmem : head ∈ m.past n := hp.first.subset (hl ▸ List.mem_cons_self)
    have hle : tab.verId ≤ head.verId := (hl ▸ hp).le_head hin
    rw [headOf_eq h.inv.wf, hhead, hp.sorted.eq_of_ver hmem hin (Nat.le_antisymm hver hle)]
  · obtain ⟨as, l, bs, sa, sb, rfl, ha, hl, hb, hna, hnb⟩ :=
      Run.moment (P := fun m₁ : Conc => tab ∈ m₁.past n) hrun hin htab
    obtain ⟨hok, hstep⟩ := (h.run ha).step hl
    refine ⟨as ++ [l], bs, sb, by simp, ?_, hb, ?_⟩
    · exact Run.exec_append.2 ⟨sa, ha, Run.exec_cons.2 ⟨sb, hl, rfl⟩⟩
    · rw [headOf_eq hok.inv.wf]
      exact hstep.head_of_new hna hnb

/-- In the run, request `i` asked for the version of its table, later found `data` in the
cache, and in between a version was in front whose answer this is. -/
inductive Answered (s : Conc) (i : Nat) (sql : Bytes) (stmt : Statement) (data : Bytes) :
    List Label → Prop
  | intro {as bs cs ds : List Label} {m₀ m₁ mid m₂ m₃ : Conc} {ver : Nat} {tab : TabVer}
      (start : Run.exec step s as = .ok m₀) (asks : m₀.threads[i]? = some (.req sql stmt .start))
      (ask : m₀.step (.move i) = .ok m₁)
      (looks : m₁.threads[i]? = some (.req sql stmt (.look ver)))
      (first : Run.exec step m₁ bs = .ok mid)
      (head : mid.db.headOf stmt.tableName.bytes = some tab) (answer : tab.answer stmt = some data)
      (second : Run.exec step mid cs = .ok m₂)
      (found : m₂.threads[i]? = some (.req sql stmt (.look ver)))
      (look : m₂.step (.move i) = .ok m₃)
      (hit : m₃.threads[i]? = some (.req sql stmt (.hit data))) :
      Answered s i sql stmt data (as ++ .move i :: (bs ++ cs) ++ .move i :: ds)

/-- **Cached reads are never stale**: every entry holds the answer of a version that is not
older than its label, and every request that was answered from the cache got the answer of a
version that was in front between its first step and its lookup. -/
theorem cached_reads_fresh (files : Bytes → Option Bytes) (maxSql maxQry : Int) (ttlNs : Nat)
    (ls : List Label) (m : Conc)
    (hrun : Run.exec step (init files maxSql maxQry ttlNs) ls = .ok m) :
    (∀ sql ver data, m.cache.Holds sql ver data → m.Dated sql ver data) ∧
    ∀ (i : Nat) sql stmt data, m.threads[i]? = some (.req sql stmt (.hit data)) →
      Answered (init files maxSql maxQry ttlNs) i sql stmt data ls := by
  refine ⟨(fresh_of_run hrun).2.cache, fun i sql stmt data hhit => ?_⟩
  -- the lookup
  obtain ⟨as, l, ds, m₂, m₃, rfl, ha, hl, -, hno, hyes⟩ :=
    Run.moment (P := fun m₁ : Conc => m₁.threads[i]? = some (.req sql stmt (.hit data))) hrun
      (by simp [init]) hhit
  obtain ⟨hok₂, hfresh⟩ := fresh_of_run ha
  obtain ⟨n₃, hturn, rfl⟩ := step_cases hl
  cases hturn.comes (show n₃.threads[i]? = _ from hyes) with
  | still ht => exact absurd ht hno
  | moved heq ht hreq =>
      subst heq
      obtain ⟨ver, rfl, hh⟩ := hreq.of_hit ht hyes
      -- the step that asked for the version
      obtain ⟨as₀, l₀, bs₀, m₀, m₁, rfl, ha₀, hl₀, hbs, hno₀, hlook⟩ :=
        Run.moment (P := fun m₁ : Conc => m₁.threads[i]? = some (.req sql stmt (.look ver))) ha
          (by simp [init]) ht
      obtain ⟨hok₀, -⟩ := fresh_of_run ha₀
      obtain ⟨hok₁, -⟩ := hok₀.step hl₀
      obtain ⟨n₁, hturn₀, rfl⟩ := step_cases hl₀
      cases hturn₀.comes (show n₁.threads[i]? = _ from hlook) with
      | still ht₀ => exact absurd ht₀ hno₀
      | moved heq₀ ht₀ hreq₀ =>
          subst heq₀
          obtain ⟨rfl, head, hhead, hver⟩ := hreq₀.of_look hok₀ ht₀ hlook
          obtain ⟨stmt', tab, hparse, htab, hle, hanswer⟩ := hfresh.cache _ _ _ hh
          have hparse' := (hfresh.reqs _ _ _ _ ht).1.1
          rw [hparse', Option.some.injEq] at hparse
          subst hparse
          obtain ⟨bs, cs, mid, rfl, hbs₁, hbs₂, hhead'⟩ :=
            exists_head hok₁ hhead hbs htab (hver.le.trans hle)
          exact .intro ha₀ ht₀ hl₀ hlook hbs₁ hhead' hanswer hbs₂ ht hl hyes

/-- One table. -/
def oneFile : Bytes → Option Bytes := fun n =>
  if n = str "t" then some (str "id(PK),v\n1,a\n") else none

/-- Two requests ask for the version, an INSERT commits, the first request reads and stores the
new rows under the old number, and the second one finds them. -/
def overtaken : List Label :=
  [.sql (str "SELECT * FROM t"), .move 0, .move 0, .sql (str "SELECT * FROM t"), .move 1,
    .exec (str "INSERT INTO t VALUES (2,b)")] ++ List.replicate 5 (.move 2) ++
    List.replicate 6 (.move 0) ++ [.move 1]

/-- What a request was answered from the cache. -/
def hitOf (m : Conc) (i : Nat) : Option (Bytes × Statement × Bytes) :=
  match m.threads[i]? with
  | some (.req sql stmt (.hit data)) => some (sql, stmt, data)
  | _ => none

theorem threads_of_hitOf {i : Nat} (h : m.hitOf i = some (sql, stmt, data)) :
    m.threads[i]? = some (.req sql stmt (.hit data)) := by
  unfold hitOf at h
  split at h
  · rename_i heq
    cases h
    exact heq
  · cases h

theorem cached_reads_fresh_overtaken : ∃ m sql stmt data,
    Run.exec step (init oneFile 0 8 5) overtaken = .ok m ∧
      m.threads[1]? = some (.req sql stmt (.hit data)) ∧
      (∀ sql ver data, m.cache.Holds sql ver data → m.Dated sql ver data) ∧
      Answered (init oneFile 0 8 5) 1 sql stmt data overtaken := by
  obtain ⟨m, hrun, htest⟩ := Run.exists_of_reaches
    (show Run.reaches step (init oneFile 0 8 5) overtaken (fun m => (m.hitOf 1).isSome) = true by
      decide +kernel)
  obtain ⟨⟨sql, stmt, data⟩, hhit⟩ := Option.isSome_iff_exists.1 htest
  obtain ⟨hentries, hanswered⟩ := cached_reads_fresh oneFile 0 8 5 overtaken m hrun
  exact ⟨m, sql, stmt, data, hrun, threads_of_hitOf hhit, hentries,
    hanswered 1 sql stmt data (threads_of_hitOf hhit)⟩

end Conc

end MiniDbms
