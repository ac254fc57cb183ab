import MiniDbms.Conc.Serial

/-!
# Effects exactly once

A call that returns 0 has one commit on record, with its write statements and no others,
however many attempts it took.  A call that returns -1 has none.
-/

namespace MiniDbms

open Versions

namespace Conc

/-- The commit went through, and the call is about to return 0 or has done so. -/
def Succeeded : Pc → Prop
  | .gc ok => ok = true
  | .stat ok => ok = true
  | .prune _ ok => ok = true
  | .over ok => ok = true
  | _ => False

/-- The commits that thread `i` has on record. -/
def commitsOf (m : Conc) (i : Nat) : List Commit := m.hist.filter fun c => c.thread == i

/-- The write statements among some texts. -/
def writesOf (maxSql : Int) (sqls : List Bytes) : List Statement :=
  (sqls.filterMap fun sql => (parseSql maxSql sql).toOption).filter Statement.isWr

variable {m m' : Conc} {t t' : TxThread} {i : Nat} {l : Label} {db db' : Db} {tx tx' : DbTx}
  {n : Bytes} {maxSql : Int}

/-! ## The way to a commit -/

/-- The commit is still ahead. -/
def Ahead : Pc → Prop
  | .ready => True
  | .run _ _ => True
  | .commit => True
  | .install _ _ => True
  | _ => False

/-- The statements of the call so far did what they should. -/
def OnCourse : Pc → Prop
  | .ready => True
  | .commit => True
  | .install _ _ => True
  | pc => Succeeded pc

/-- How far the call is that a thread works on. -/
structure Course (maxSql : Int) (db : Db) (t : TxThread) : Prop where
  exec : ∀ stmt res left, t.job = .exec stmt res left → OnCourse t.pc → t.pc ≠ .ready →
    t.log = [stmt]
  batch : ∀ sqls todo, t.job = .batch sqls todo → ∃ done, sqls = done ++ todo ∧
    (OnCourse t.pc → t.log = writesOf maxSql done ∧ (t.pc ≠ .ready → todo = [])) ∧
    ∀ item? stmt, t.pc = .run item? stmt →
      (if stmt.isWr then t.log ++ [stmt] else t.log) = writesOf maxSql done
  reached : t.job ≠ .client → Ahead t.pc → ∀ stmt ∈ t.log, stmt.tableName.bytes ∈ written db t.tx

theorem Succeeded.onCourse {pc : Pc} (h : Succeeded pc) : OnCourse pc ∧ pc ≠ .ready := by
  cases pc with
  | gc ok => exact ⟨h, Pc.noConfusion⟩
  | stat ok => exact ⟨h, Pc.noConfusion⟩
  | prune keep ok => exact ⟨h, Pc.noConfusion⟩
  | «over» ok => exact ⟨h, Pc.noConfusion⟩
  | ready => exact h.elim
  | run item? stmt => exact h.elim
  | commit => exact h.elim
  | abort => exact h.elim
  | install ver k => exact h.elim

theorem writesOf_snoc {done : List Bytes} {sql : Bytes} {stmt : Statement}
    (h : parseSql maxSql sql = .ok stmt) : writesOf maxSql (done ++ [sql]) =
      if stmt.isWr then writesOf maxSql done ++ [stmt] else writesOf maxSql done := by
  unfold writesOf
  rw [List.filterMap_append, List.filterMap_cons_some (by rw [h]; rfl), List.filterMap_nil,
    List.filter_append]
  cases hwr : stmt.isWr with
  | true => rw [List.filter_cons_of_pos hwr, if_pos rfl, List.filter_nil]
  | false =>
      rw [List.filter_cons_of_neg (by simp [hwr]), List.filter_nil, List.append_nil,
        if_neg Bool.false_ne_true]

theorem written_mono (hnames : db.tabs.map TabEnt.name <+: db'.tabs.map TabEnt.name)
    (hitems : ∀ it ∈ tx.tabs, it.dirty = true →
      ∃ it' ∈ tx'.tabs, it'.dirty = true ∧ it'.ent = it.ent)
    (h : n ∈ written db tx) : n ∈ written db' tx' := by
  obtain ⟨it, hit, hd, hnamed⟩ := Db.mem_written.1 h
  obtain ⟨it', hit', hd', hent⟩ := hitems it hit hd
  obtain ⟨e, he, rfl⟩ := Db.named_iff.1 hnamed
  obtain ⟨e', he', hname⟩ := (Db.Stable.of_names hnames).ent he
  exact Db.mem_written.2 ⟨it', hit', hd', Db.named_iff.2 ⟨e', hent ▸ he', hname⟩⟩

theorem Course.other (h : Course maxSql db t)
    (hnames : db.tabs.map TabEnt.name <+: db'.tabs.map TabEnt.name) : Course maxSql db' t where
  exec := h.exec
  batch := h.batch
  reached := fun hjob hpc stmt hs =>
    written_mono hnames (fun it hit hd => ⟨it, hit, hd, rfl⟩) (h.reached hjob hpc stmt hs)

theorem Course.failed (h : Course maxSql db t) (hjob : t'.job = t.job) (hoff : ¬ OnCourse t'.pc)
    (hahead : ¬ Ahead t'.pc) : Course maxSql db' t' where
  exec := fun stmt res left heq hon => absurd hon hoff
  batch := fun sqls todo heq => by
    obtain ⟨done, hsplit, -, -⟩ := h.batch sqls todo (hjob ▸ heq)
    refine ⟨done, hsplit, fun hon => absurd hon hoff, fun item? stmt hr => ?_⟩
    rw [hr] at hahead
    exact absurd trivial hahead
  reached := fun _ hpc => absurd hpc hahead

theorem Course.goes (h : Course maxSql db t) (hjob : t'.job = t.job) (hlog : t'.log = t.log)
    (hon : OnCourse t'.pc → OnCourse t.pc ∧ t'.pc ≠ .ready)
    (hready : ∀ stmt res left, t.job = .exec stmt res left → t.pc ≠ .ready)
    (htodo : ∀ sqls todo, t.job = .batch sqls todo → OnCourse t.pc → todo = [])
    (hrun : ∀ item? stmt, t'.pc ≠ .run item? stmt) (hahead : Ahead t'.pc → Ahead t.pc)
    (hreach : ∀ n, n ∈ written db t.tx → n ∈ written db' t'.tx) : Course maxSql db' t' where
  exec := fun stmt res left heq hpc _ => by
    rw [hlog]
    exact h.exec stmt res left (hjob ▸ heq) (hon hpc).1 (hready stmt res left (hjob ▸ heq))
  batch := fun sqls todo heq => by
    obtain ⟨done, hsplit, hcourse, -⟩ := h.batch sqls todo (hjob ▸ heq)
    refine ⟨done, hsplit, fun hpc => ?_, fun item? stmt hr => absurd hr (hrun item? stmt)⟩
    rw [hlog]
    exact ⟨(hcourse (hon hpc).1).1, fun _ => htodo sqls todo (hjob ▸ heq) (hon hpc).1⟩
  reached := fun hclient hpc stmt hs => by
    rw [hjob] at hclient
    rw [hlog] at hs
    exact hreach _ (h.reached hclient (hahead hpc) stmt hs)

/-! ## The steps of a call -/

theorem txView_items {ws : List Nat} {item? : Option Nat} (hwf : db.Wf ws)
    (h : db.txView tx n = .ok (item?, db', tx')) : ∀ it ∈ tx.tabs, it ∈ tx'.tabs := by
  have hc := Db.txView_cases hwf tx n
  rw [h] at hc
  cases hc with
  | found => exact fun it hit => hit
  | missing => exact fun it hit => hit
  | unseen => exact fun it hit => hit
  | viewed => exact fun it hit => List.mem_append_left _ hit

theorem Course.view {ws : List Nat} {stmt : Statement} {item? : Option Nat} {t₀ : TxThread}
    (h : Course maxSql m.db t) (hmax : m.db.maxSql = maxSql) (hwf : m.db.Wf ws)
    (hpc : t.pc = .ready) (hask : Asks m.db t stmt t₀)
    (hnames : m.db.tabs.map TabEnt.name <+: db'.tabs.map TabEnt.name)
    (hrun : m.db.txView t.tx stmt.tableName.bytes = .ok (item?, db', tx')) :
    Course maxSql db' { t₀ with tx := tx', pc := .run item? stmt } := by
  have hon : OnCourse t.pc := by
    rw [hpc]
    trivial
  have hreach : t.job ≠ .client → ∀ s ∈ t.log, s.tableName.bytes ∈ written db' tx' := by
    intro hjob s hs
    refine written_mono hnames (fun it hit hd => ⟨it, txView_items hwf hrun it hit, hd, rfl⟩)
      (h.reached hjob ?_ s hs)
    rw [hpc]
    trivial
  cases hask with
  | client hjob =>
      refine ⟨fun stmt₁ res left heq => ?_, fun sqls todo heq => ?_,
        fun hclient => absurd hjob hclient⟩
      · cases hjob.symm.trans heq
      · cases hjob.symm.trans heq
  | @exec res left hjob =>
      refine ⟨fun stmt₁ res left heq hpc' => hpc'.elim, fun sqls todo heq => ?_,
        fun hclient _ => hreach hclient⟩
      cases hjob.symm.trans heq
  | @batch sqls todo sql hjob hparse =>
      refine ⟨fun stmt₁ res left heq => ?_, fun sqls₁ todo₁ heq => ?_, fun _ _ => hreach ?_⟩
      · cases heq
      · cases heq
        obtain ⟨done, hsplit, hcourse, -⟩ := h.batch sqls (sql :: todo) hjob
        refine ⟨done ++ [sql], ?_, fun hpc' => hpc'.elim, fun item₁ stmt₁ hr => ?_⟩
        · rw [hsplit, List.append_assoc]
          rfl
        · cases hr
          unfold Db.parseOk at hparse
          rw [hmax] at hparse
          rw [writesOf_snoc hparse, ← (hcourse hon).1]
      · rw [hjob]
        exact Job.noConfusion

theorem reached_run {stmt : Statement} {item? : Option Nat} {ok : Bool}
    (hcase : Db.RunCase db tx item? stmt db' tx' ok) :
    (∀ n, n ∈ written db tx → n ∈ written db' tx') ∧
      (ok = true → stmt.isWr = true → db.TxOk tx → Db.Told db tx item? stmt.tableName.bytes →
        stmt.tableName.bytes ∈ written db' tx') := by
  cases hcase with
  | read ok hrd => exact ⟨fun n hn => hn, fun _ hwr => by cases hrd.symm.trans hwr⟩
  | failed h => exact ⟨fun n hn => hn, fun hok => by cases hok⟩
  | @first i it base tab tab' _ hitem hi hw hbase hclone hrun =>
      have hself : ({ it with work := some db.heap.next, dirty := true } : TxTab) ∈
          tx.tabs.set i { it with work := some db.heap.next, dirty := true } :=
        List.mem_of_getElem? (List.getElem?_set_self (List.getElem?_eq_some_iff.1 hi).1)
      refine ⟨fun n hn => written_mono List.prefix_rfl (fun x hx hd => ?_) hn,
        fun _ _ _ htold => ?_⟩
      · rcases Db.mem_set_or (i := i) hx { it with work := some db.heap.next, dirty := true } with
          hxi | hx
        · rw [hi] at hxi
          cases hxi
          exact ⟨_, hself, rfl, rfl⟩
        · exact ⟨x, hx, hd, rfl⟩
      · obtain ⟨it₁, hi₁, hnamed⟩ := htold.some i hitem
        rw [hi] at hi₁
        cases hi₁
        exact Db.mem_written.2 ⟨_, hself, rfl, hnamed⟩
  | @again i a it tab tab' _ hitem hi hw hget hrun =>
      refine ⟨fun n hn => written_mono List.prefix_rfl (fun x hx hd => ⟨x, hx, hd, rfl⟩) hn,
        fun _ _ hok htold => ?_⟩
      obtain ⟨it₁, hi₁, hnamed⟩ := htold.some i hitem
      rw [hi] at hi₁
      cases hi₁
      have hit := List.mem_of_getElem? hi
      refine Db.mem_written.2 ⟨it, hit, ?_, hnamed⟩
      rw [hok.dirty it hit, hw, Option.isSome_some]

theorem Course.run {stmt : Statement} {item? : Option Nat} {res : DbRes} {ok : Bool}
    (h : Course maxSql m.db t) (hacc : Accounts m t) (hpc : t.pc = .run item? stmt)
    (hok : m.db.TxOk t.tx) (hcase : Db.RunCase m.db t.tx item? stmt db' tx' ok) :
    Course maxSql db' (ran { t with
      tx := tx'
      log := if stmt.isWr then t.log ++ [stmt] else t.log } res ok) := by
  obtain ⟨hkeep, hnew⟩ := reached_run hcase
  have hahead : Ahead t.pc := by
    rw [hpc]
    trivial
  have hreach : t.job ≠ .client → ok = true →
      ∀ s ∈ (if stmt.isWr then t.log ++ [stmt] else t.log),
        s.tableName.bytes ∈ written db' tx' := by
    intro hjob hsucc s hs
    split at hs
    · rename_i hwr
      rcases List.mem_append.1 hs with hs | hs
      · exact hkeep _ (h.reached hjob hahead s hs)
      · rw [List.mem_singleton.1 hs]
        exact hnew hsucc hwr hok (hacc.told item? stmt hpc)
    · exact hkeep _ (h.reached hjob hahead s hs)
  unfold ran
  cases hjob : t.job with
  | client =>
      refine ⟨fun stmt₁ res₁ left heq => ?_, fun sqls todo heq => ?_,
        fun hclient => absurd rfl hclient⟩
      · cases heq
      · cases heq
  | exec stmt₀ res₀ left₀ =>
      obtain ⟨hwr, -, hrun⟩ := hacc.exec stmt₀ res₀ left₀ hjob
      obtain ⟨rfl, hlog⟩ := hrun item? stmt hpc
      refine ⟨fun stmt₁ res₁ left heq _ _ => ?_, fun sqls todo heq => ?_, fun hclient hpc' => ?_⟩
      · cases heq
        dsimp only
        rw [if_pos hwr, hlog, List.nil_append]
      · cases heq
      · cases ok with
        | true => exact hreach (by rw [hjob]; exact Job.noConfusion) rfl
        | false => exact hpc'.elim
  | batch sqls todo =>
      obtain ⟨done, hsplit, -, hrun⟩ := h.batch sqls todo hjob
      refine ⟨fun stmt₁ res₁ left heq => ?_, fun sqls₁ todo₁ heq => ?_, fun hclient hpc' => ?_⟩
      · cases heq
      · cases heq
        refine ⟨done, hsplit, fun hon => ?_, fun item₁ stmt₁ hr => ?_⟩
        · cases ok with
          | true => exact ⟨hrun item? stmt hpc, fun hne => absurd rfl hne⟩
          | false => exact hon.elim
        · cases ok with
          | true => cases hr
          | false => cases hr
      · cases ok with
        | true => exact hreach (by rw [hjob]; exact Job.noConfusion) rfl
        | false => exact hpc'.elim

theorem Course.todo_nil (h : Course maxSql db t) (hon : OnCourse t.pc) (hne : t.pc ≠ .ready)
    (sqls todo : List Bytes) (hjob : t.job = .batch sqls todo) : todo = [] := by
  obtain ⟨done, -, hcourse, -⟩ := h.batch sqls todo hjob
  exact (hcourse hon).2 hne

theorem Course.past (h : Course maxSql db t) (hjob : t'.job = t.job) (hlog : t'.log = t.log)
    (hon : OnCourse t'.pc → OnCourse t.pc) (hne : t.pc ≠ .ready) (hne' : t'.pc ≠ .ready)
    (hrun : ∀ item? stmt, t'.pc ≠ .run item? stmt) (hahead : Ahead t'.pc → Ahead t.pc)
    (hreach : Ahead t'.pc → ∀ n, n ∈ written db t.tx → n ∈ written db' t'.tx) :
    Course maxSql db' t' := by
  by_cases hahead' : Ahead t'.pc
  · exact h.goes hjob hlog (fun hpc => ⟨hon hpc, hne'⟩) (fun _ _ _ _ => hne)
      (fun sqls todo heq hpc => h.todo_nil hpc hne sqls todo heq) hrun hahead (hreach hahead')
  · refine ⟨fun stmt res left heq hpc _ => ?_, fun sqls todo heq => ?_,
      fun _ hpc => absurd hpc hahead'⟩
    · rw [hlog]
      exact h.exec stmt res left (hjob ▸ heq) (hon hpc) hne
    · obtain ⟨done, hsplit, hcourse, -⟩ := h.batch sqls todo (hjob ▸ heq)
      refine ⟨done, hsplit, fun hpc => ?_, fun item? stmt hr => absurd hr (hrun item? stmt)⟩
      rw [hlog]
      exact ⟨(hcourse (hon hpc)).1, fun _ => (hcourse (hon hpc)).2 hne⟩

theorem MayCommit.course (hmay : MayCommit t) (h : Course maxSql db t) : OnCourse t.pc ∧
    (∀ stmt res left, t.job = .exec stmt res left → t.pc ≠ .ready) ∧
    ∀ sqls todo, t.job = .batch sqls todo → OnCourse t.pc → todo = [] := by
  rcases hmay with hpc | ⟨hpc, hjob⟩
  · have hne : t.pc ≠ .ready := by
      rw [hpc]
      exact Pc.noConfusion
    refine ⟨?_, fun _ _ _ _ => hne, fun sqls todo heq hon => h.todo_nil hon hne sqls todo heq⟩
    rw [hpc]
    trivial
  · refine ⟨?_, fun stmt res left heq => ?_, fun sqls todo heq _ => ?_⟩
    · rw [hpc]
      trivial
    · rcases hjob with hjob | ⟨sqls, hjob⟩
      · cases hjob.symm.trans heq
      · cases hjob.symm.trans heq
    · rcases hjob with hjob | ⟨sqls, hjob⟩
      · cases hjob.symm.trans heq
      · cases hjob.symm.trans heq
        rfl

/-- **A step of the thread itself.** -/
theorem TxStep.course_own (h : Inv m) (hmax : m.db.maxSql = maxSql)
    (hi : m.threads[i]? = some (.tx t)) (hs : TxStep m i t m') (hacc : Accounts m t)
    (hcourse : Course maxSql m.db t)
    (hnames : m.db.tabs.map TabEnt.name <+: m'.db.tabs.map TabEnt.name)
    (hi' : m'.threads[i]? = some (.tx t')) : Course maxSql m'.db t' := by
  obtain ⟨A, B, hm, rfl⟩ := split_thread hi
  have hwf : m.db.Wf (t.tx.works ++ worksOf (A ++ B)) := h.wf_split hm
  have hsafe : SafeAt m.db m.owner (t.tx.works ++ worksOf (A ++ B)) A.length t.tx t.pc :=
    h.safe_split hm
  cases hs with
  | view hpc hask howner hrun =>
      cases set_here hi hi'
      exact hcourse.view hmax hwf hpc hask hnames hrun
  | unparsed hpc hjob =>
      cases set_here hi hi'
      exact hcourse.failed rfl (fun hon => hon) fun ha => ha
  | @look sql db' res ok hpc hjob howner hrun =>
      have hsame : m.threads[A.length]? = some (.tx t') := hi'
      rw [hi] at hsame
      cases hsame
      exact hcourse.other hnames
  | @run item? stmt db' tx' res ok hpc hrun =>
      cases set_here hi hi'
      rw [hpc] at hsafe
      have hcase := runCase_of_run hsafe.ok hrun
      exact hcourse.run hacc hpc hsafe.ok hcase
  | commit hmay howner hrun =>
      cases set_here hi hi'
      obtain ⟨hon, hready, htodo⟩ := hmay.course hcourse
      refine hcourse.goes rfl rfl (fun _ => ⟨hon, Pc.noConfusion⟩) hready htodo
        (fun _ _ => Pc.noConfusion) (fun _ => ?_) fun n hn => hn
      rcases hmay with hpc | ⟨hpc, -⟩
      · rw [hpc]
        trivial
      · rw [hpc]
        trivial
  | conflict hmay howner hrun =>
      cases set_here hi hi'
      unfold refused
      cases hjob : t.job with
      | client =>
          refine ⟨fun stmt res left heq => ?_, fun sqls todo heq => ?_,
            fun hclient => absurd rfl hclient⟩
          · cases heq
          · cases heq
      | exec stmt res left => exact hcourse.failed hjob.symm (fun hon => hon) fun ha => ha
      | batch sqls todo => exact hcourse.failed hjob.symm (fun hon => hon) fun ha => ha
  | skip hpc hk hd =>
      cases set_here hi hi'
      exact hcourse.past rfl rfl (fun _ => by rw [hpc]; trivial) (by rw [hpc]; exact Pc.noConfusion)
        Pc.noConfusion (fun _ _ => Pc.noConfusion) (fun _ => by rw [hpc]; trivial) fun _ n hn => hn
  | @install ver k it it' db' saved hpc hk hd hrun =>
      cases set_here hi hi'
      rw [hpc] at hsafe
      obtain ⟨a, e, tab, -, -, -, rfl, rfl, -, -⟩ := hsafe.2.install (p := none) hwf hk hd hrun
      refine hcourse.past rfl rfl (fun _ => by rw [hpc]; trivial)
        (by rw [hpc]; exact Pc.noConfusion) Pc.noConfusion (fun _ _ => Pc.noConfusion)
        (fun _ => by rw [hpc]; trivial) fun _ n hn => ?_
      refine written_mono hnames (fun x hx hdx => ?_) hn
      rcases Db.mem_set_or (i := k) hx { it with work := none } with hxk | hx
      · rw [hk] at hxk
        cases hxk
        exact ⟨_, List.mem_of_getElem? (List.getElem?_set_self (List.getElem?_eq_some_iff.1 hk).1),
          hd, rfl⟩
      · exact ⟨x, hx, hdx, rfl⟩
  | finish hpc hk =>
      cases set_here hi hi'
      exact hcourse.past rfl rfl (fun _ => by rw [hpc]; trivial) (by rw [hpc]; exact Pc.noConfusion)
        Pc.noConfusion (fun _ _ => Pc.noConfusion) (fun ha => ha.elim) fun ha => ha.elim
  | abort hmay hrun =>
      cases set_here hi hi'
      exact hcourse.failed rfl (fun hon => Bool.noConfusion hon) fun ha => ha
  | gc hpc =>
      cases set_here hi hi'
      exact hcourse.past rfl rfl (fun hon => by rw [hpc]; exact hon)
        (by rw [hpc]; exact Pc.noConfusion) Pc.noConfusion (fun _ _ => Pc.noConfusion)
        (fun ha => ha.elim) fun ha => ha.elim
  | stat hpc =>
      cases set_here hi hi'
      exact hcourse.past rfl rfl (fun hon => by rw [hpc]; exact hon)
        (by rw [hpc]; exact Pc.noConfusion) Pc.noConfusion (fun _ _ => Pc.noConfusion)
        (fun ha => ha.elim) fun ha => ha.elim
  | prune hpc howner hrun =>
      cases set_here hi hi'
      exact hcourse.past rfl rfl (fun hon => by rw [hpc]; exact hon)
        (by rw [hpc]; exact Pc.noConfusion) Pc.noConfusion (fun _ _ => Pc.noConfusion)
        (fun ha => ha.elim) fun ha => ha.elim
  | retry hpc hjob herr =>
      cases set_here hi hi'
      refine ⟨fun stmt res left heq _ hne => absurd rfl hne, fun sqls todo heq => ?_,
        fun _ _ s hs => absurd hs List.not_mem_nil⟩
      cases heq

theorem TxStep.limit (h : Inv m) (hi : m.threads[i]? = some (.tx t)) (hs : TxStep m i t m') :
    m'.db.maxSql = m.db.maxSql := by
  obtain ⟨A, B, hm, rfl⟩ := split_thread hi
  have hwf : m.db.Wf (t.tx.works ++ worksOf (A ++ B)) := h.wf_split hm
  have hsafe : SafeAt m.db m.owner (t.tx.works ++ worksOf (A ++ B)) A.length t.tx t.pc :=
    h.safe_split hm
  cases hs with
  | view hpc hask howner hrun => exact (Db.txView_needs hwf hrun).maxSql
  | look hpc hjob howner hrun => exact (Db.doRead_needs hrun).maxSql
  | @run item? stmt db' tx' res ok hpc hrun =>
      rw [hpc] at hsafe
      have hcase := runCase_of_run hsafe.ok hrun
      cases hcase <;> rfl
  | install hpc hk hd hrun =>
      rw [hpc] at hsafe
      obtain ⟨a, e, tab, -, -, -, rfl, -⟩ := hsafe.2.install (p := none) hwf hk hd hrun
      rfl
  | prune hpc howner hrun => exact Db.gcPrune_maxSql hwf hrun
  | unparsed hpc hjob => rfl
  | commit hmay howner hrun => rfl
  | conflict hmay howner hrun => rfl
  | skip hpc hk hd => rfl
  | finish hpc hk => rfl
  | abort hmay hrun => rfl
  | gc hpc => rfl
  | stat hpc => rfl
  | retry hpc hjob herr => rfl

theorem ReqStep.limit {sql : Bytes} {stmt : Statement} {pc : ReqPc} (h : Inv m)
    (hs : ReqStep m i sql stmt pc m') : m'.db.maxSql = m.db.maxSql := by
  cases hs with
  | start howner hrun => exact (Db.dbTabVer_needs hrun).maxSql
  | read howner hrun => exact (Db.doRead_needs hrun).maxSql
  | stored howner hver hrun => exact Db.gcPrune_maxSql h.wf hrun
  | ended howner hrun => exact Db.gcPrune_maxSql h.wf hrun
  | hit hrun => rfl
  | miss hrun => rfl
  | snap => rfl
  | gc => rfl
  | stat => rfl
  | store => rfl

theorem Turn.limit (h : Inv m) (hmax : m.db.maxSql = maxSql) (hturn : Turn m l m') :
    m'.db.maxSql = maxSql := by
  cases hturn with
  | idle => exact hmax
  | tick ns => exact hmax
  | spawn hjob => exact hmax
  | request hparse hsel => exact hmax
  | tx hi hl hstep => exact (hstep.limit h hi).trans hmax
  | req hi hstep => exact (hstep.limit h).trans hmax

theorem Turn.course (h : Inv m) (hmax : m.db.maxSql = maxSql)
    (hacc : ∀ (j : Nat) t, m.threads[j]? = some (.tx t) → Accounts m t)
    (hcourse : ∀ (j : Nat) t, m.threads[j]? = some (.tx t) → Course maxSql m.db t)
    (hturn : Turn m l m') {j : Nat} (hj : m'.threads[j]? = some (.tx t)) :
    Course maxSql m'.db t := by
  have hnames := (hturn.next h).names
  cases hturn with
  | idle => exact hcourse j t hj
  | tick ns => exact hcourse j t hj
  | @spawn _ job hjob =>
      have hj : (m.threads ++ [m.fresh job])[j]? = some (.tx t) := hj
      rcases Nat.lt_or_ge j m.threads.length with hlt | hge
      · rw [List.getElem?_append_left hlt] at hj
        exact (hcourse j t hj).other hnames
      · rw [List.getElem?_append_right hge] at hj
        cases List.mem_singleton.1 (List.mem_of_getElem? hj)
        refine ⟨fun stmt res left heq _ hne => absurd rfl hne, fun sqls todo heq => ?_,
          fun _ _ s hs => absurd hs List.not_mem_nil⟩
        rcases hjob with rfl | ⟨stmt₀, hwr, rfl⟩ | ⟨sqls, rfl⟩
        · cases heq
        · cases heq
        · cases heq
          exact ⟨[], rfl, fun _ => ⟨rfl, fun hne => absurd rfl hne⟩,
            fun item? stmt hr => by cases hr⟩
  | request hparse hsel =>
      dsimp only at hj
      rcases Nat.lt_or_ge j m.threads.length with hlt | hge
      · rw [List.getElem?_append_left hlt] at hj
        exact hcourse j t hj
      · rw [List.getElem?_append_right hge] at hj
        cases List.mem_singleton.1 (List.mem_of_getElem? hj)
  | @tx _ i t₀ _ hi hl hstep =>
      by_cases hne : j = i
      · subst hne
        exact hstep.course_own h hmax hi (hacc j t₀ hi) (hcourse j t₀ hi) hnames hj
      · rw [hstep.threads hne] at hj
        exact (hcourse j t hj).other hnames
  | @req i sql stmt pc _ hi hstep =>
      obtain ⟨pc', hset⟩ := hstep.threads
      by_cases hne : j = i
      · subst hne
        rw [hset, List.getElem?_set_self (List.getElem?_eq_some_iff.1 hi).1] at hj
        cases hj
      · rw [hset, List.getElem?_set_ne (Ne.symm hne)] at hj
        exact (hcourse j t hj).other hnames

/-! ## The commits on record -/

/-- The commits on record are those of the threads whose commit went through. -/
structure Once (m : Conc) : Prop where
  before : ∀ (i : Nat) t, m.threads[i]? = some (.tx t) → ¬ Succeeded t.pc → m.commitsOf i = []
  after : ∀ (i : Nat) t, m.threads[i]? = some (.tx t) → Succeeded t.pc →
    ∃ c, m.commitsOf i = [c] ∧ c.stmts = t.log ∧
      (t.job ≠ .client → ∀ stmt ∈ t.log, stmt.tableName.bytes ∈ c.tabs)
  only : ∀ c ∈ m.hist, ∃ t, m.threads[c.thread]? = some (.tx t) ∧ Succeeded t.pc

theorem Once.congr (h : Once m) (hhist : m'.hist = m.hist)
    (hthreads : ∀ (j : Nat) t, m'.threads[j]? = some (.tx t) →
      (m.threads[j]? = some (.tx t)) ∨ m.commitsOf j = [] ∧ ¬ Succeeded t.pc ∨
        ∃ t₀, m.threads[j]? = some (.tx t₀) ∧ (Succeeded t₀.pc ↔ Succeeded t.pc) ∧
          (Succeeded t.pc → t.log = t₀.log ∧ t.job = t₀.job))
    (honly : ∀ (j : Nat) t, m.threads[j]? = some (.tx t) → Succeeded t.pc →
      ∃ t', m'.threads[j]? = some (.tx t') ∧ Succeeded t'.pc) : Once m' where
  before := fun i t ht hnot => by
    unfold commitsOf
    rw [hhist]
    rcases hthreads i t ht with hold | ⟨hnone, -⟩ | ⟨t₀, hold, hiff, -⟩
    · exact h.before i t hold hnot
    · exact hnone
    · exact h.before i t₀ hold fun hs => hnot (hiff.1 hs)
  after := fun i t ht hsucc => by
    unfold commitsOf
    rw [hhist]
    rcases hthreads i t ht with hold | ⟨-, hnot⟩ | ⟨t₀, hold, hiff, hsame⟩
    · exact h.after i t hold hsucc
    · exact absurd hsucc hnot
    · obtain ⟨hlog, hjob⟩ := hsame hsucc
      rw [hlog, hjob]
      exact h.after i t₀ hold (hiff.2 hsucc)
  only := fun c hc => by
    rw [hhist] at hc
    obtain ⟨t, ht, hsucc⟩ := h.only c hc
    exact honly c.thread t ht hsucc

theorem Once.set (h : Once m) (hi : m.threads[i]? = some (.tx t)) {m₁ : Conc}
    (hhist : m₁.hist = m.hist) (hthreads : m₁.threads = m.threads)
    (hiff : Succeeded t.pc ↔ Succeeded t'.pc)
    (hsame : Succeeded t'.pc → t'.log = t.log ∧ t'.job = t.job) : Once (m₁.set i (.tx t')) := by
  have hi₁ : m₁.threads[i]? = some (.tx t) := by rw [hthreads, hi]
  refine h.congr hhist (fun j x hj => ?_) fun j x hj hsucc => ?_
  · by_cases hne : j = i
    · subst hne
      cases set_here hi₁ hj
      exact Or.inr (Or.inr ⟨t, hi, hiff, hsame⟩)
    · rw [set_there hne, hthreads] at hj
      exact Or.inl hj
  · by_cases hne : j = i
    · subst hne
      rw [hi] at hj
      cases hj
      exact ⟨t', List.getElem?_set_self (List.getElem?_eq_some_iff.1 hi₁).1, hiff.1 hsucc⟩
    · exact ⟨x, by rw [set_there hne, hthreads, hj], hsucc⟩

theorem AtRest.not_succeeded {pc : Pc} (h : AtRest pc) : ¬ Succeeded pc := by
  rcases h with rfl | rfl | rfl
  · exact fun h => h
  · exact fun h => h
  · exact fun h => h

theorem Once.unfinished (h : Once m) (hi : m.threads[i]? = some (.tx t)) {m₁ : Conc}
    (hhist : m₁.hist = m.hist) (hthreads : m₁.threads = m.threads) (hpc : ¬ Succeeded t.pc)
    (hpc' : ¬ Succeeded t'.pc) : Once (m₁.set i (.tx t')) :=
  h.set hi hhist hthreads (iff_of_false hpc hpc') fun hs => absurd hs hpc'

/-- **The commit goes on record.** -/
theorem Once.finish {ver k : Nat} (h : Once m) (hi : m.threads[i]? = some (.tx t))
    (hpc : t.pc = .install ver k) (hcourse : Course maxSql m.db t) : Once ({ m with
      owner := none
      hist := m.hist ++ [(⟨i, ver, t.log, written m.db t.tx⟩ : Commit)] }.set i
        (.tx { t with pc := .gc true })) := by
  have hnot : ¬ Succeeded t.pc := by
    rw [hpc]
    exact fun h => h
  have hself : (m.threads.set i (.tx { t with pc := .gc true }))[i]? =
      some (.tx { t with pc := .gc true }) :=
    List.getElem?_set_self (List.getElem?_eq_some_iff.1 hi).1
  have hcommits : ∀ j, (m.hist ++ [(⟨i, ver, t.log, written m.db t.tx⟩ : Commit)]).filter
      (fun c => c.thread == j) =
        m.commitsOf j ++ if i = j then [⟨i, ver, t.log, written m.db t.tx⟩] else [] := by
    intro j
    rw [List.filter_append]
    refine congrArg (m.commitsOf j ++ ·) ?_
    by_cases hij : i = j
    · simp [hij]
    · simp [hij]
  have hother : ∀ {j : Nat} {x : TxThread},
      (m.threads.set i (.tx { t with pc := .gc true }))[j]? = some (.tx x) → j ≠ i → m.threads[j]? = some (.tx x) := fun hj hne => by
    rwa [List.getElem?_set_ne (Ne.symm hne)] at hj
  refine ⟨fun j x hj hx => ?_, fun j x hj hx => ?_, fun c hc => ?_⟩
  · by_cases hne : j = i
    · subst hne
      cases hself.symm.trans hj
      exact absurd rfl hx
    · refine (hcommits j).trans ?_
      rw [if_neg (Ne.symm hne), List.append_nil]
      exact h.before j x (hother hj hne) hx
  · by_cases hne : j = i
    · subst hne
      cases hself.symm.trans hj
      refine ⟨⟨j, ver, t.log, written m.db t.tx⟩, (hcommits j).trans ?_, rfl,
        fun hjob stmt hs => ?_⟩
      · rw [if_pos rfl, h.before j t hi hnot, List.nil_append]
      · refine hcourse.reached hjob ?_ stmt hs
        rw [hpc]
        trivial
    · obtain ⟨c, hc, hlog, htabs⟩ := h.after j x (hother hj hne) hx
      refine ⟨c, (hcommits j).trans ?_, hlog, htabs⟩
      rw [if_neg (Ne.symm hne), List.append_nil, hc]
  · rcases List.mem_append.1 hc with hc | hc
    · obtain ⟨x, hx, hsucc⟩ := h.only c hc
      have hne : c.thread ≠ i := by
        intro heq
        rw [heq, hi] at hx
        cases hx
        exact hnot hsucc
      exact ⟨x, (List.getElem?_set_ne (Ne.symm hne)).trans hx, hsucc⟩
    · rw [List.mem_singleton.1 hc]
      exact ⟨_, hself, rfl⟩

theorem TxStep.once (h : Once m) (hi : m.threads[i]? = some (.tx t)) (hs : TxStep m i t m')
    (hcourse : Course maxSql m.db t) : Once m' := by
  cases hs with
  | view hpc hask howner hrun =>
      exact h.unfinished hi rfl rfl (by rw [hpc]; exact id) id
  | unparsed hpc hjob => exact h.unfinished hi rfl rfl (by rw [hpc]; exact id) id
  | look hpc hjob howner hrun => exact ⟨h.before, h.after, h.only⟩
  | run hpc hrun =>
      exact h.unfinished hi rfl rfl (by rw [hpc]; exact id) (ran_atRest _ _).not_succeeded
  | commit hmay howner hrun => exact h.unfinished hi rfl rfl hmay.atRest.not_succeeded id
  | conflict hmay howner hrun =>
      exact h.unfinished hi rfl rfl hmay.atRest.not_succeeded refused_atRest.not_succeeded
  | skip hpc hk hd => exact h.unfinished hi rfl rfl (by rw [hpc]; exact id) id
  | install hpc hk hd hrun => exact h.unfinished hi rfl rfl (by rw [hpc]; exact id) id
  | finish hpc hk => exact h.finish hi hpc hcourse
  | abort hmay hrun =>
      exact h.unfinished hi rfl rfl hmay.atRest.not_succeeded Bool.noConfusion
  | gc hpc => exact h.set hi rfl rfl (by rw [hpc]; exact Iff.rfl) fun _ => ⟨rfl, rfl⟩
  | stat hpc => exact h.set hi rfl rfl (by rw [hpc]; exact Iff.rfl) fun _ => ⟨rfl, rfl⟩
  | prune hpc howner hrun =>
      exact h.set hi rfl rfl (by rw [hpc]; exact Iff.rfl) fun _ => ⟨rfl, rfl⟩
  | retry hpc hjob herr =>
      exact h.unfinished hi rfl rfl (by rw [hpc]; exact Bool.noConfusion) id

theorem Turn.once (h : Once m)
    (hcourse : ∀ (j : Nat) t, m.threads[j]? = some (.tx t) → Course maxSql m.db t)
    (hturn : Turn m l m') : Once m' := by
  have hend : m.commitsOf m.threads.length = [] := by
    refine List.filter_eq_nil_iff.2 fun c hc heq => ?_
    obtain ⟨t, ht, -⟩ := h.only c hc
    have := (List.getElem?_eq_some_iff.1 ht).1
    have heq : c.thread = m.threads.length := by simpa using heq
    omega
  have hadd : ∀ (x : Thread) {j : Nat} {t : TxThread}, (m.threads ++ [x])[j]? = some (.tx t) →
      m.threads[j]? = some (.tx t) ∨ j = m.threads.length ∧ x = .tx t := fun x j t hj => by
    rcases Nat.lt_or_ge j m.threads.length with hlt | hge
    · exact Or.inl ((List.getElem?_append_left hlt).symm.trans hj)
    · rw [List.getElem?_append_right hge] at hj
      have hzero := (List.getElem?_eq_some_iff.1 hj).1
      rw [List.length_singleton] at hzero
      exact Or.inr ⟨by omega, (List.mem_singleton.1 (List.mem_of_getElem? hj)).symm⟩
  have hold : ∀ (x : Thread) {j : Nat} {t : TxThread}, m.threads[j]? = some (.tx t) →
      (m.threads ++ [x])[j]? = some (.tx t) := fun x j t hj =>
    (List.getElem?_append_left (List.getElem?_eq_some_iff.1 hj).1).trans hj
  cases hturn with
  | idle => exact h
  | tick ns => exact ⟨h.before, h.after, h.only⟩
  | spawn hjob =>
      refine h.congr rfl (fun j t hj => ?_) fun j t hj hsucc => ⟨t, hold _ hj, hsucc⟩
      rcases hadd _ hj with hj | ⟨rfl, heq⟩
      · exact Or.inl hj
      · cases heq
        exact Or.inr (Or.inl ⟨hend, id⟩)
  | request hparse hsel =>
      refine h.congr rfl (fun j t hj => ?_) fun j t hj hsucc => ⟨t, hold _ hj, hsucc⟩
      rcases hadd _ hj with hj | ⟨rfl, heq⟩
      · exact Or.inl hj
      · cases heq
  | tx hi hl hstep => exact hstep.once h hi (hcourse _ _ hi)
  | @req i sql stmt pc _ hi hstep =>
      obtain ⟨pc', hset⟩ := hstep.threads
      have hhist : m'.hist = m.hist := by cases hstep <;> rfl
      refine h.congr hhist (fun j t hj => ?_) fun j t hj hsucc => ⟨t, ?_, hsucc⟩
      · by_cases hne : j = i
        · subst hne
          rw [hset, List.getElem?_set_self (List.getElem?_eq_some_iff.1 hi).1] at hj
          cases hj
        · rw [hset, List.getElem?_set_ne (Ne.symm hne)] at hj
          exact Or.inl hj
      · have hne : j ≠ i := by
          rintro rfl
          cases hi.symm.trans hj
        rw [hset, List.getElem?_set_ne (Ne.symm hne), hj]

/-! ## All along a run -/

theorem once_of_run {files : Bytes → Option Bytes} {maxSql maxQry : Int} {ttlNs : Nat}
    {ls : List Label} (hrun : Run.exec step (init files maxSql maxQry ttlNs) ls = .ok m) :
    (∀ (j : Nat) t, m.threads[j]? = some (.tx t) → Course maxSql m.db t) ∧ Once m := by
  refine (Run.kept (I := fun m => (Ok m ∧
    (∀ (j : Nat) t, m.threads[j]? = some (.tx t) → Accounts m t)) ∧ m.db.maxSql = maxSql ∧
      (∀ (j : Nat) t, m.threads[j]? = some (.tx t) → Course maxSql m.db t) ∧ Once m)
    (fun h hs => ?_) ⟨⟨init_ok files maxSql maxQry ttlNs, by simp [init]⟩, rfl, by simp [init],
      by simp [init], by simp [init], by simp [init]⟩ hrun).2.2
  obtain ⟨⟨hok, hacc⟩, hmax, hcourse, honce⟩ := h
  obtain ⟨hok', hstep⟩ := hok.step hs
  obtain ⟨m₁, hturn, rfl⟩ := hstep.turn
  have honce' := hturn.once honce hcourse
  have hmax' := hturn.limit hok.inv hmax
  refine ⟨⟨hok', fun j t hj => (hturn.accounts hok.inv hacc hj).congr rfl rfl⟩,
    hmax', fun j t hj => ?_,
    honce'.before, honce'.after, honce'.only⟩
  have hj' : m₁.threads[j]? = some (.tx t) := hj
  have hown := hturn.course hok.inv hmax hacc hcourse hj'
  exact hown

/-- **Exactly once.**  The commits on record are those of the calls whose commit went through,
one for each: for a `db_exec` it holds the one statement, however many attempts there were, for a
`db_batch` all its write statements, and each of them took effect.  Before, and after a failure,
a call has no commit on record. -/
theorem effects_exactly_once (files : Bytes → Option Bytes) (maxSql maxQry : Int) (ttlNs : Nat)
    (ls : List Label) (m : Conc)
    (hrun : Run.exec step (init files maxSql maxQry ttlNs) ls = .ok m) :
    (∀ c ∈ m.hist, ∃ t, m.threads[c.thread]? = some (.tx t) ∧ Succeeded t.pc) ∧
    ∀ (i : Nat) t, m.threads[i]? = some (.tx t) →
      (¬ Succeeded t.pc → m.commitsOf i = []) ∧
      (Succeeded t.pc → ∃ c, m.commitsOf i = [c] ∧ c.stmts = t.log ∧
        (∀ stmt res left, t.job = .exec stmt res left → c.writes = [stmt]) ∧
        ∀ sqls todo, t.job = .batch sqls todo → c.writes = writesOf maxSql sqls) := by
  obtain ⟨hcourse, honce⟩ := once_of_run hrun
  refine ⟨honce.only, fun i t hi => ⟨honce.before i t hi, fun hsucc => ?_⟩⟩
  obtain ⟨c, hc, hlog, htabs⟩ := honce.after i t hi hsucc
  obtain ⟨hon, hne⟩ := hsucc.onCourse
  have hall : t.job ≠ .client → c.writes = t.log := fun hjob => by
    unfold Commit.writes
    rw [hlog]
    exact List.filter_eq_self.2 fun stmt hs => List.contains_iff_mem.2 (htabs hjob stmt hs)
  refine ⟨c, hc, hlog, fun stmt res left hjob => ?_, fun sqls todo hjob => ?_⟩
  · rw [hall (by rw [hjob]; exact Job.noConfusion)]
    exact (hcourse i t hi).exec stmt res left hjob hon hne
  · rw [hall (by rw [hjob]; exact Job.noConfusion)]
    obtain ⟨done, hsplit, hwrites, -⟩ := (hcourse i t hi).batch sqls todo hjob
    obtain ⟨hlog', htodo⟩ := hwrites hon
    rw [hlog', hsplit, htodo hne, List.append_nil]

/-- A batch of two statements, and a `db_exec` that loses its first attempt to it. -/
def batchAndExec : List Label :=
  [.exec (str "INSERT INTO t VALUES (2,b)"), .move 0, .move 0,
    .batch [str "INSERT INTO t VALUES (3,c)", str "DELETE FROM t WHERE id = 1"]] ++
    List.replicate 10 (.move 1) ++ List.replicate 14 (.move 0)

theorem effects_exactly_once_two : ∃ m t c,
    Run.exec step (init (World.oneFile (str "id(PK),v\n1,a\n")) 0 8 0) batchAndExec = .ok m ∧
      m.threads[0]? = some (.tx t) ∧ Succeeded t.pc ∧ m.commitsOf 0 = [c] ∧ c.stmts = t.log := by
  obtain ⟨m, hrun, htest⟩ := Run.exists_of_reaches
    (show Run.reaches step (init (World.oneFile (str "id(PK),v\n1,a\n")) 0 8 0) batchAndExec
      (fun m => m.hist.map Commit.thread == [1, 0]) = true by decide +kernel)
  have htest : m.hist.map Commit.thread = [1, 0] := eq_of_beq htest
  obtain ⟨honly, hall⟩ := effects_exactly_once _ 0 8 0 batchAndExec m hrun
  obtain ⟨c, hc, hthread⟩ := List.mem_map.1 (htest ▸ (by simp : 0 ∈ [1, 0]))
  obtain ⟨t, ht, hsucc⟩ := honly c hc
  rw [hthread] at ht
  obtain ⟨c', hc', hlog, -⟩ := (hall 0 t ht).2 hsucc
  exact ⟨m, t, c', hrun, ht, hsucc, hc', hlog⟩

end Conc

end MiniDbms
