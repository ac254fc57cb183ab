import MiniDbms.Conc.Follow

/-!
# Steps beside a transaction

What a step of one thread means for the transactions of the others and for the committed
content.
-/

namespace MiniDbms

open Versions

namespace Db

variable {db db' : Db} {tx tx' : DbTx} {mine mine' others ws : List Nat} {p : Option Nat}
  {n : Bytes}

/-! ## Loading -/

/-- At most a table was loaded. -/
def Needs (db db' : Db) : Prop := db' = db ∨ ∃ n k?, db.needEnt n = .ok (k?, db')

theorem txView_needs (hwf : db.Wf ws) {item? : Option Nat}
    (h : db.txView tx n = .ok (item?, db', tx')) : Needs db db' := by
  have hc := txView_cases hwf tx n
  rw [h] at hc
  cases hc with
  | found => exact Or.inl rfl
  | missing => exact Or.inl rfl
  | unseen hnew hneed => exact Or.inr ⟨n, _, hneed⟩
  | viewed hnew hneed hv => exact Or.inr ⟨n, _, hneed⟩

theorem dbTabVer_needs {ver : Nat} (h : db.dbTabVer n = .ok (ver, db')) : Needs db db' := by
  unfold dbTabVer at h
  split at h
  · cases h
    exact Or.inl rfl
  · obtain ⟨⟨k?, db₁⟩, hneed, hrun⟩ := bind_ok.1 h
    have hdb : db' = db₁ := by
      cases k? with
      | none =>
          cases hrun
          rfl
      | some k =>
          obtain ⟨e, -, hrun⟩ := bind_ok.1 hrun
          split at hrun
          · cases hrun
            rfl
          · obtain ⟨t, -, hrun⟩ := bind_ok.1 hrun
            cases hrun
            rfl
    exact Or.inr ⟨n, k?, hdb ▸ hneed⟩

theorem execAt_read {a : Nat} {stmt : Statement} {res res' : DbRes} {ok : Bool}
    (hrd : stmt.isWr = false) (h : db.execAt a stmt res = .ok (db', res', ok)) : db' = db := by
  unfold execAt at h
  obtain ⟨tab, -, hrun⟩ := bind_ok.1 h
  obtain ⟨⟨tab', res₁, ok₁⟩, -, hrun⟩ := bind_ok.1 hrun
  rw [hrd] at hrun
  cases hrun
  rfl

theorem doRead_needs {s : Nat} {sql : Bytes} {res : DbRes} {ok : Bool}
    (h : db.doRead s sql = .ok (db', res, ok)) : Needs db db' := by
  unfold doRead at h
  cases hp : db.parseOk sql with
  | error err =>
      rw [hp] at h
      cases h
      exact Or.inl rfl
  | ok stmt =>
      rw [hp] at h
      dsimp only at h
      split at h
      · cases h
        exact Or.inl rfl
      · rename_i hsel
        have hrd : stmt.isWr = false := by
          unfold Statement.isWr
          rw [not_not.1 hsel]
          rfl
        obtain ⟨⟨a?, db₁⟩, hread, hrun⟩ := bind_ok.1 h
        have hneeds : Needs db db₁ := by
          unfold readTab at hread
          obtain ⟨⟨k?, db₂⟩, hneed, hread⟩ := bind_ok.1 hread
          cases k? with
          | none =>
              cases hread
              exact Or.inr ⟨_, _, hneed⟩
          | some k =>
              obtain ⟨e, -, hread⟩ := bind_ok.1 hread
              obtain ⟨a, -, hread⟩ := bind_ok.1 hread
              cases hread
              exact Or.inr ⟨_, _, hneed⟩
        cases a? with
        | none =>
            cases hrun
            exact hneeds
        | some a => exact execAt_read hrd hrun ▸ hneeds

theorem Needs.maxSql (h : Needs db db') : db'.maxSql = db.maxSql := by
  rcases h with rfl | ⟨n, k?, hneed⟩
  · rfl
  · have hc := db.needEnt_cases n
    rw [hneed] at hc
    cases hc with
    | there hg => rfl
    | missing hg hl => rfl
    | @loaded tab hg hl =>
        unfold addTab addEnt
        split
        · rfl
        · rfl

theorem gcPrune_maxSql (hwf : db.Wf ws) {keep : Nat} (h : db.gcPrune keep = .ok db') :
    db'.maxSql = db.maxSql := by
  obtain ⟨db₁, hrun, hp, -⟩ := hwf.gcPrune keep
  rw [h] at hrun
  cases hrun
  rw [hp.frame]

/-! ## What a section leaves alone -/

/-- What a section that publishes nothing means for everybody else. -/
structure Aside (db db' : Db) (mine others : List Nat) : Prop where
  sec : ∃ mine' p, Section db db' mine mine' others p
  unseen : ∀ s n, 1 ≤ s → db.seen s n = none → db'.seen s n = none
  com : db'.com = db.com

theorem Aside.refl (h : db.Wf (mine ++ others)) : Aside db db mine others :=
  ⟨⟨mine, none, Section.refl h⟩, fun _ _ _ hn => hn, rfl⟩

theorem Aside.with_mv (h : db.Wf (mine ++ others)) {mv : Mvcc} (hcur : db.mv.curVer ≤ mv.curVer)
    (hsnaps : ∀ s ∈ mv.snaps, s ∈ db.mv.snaps ∨ s = db.mv.curVer) :
    Aside db { db with mv := mv } mine others :=
  ⟨⟨mine, none, Section.with_mv h hcur hsnaps⟩, fun _ _ _ hn => hn, rfl⟩

theorem Aside.quiet (hsec : Section db db' mine mine' others p) (hq : Quiet db db') :
    Aside db db' mine others where
  sec := ⟨mine', p, hsec⟩
  unseen := fun s n _ hn => (hq.seen s n).trans hn
  com := hq.stable.2

theorem Aside.needs (hwf : db.Wf (mine ++ others)) (h : Needs db db') :
    Aside db db' mine others := by
  rcases h with rfl | ⟨n, k?, hneed⟩
  · exact Aside.refl hwf
  · cases k? with
    | none =>
        rw [(needEnt_none hneed).1]
        exact Aside.refl hwf
    | some k =>
        have hp := (needEnt_private hwf hneed [] (by simp)).2.1
        exact ⟨⟨mine, none, Section.needEnt hwf hneed⟩,
          fun s n hs hn => (congrFun (hp.stable.seen s hs) n).trans hn, hp.com⟩

/-- A loaded table shows the newest version of its chain that is old enough. -/
theorem seen_vers (h : db.Wf ws) {k : Nat} (hk : db.getEnt n = some k) (s : Nat) :
    db.seen s n = visible TabVer.verId s (db.vers n) := by
  obtain ⟨e, he, -⟩ := getEnt_spec hk
  have hlive : ∀ a ∈ e.chain, ∃ t, db.heap.get a = some t := fun a ha => by
    obtain ⟨t, ht, -⟩ := (h.chain e (List.mem_of_getElem? he)).live a ha
    exact ⟨t, ht⟩
  rw [vers_getEnt hk he, visible_chain hlive]
  unfold seen visAddr
  rw [hk]
  dsimp only
  rw [he, Option.bind_some]

theorem Aside.prune (hwf : db.Wf (mine ++ others)) {keep : Nat} (h : db.gcPrune keep = .ok db') :
    Aside db db' mine others := by
  obtain ⟨db₁, hrun, hp, hwf'⟩ := hwf.gcPrune keep
  rw [h] at hrun
  cases hrun
  have hnames := forall₂_names hp.ents
  refine ⟨⟨mine, _, Section.prune hwf h⟩, fun s n _ hn => ?_,
    (hp.invisible fun e he => (hwf.chain e he).nonempty).2⟩
  have hget : db'.getEnt n = db.getEnt n := getEnt_congr hnames
  cases hk : db.getEnt n with
  | none =>
      unfold seen at hn ⊢
      rw [hk] at hn
      rw [hget, hk]
      dsimp only at hn ⊢
      rw [hp.frame]
      exact hn
  | some k =>
      rw [seen_vers hwf hk] at hn
      rw [seen_vers hwf' (hget.trans hk)]
      -- what is left of the chain is its front
      cases hv : visible TabVer.verId s (db'.vers n) with
      | none => rfl
      | some v =>
          rw [visible_of_first (hwf.vers_gcPrune h n).first hv] at hn
          cases hn

theorem txRun_read {item? : Option Nat} {stmt : Statement} {res : DbRes} {ok : Bool}
    (hrd : stmt.isWr = false) (h : db.txRun tx item? stmt = .ok (db', tx', res, ok)) :
    db' = db ∧ tx' = tx := by
  unfold txRun at h
  dsimp only at h
  cases hb : item?.bind fun i => (tx.tabs[i]?).map fun item => (i, item) with
  | none =>
      simp only [hb, hrd, Bool.false_eq_true, if_false] at h
      cases h
      exact ⟨rfl, rfl⟩
  | some r =>
      obtain ⟨i, it⟩ := r
      simp only [hb, hrd, Bool.false_eq_true, if_false, bind, Except.bind, pure, Except.pure,
        Bool.not_true] at h
      split at h
      · cases h
        exact ⟨rfl, rfl⟩
      · split at h
        · cases h
        · rename_i hexec
          cases h
          exact ⟨execAt_read hrd hexec, rfl⟩

end Db

namespace Conc

variable {m m' : Conc} {A B : List Thread} {i : Nat} {t : TxThread}

theorem runCase_of_run {db db' : Db} {tx' : DbTx} {item? : Option Nat} {stmt : Statement}
    {res : DbRes} {ok : Bool} (hok : db.TxOk t.tx)
    (hrun : (∃ stmt' res₀ left, t.job = .exec stmt' res₀ left ∧
        db.execRun t.tx item? stmt res₀ = .ok (db', tx', res, ok)) ∨
      (t.job = .client ∨ ∃ sqls todo, t.job = .batch sqls todo) ∧
        db.txRun t.tx item? stmt = .ok (db', tx', res, ok)) :
    db.RunCase t.tx item? stmt db' tx' ok := by
  rcases hrun with ⟨stmt', res₀, left, -, hrun⟩ | ⟨-, hrun⟩
  · exact Db.execRun_cases hok hrun
  · exact Db.txRun_cases hok hrun

/-- **A step of a thread that is not inside its commit section.** -/
theorem TxStep.aside (h : Inv m) (hm : m.threads = A ++ .tx t :: B)
    (hs : TxStep m A.length t m') (hfree : ∀ ver k, t.pc ≠ .install ver k) :
    Db.Aside m.db m'.db t.tx.works (worksOf (A ++ B)) := by
  have hwf : m.db.Wf (t.tx.works ++ worksOf (A ++ B)) := h.wf_split hm
  have hsafe : SafeAt m.db m.owner (t.tx.works ++ worksOf (A ++ B)) A.length t.tx t.pc :=
    h.safe_split hm
  cases hs with
  | view hpc hask howner hrun => exact .needs hwf (Db.txView_needs hwf hrun)
  | unparsed hpc hjob => exact .refl hwf
  | look hpc hjob howner hrun => exact .needs hwf (Db.doRead_needs hrun)
  | @run item? stmt db' tx' res ok hpc hrun =>
      rw [hpc] at hsafe
      have hcase := runCase_of_run hsafe.ok hrun
      obtain ⟨hsec, hquiet, -, -⟩ := hcase.section (p := none) hsafe hwf
      exact .quiet hsec hquiet
  | commit hmay howner hrun => exact .with_mv hwf (Nat.le_succ _) fun _ hs => Or.inl hs
  | conflict hmay howner hrun => exact .refl hwf
  | skip hpc hk hd => exact absurd hpc (hfree _ _)
  | install hpc hk hd hrun => exact absurd hpc (hfree _ _)
  | finish hpc hk => exact absurd hpc (hfree _ _)
  | abort hmay hrun =>
      obtain ⟨hsec, hquiet⟩ := (hmay.atRest.safe.1 hsafe).abort (p := none) hwf hrun
      exact .quiet hsec hquiet
  | gc hpc =>
      exact .with_mv hwf (curVer_mvGc _ _).ge fun _ hs => Or.inl (mem_mvGc hs)
  | stat hpc => exact .refl hwf
  | prune hpc howner hrun => exact .prune hwf hrun
  | retry hpc hjob herr => exact .with_mv hwf (Nat.le_refl _) fun _ hs => mem_mvSnap hs

/-- Beyond the begin of a commit section, such a step leaves the counter and the chains of a
commit section of somebody else alone. -/
theorem TxStep.quiet (h : Inv m) (hm : m.threads = A ++ .tx t :: B)
    (hs : TxStep m A.length t m') (hfree : ∀ ver k, t.pc ≠ .install ver k)
    (hsame : m'.owner = m.owner) :
    m'.db.mv.curVer = m.db.mv.curVer ∧ (m.owner ≠ none → Db.Quiet m.db m'.db) := by
  have hwf : m.db.Wf (t.tx.works ++ worksOf (A ++ B)) := h.wf_split hm
  have hsafe : SafeAt m.db m.owner (t.tx.works ++ worksOf (A ++ B)) A.length t.tx t.pc :=
    h.safe_split hm
  cases hs with
  | view hpc hask howner hrun =>
      exact ⟨congrArg Mvcc.curVer (Db.txView_mv hwf hrun), fun ho => absurd howner ho⟩
  | unparsed hpc hjob => exact ⟨rfl, fun _ => Db.Quiet.refl _⟩
  | look hpc hjob howner hrun =>
      exact ⟨congrArg Mvcc.curVer (Db.doRead_section (p := none) hwf hrun).2.1,
        fun ho => absurd howner ho⟩
  | @run item? stmt db' tx' res ok hpc hrun =>
      rw [hpc] at hsafe
      have hcase := runCase_of_run hsafe.ok hrun
      exact ⟨congrArg Mvcc.curVer hcase.mv, fun _ => (hcase.section (p := none) hsafe hwf).2.1⟩
  | commit hmay howner hrun =>
      rw [howner] at hsame
      cases hsame
  | conflict hmay howner hrun => exact ⟨rfl, fun ho => absurd howner ho⟩
  | skip hpc hk hd => exact absurd hpc (hfree _ _)
  | install hpc hk hd hrun => exact absurd hpc (hfree _ _)
  | finish hpc hk => exact absurd hpc (hfree _ _)
  | abort hmay hrun =>
      exact ⟨rfl, fun _ => ((hmay.atRest.safe.1 hsafe).abort (p := none) hwf hrun).2⟩
  | gc hpc => exact ⟨curVer_mvGc _ _, fun _ => ⟨rfl, curVer_mvGc _ _, fun _ _ => rfl⟩⟩
  | stat hpc => exact ⟨rfl, fun _ => Db.Quiet.refl _⟩
  | prune hpc howner hrun =>
      exact ⟨congrArg Mvcc.curVer (Db.gcPrune_mv hrun), fun ho => absurd howner ho⟩
  | retry hpc hjob herr => exact ⟨rfl, fun _ => ⟨rfl, rfl, fun _ _ => rfl⟩⟩

/-- The rounds of the commit section, and its end. -/
inductive Publishes (m : Conc) (i : Nat) (t : TxThread) (ver k : Nat) : Conc → Prop
  | skip {it : TxTab} (hk : t.tx.tabs[k]? = some it) (hd : it.dirty = false) :
      Publishes m i t ver k (m.set i (.tx { t with pc := .install ver (k + 1) }))
  | install {it it' : TxTab} {db' : Db} {saved : Bool} (hk : t.tx.tabs[k]? = some it)
      (hd : it.dirty = true) (hrun : m.db.commitInstall it ver .ok = .ok (db', it', saved)) :
      Publishes m i t ver k ({ m with db := db' }.set i (.tx { t with
        tx := { t.tx with tabs := t.tx.tabs.set k it' }
        pc := .install ver (k + 1) }))
  | finish (hk : t.tx.tabs[k]? = none) : Publishes m i t ver k ({ m with
      owner := none
      hist := m.hist ++ [(⟨i, ver, t.log, written m.db t.tx⟩ : Commit)] }.set i
        (.tx { t with pc := .gc true }))

/-- **A step inside the commit section.** -/
theorem TxStep.publishes (hs : TxStep m i t m') {ver k : Nat} (hpc : t.pc = .install ver k)
    (howner : m.owner = some i) : Publishes m i t ver k m' := by
  have hother : ∀ {pc : Pc}, t.pc = pc → pc = .install ver k := fun heq => heq.symm.trans hpc
  have hnone : ∀ {P : Prop}, m.owner = none → P := fun ho => by
    rw [howner] at ho
    cases ho
  cases hs with
  | skip hpc' hk hd =>
      cases hother hpc'
      exact .skip hk hd
  | install hpc' hk hd hrun =>
      cases hother hpc'
      exact .install hk hd hrun
  | finish hpc' hk =>
      cases hother hpc'
      exact .finish hk
  | view hpc' hask ho hrun => exact hnone ho
  | unparsed hpc' hjob => cases hother hpc'
  | look hpc' hjob ho hrun => exact hnone ho
  | run hpc' hrun => cases hother hpc'
  | commit hmay ho hrun => exact hnone ho
  | conflict hmay ho hrun => exact hnone ho
  | abort hmay hrun =>
      rcases hmay with hpc' | ⟨hpc', -⟩
      · cases hother hpc'
      · cases hother hpc'
  | gc hpc' => cases hother hpc'
  | stat hpc' => cases hother hpc'
  | prune hpc' ho hrun => exact hnone ho
  | retry hpc' hjob herr => cases hother hpc'

theorem Publishes.seen (h : Inv m) (hm : m.threads = A ++ .tx t :: B) {ver k : Nat}
    (hpc : t.pc = .install ver k) (hs : Publishes m A.length t ver k m') :
    (∃ mine' p, Db.Section m.db m'.db t.tx.works mine' (worksOf (A ++ B)) p) ∧
      ∀ s n, s < ver → m'.db.seen s n = m.db.seen s n := by
  have hwf : m.db.Wf (t.tx.works ++ worksOf (A ++ B)) := h.wf_split hm
  have hsafe : SafeAt m.db m.owner (t.tx.works ++ worksOf (A ++ B)) A.length t.tx t.pc :=
    h.safe_split hm
  rw [hpc] at hsafe
  cases hs with
  | skip hk hd => exact ⟨⟨_, none, Db.Section.refl hwf⟩, fun _ _ _ => rfl⟩
  | finish hk => exact ⟨⟨_, none, Db.Section.refl hwf⟩, fun _ _ _ => rfl⟩
  | @install it it' db' saved hk hd hrun =>
      obtain ⟨a, e, tab, -, -, hr, rfl, -, hsec, -⟩ := hsafe.2.install (p := none) hwf hk hd hrun
      exact ⟨⟨_, _, hsec⟩, fun s n hlt => congrFun (hr.installed_spec.2.1.seen s hlt) n⟩

/-- **A step of a request.** -/
theorem ReqStep.aside {sql : Bytes} {stmt : Statement} {pc : ReqPc} (h : Inv m)
    (hs : ReqStep m i sql stmt pc m') : Db.Aside m.db m'.db [] (worksOf m.threads) := by
  have hwf : m.db.Wf ([] ++ worksOf m.threads) := h.wf
  cases hs with
  | start howner hrun => exact .needs hwf (Db.dbTabVer_needs hrun)
  | hit hrun => exact .refl hwf
  | miss hrun => exact .refl hwf
  | snap => exact .with_mv hwf (Nat.le_refl _) fun _ hs => mem_mvSnap hs
  | read howner hrun => exact .needs hwf (Db.doRead_needs hrun)
  | gc => exact .with_mv hwf (curVer_mvGc _ _).ge fun _ hs => Or.inl (mem_mvGc hs)
  | stat => exact .refl hwf
  | stored howner hver hrun => exact .prune hwf hrun
  | ended howner hrun => exact .prune hwf hrun
  | store => exact .refl hwf

theorem ReqStep.quiet {sql : Bytes} {stmt : Statement} {pc : ReqPc} (h : Inv m)
    (hs : ReqStep m i sql stmt pc m') : m'.owner = m.owner ∧ m'.hist = m.hist ∧
      m'.db.mv.curVer = m.db.mv.curVer ∧ (m.owner ≠ none → Db.Quiet m.db m'.db) := by
  have hwf : m.db.Wf ([] ++ worksOf m.threads) := h.wf
  cases hs with
  | start howner hrun =>
      exact ⟨rfl, rfl, congrArg Mvcc.curVer (Db.dbTabVer_section (p := none) hwf hrun).2.1,
        fun ho => absurd howner ho⟩
  | hit hrun => exact ⟨rfl, rfl, rfl, fun _ => Db.Quiet.refl _⟩
  | miss hrun => exact ⟨rfl, rfl, rfl, fun _ => Db.Quiet.refl _⟩
  | snap => exact ⟨rfl, rfl, rfl, fun _ => ⟨rfl, rfl, fun _ _ => rfl⟩⟩
  | read howner hrun =>
      exact ⟨rfl, rfl, congrArg Mvcc.curVer (Db.doRead_section (p := none) hwf hrun).2.1,
        fun ho => absurd howner ho⟩
  | gc => exact ⟨rfl, rfl, curVer_mvGc _ _, fun _ => ⟨rfl, curVer_mvGc _ _, fun _ _ => rfl⟩⟩
  | stat => exact ⟨rfl, rfl, rfl, fun _ => Db.Quiet.refl _⟩
  | stored howner hver hrun =>
      exact ⟨rfl, rfl, congrArg Mvcc.curVer (Db.gcPrune_mv hrun), fun ho => absurd howner ho⟩
  | ended howner hrun =>
      exact ⟨rfl, rfl, congrArg Mvcc.curVer (Db.gcPrune_mv hrun), fun ho => absurd howner ho⟩
  | store => exact ⟨rfl, rfl, rfl, fun _ => Db.Quiet.refl _⟩

end Conc

end MiniDbms
