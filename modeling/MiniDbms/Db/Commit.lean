import MiniDbms.Db.Txn

/-!
# Commit, abort and release

A commit publishes the working copies of its transaction one by one.  An abort
releases them, and both give the snapshot back and prune.
-/

namespace MiniDbms

namespace Db

variable {db db' : Db} {ws others : List Nat} {tx : DbTx} {name : Bytes}

/-! ## The conflict test -/

/-- The registry pointer of an item is good, and its base is still the head. -/
def Current (db : Db) (it : TxTab) : Prop :=
  it.ent.gen = db.tabsGen ∧ db.headAddr it.ent.idx = some it.base

/-- The registry pointer of an item is good, and the table has a newer version. -/
def Outdated (db : Db) (it : TxTab) : Prop :=
  it.ent.gen = db.tabsGen ∧ db.headAddr it.ent.idx ≠ some it.base

theorem entAt_cases (db : Db) (p : EntPtr) :
    db.entAt p = .error .staleEnt ∨ ∃ e, db.entAt p = .ok e := by
  unfold entAt
  split
  · split
    · exact Or.inr ⟨_, rfl⟩
    · exact Or.inl rfl
  · exact Or.inl rfl

theorem commitCheck_cases (db : Db) : ∀ items : List TxTab,
    (db.commitCheck items = .ok true ∧ ∀ it ∈ items, it.dirty = true → db.Current it) ∨
    (db.commitCheck items = .ok false ∧ ∃ A it B, items = A ++ it :: B ∧ it.dirty = true ∧
      db.Outdated it ∧ ∀ x ∈ A, x.dirty = true → db.Current x) ∨
    (db.commitCheck items = .error .staleEnt ∧ ∃ A it B, items = A ++ it :: B ∧ it.dirty = true ∧
      db.entAt it.ent = .error .staleEnt ∧ ∀ x ∈ A, x.dirty = true → db.Current x)
  | [] => Or.inl ⟨rfl, by simp⟩
  | it :: items => by
      rw [commitCheck]
      by_cases hd : it.dirty = true
      · rw [if_pos hd]
        rcases entAt_cases db it.ent with he | ⟨e, he⟩
        · rw [he]
          exact Or.inr (Or.inr ⟨rfl, [], it, items, rfl, hd, he, by simp⟩)
        · obtain ⟨hgen, hidx⟩ := entAt_ok he
          have hhead : db.headAddr it.ent.idx = e.chain.head? := by
            unfold headAddr
            rw [hidx]
            rfl
          simp only [he, bind, Except.bind]
          by_cases hb : e.chain.head? = some it.base
          · have hcur : db.Current it := ⟨hgen, by rw [hhead, hb]⟩
            rw [if_pos hb]
            rcases commitCheck_cases db items with ⟨h, hall⟩ | ⟨h, A, x, B, rfl, hx⟩ |
              ⟨h, A, x, B, rfl, hx⟩
            · refine Or.inl ⟨h, ?_⟩
              intro x hx
              rcases List.mem_cons.1 hx with rfl | hx
              · exact fun _ => hcur
              · exact hall x hx
            · refine Or.inr (Or.inl ⟨h, it :: A, x, B, rfl, hx.1, hx.2.1, ?_⟩)
              intro y hy
              rcases List.mem_cons.1 hy with rfl | hy
              · exact fun _ => hcur
              · exact hx.2.2 y hy
            · refine Or.inr (Or.inr ⟨h, it :: A, x, B, rfl, hx.1, hx.2.1, ?_⟩)
              intro y hy
              rcases List.mem_cons.1 hy with rfl | hy
              · exact fun _ => hcur
              · exact hx.2.2 y hy
          · rw [if_neg hb]
            exact Or.inr (Or.inl ⟨rfl, [], it, items, rfl, hd, ⟨hgen, by rw [hhead]; exact hb⟩,
              by simp⟩)
      · rw [if_neg hd]
        have hskip : ∀ {P : TxTab → Prop} {A : List TxTab}, (∀ x ∈ A, x.dirty = true → P x) →
            ∀ x ∈ it :: A, x.dirty = true → P x := by
          intro P A hA x hx hxd
          rcases List.mem_cons.1 hx with rfl | hx
          · exact absurd hxd hd
          · exact hA x hx hxd
        rcases commitCheck_cases db items with ⟨h, hall⟩ | ⟨h, A, x, B, rfl, hx⟩ |
          ⟨h, A, x, B, rfl, hx⟩
        · exact Or.inl ⟨h, hskip hall⟩
        · exact Or.inr (Or.inl ⟨h, it :: A, x, B, rfl, hx.1, hx.2.1, hskip hx.2.2⟩)
        · exact Or.inr (Or.inr ⟨h, it :: A, x, B, rfl, hx.1, hx.2.1, hskip hx.2.2⟩)

/-! ## Installing heads -/

/-- Every version of table number `k` is older than `ver`. -/
def Below (db : Db) (ver k : Nat) : Prop :=
  ∀ e, db.tabs[k]? = some e → ∀ b ∈ e.chain, ∀ t, db.heap.get b = some t → t.verId < ver

/-- The store after the working copy of an item was published and saved. -/
def installed (db : Db) (k a : Nat) (e : TabEnt) (tab : TabVer) (ver : Nat) : Db :=
  { db.publish k a e tab ver with
    files := fun n => if n = tab.name then some (csvText { tab with verId := ver }) else db.files n }

theorem commitInstall_ok {it : TxTab} {a ver : Nat} {e : TabEnt} {tab : TabVer}
    (hw : it.work = some a) (hget : db.heap.get a = some tab) (he : db.entAt it.ent = .ok e) :
    db.commitInstall it ver .ok =
      .ok (db.installed it.ent.idx a e tab ver, { it with work := none }, true) := by
  have hver : db.ver a = .ok tab := by simp [Db.ver, hget]
  unfold commitInstall
  simp only [hw, hver, he, bind, Except.bind]
  rfl

variable {k a ver : Nat} {e : TabEnt} {tab : TabVer}

theorem Ready.installed_spec (h : Ready db ws k a e tab ver) :
    (db.installed k a e tab ver).Wf ws ∧ Stable (· < ver) db (db.installed k a e tab ver) ∧
      ∀ n, (db.installed k a e tab ver).com n =
        if n = e.name then some { tab with verId := ver } else db.com n := by
  have hfiles : ∀ n, (db.publish k a e tab ver).getEnt n = none →
      (if n = tab.name then some (csvText { tab with verId := ver }) else db.files n) =
        db.files n := by
    intro n hg
    rw [getEnt_congr h.names] at hg
    rw [if_neg]
    rintro rfl
    rw [h.name, h.wf.getEnt_eq h.ent] at hg
    cases hg
  obtain ⟨hst, hcom⟩ : Stable (· < ver) (db.publish k a e tab ver)
      (db.installed k a e tab ver) ∧ _ := files_invisible hfiles
  have hwf := h.publish_wf
  refine ⟨⟨hwf.names, hwf.owned, hwf.chain, hwf.works, hwf.curVer_pos⟩,
    h.publish_stable.trans hst, fun n => ?_⟩
  rw [← h.publish_com n]
  exact congrFun hcom n

theorem txWork_cons_none (hwf : db.Wf ws) {snap : Nat} {it : TxTab} {items : List TxTab}
    (hok : db.TxOk ⟨snap, it :: items⟩) (hw : it.work = none) :
    db.txWork ⟨snap, it :: items⟩ = db.txWork ⟨snap, items⟩ := by
  obtain ⟨e, he, -⟩ := hok.ents it List.mem_cons_self
  have hn : db.named e.name it = true := named_iff.2 ⟨e, he, rfl⟩
  funext n
  have hsplit := txWork_split (A := []) hwf hok hn n
  rw [List.nil_append, List.nil_append] at hsplit
  rw [hsplit]
  split
  · rename_i heq
    subst heq
    obtain ⟨-, hB⟩ := hok.named_unique (A := []) hwf rfl hn
    unfold txWork
    rw [List.find?_eq_none.2 (by simpa using hB), hw]
    rfl
  · rfl

theorem TxOk.tail {snap : Nat} {it : TxTab} {items : List TxTab}
    (h : db.TxOk ⟨snap, it :: items⟩) : db.TxOk ⟨snap, items⟩ where
  ents := fun x hx => h.ents x (List.mem_cons_of_mem _ hx)
  nodup := (List.nodup_cons.1 (by simpa using h.nodup)).2
  dirty := fun x hx => h.dirty x (List.mem_cons_of_mem _ hx)

/-- The part of a commit that is still to do; the version number is taken. -/
structure Installing (db : Db) (snap : Nat) (items : List TxTab) (others : List Nat) (ver : Nat) :
    Prop where
  txwf : TxWf db ⟨snap, items⟩ others
  good : ∀ it ∈ items, it.dirty = true → it.ent.gen = db.tabsGen ∧ db.Below ver it.ent.idx
  ver_pos : 1 ≤ ver
  ver_le : ver ≤ db.mv.curVer

variable {snap : Nat} {it : TxTab} {items : List TxTab}

theorem Installing.skip (h : Installing db snap (it :: items) others ver) (hd : it.dirty = false) :
    Installing db snap items others ver ∧
      db.txWork ⟨snap, it :: items⟩ = db.txWork ⟨snap, items⟩ := by
  have hw : it.work = none := by
    have := h.txwf.ok.dirty it List.mem_cons_self
    rw [hd] at this
    simpa using this.symm
  have hworks : (⟨snap, it :: items⟩ : DbTx).works = (⟨snap, items⟩ : DbTx).works :=
    List.filterMap_cons_none hw
  refine ⟨⟨⟨?_, h.txwf.ok.tail⟩, fun x hx => h.good x (List.mem_cons_of_mem _ hx), h.ver_pos,
    h.ver_le⟩, txWork_cons_none h.txwf.wf h.txwf.ok hw⟩
  rw [← hworks]
  exact h.txwf.wf

theorem Installing.ready (h : Installing db snap (it :: items) others ver) (hd : it.dirty = true) :
    ∃ a e tab, it.work = some a ∧ db.entAt it.ent = .ok e ∧
      Ready db ((⟨snap, items⟩ : DbTx).works ++ others) it.ent.idx a e tab ver := by
  obtain ⟨e, he, hname⟩ := h.txwf.ok.ents it List.mem_cons_self
  obtain ⟨hgen, hbelow⟩ := h.good it List.mem_cons_self hd
  have hsome := h.txwf.ok.dirty it List.mem_cons_self
  rw [hd] at hsome
  obtain ⟨a, ha⟩ := Option.isSome_iff_exists.1 hsome.symm
  have hworks : (⟨snap, it :: items⟩ : DbTx).works = a :: (⟨snap, items⟩ : DbTx).works :=
    List.filterMap_cons_some ha
  have hwf := h.txwf.wf
  rw [hworks, List.cons_append] at hwf
  obtain ⟨tab, hget, -⟩ := hwf.works a List.mem_cons_self
  exact ⟨a, e, tab, ha, entAt_fresh hgen he, hwf, he, hget, hname a tab ha hget, hbelow e he,
    h.ver_pos, h.ver_le⟩

theorem Installing.with_files (h : Installing db snap items others ver)
    (files : Bytes → Option Bytes) :
    Installing { db with files := files } snap items others ver := by
  obtain ⟨⟨hwf, hok⟩, hgood, hpos, hle⟩ := h
  exact ⟨⟨⟨hwf.names, hwf.owned, hwf.chain, hwf.works, hwf.curVer_pos⟩,
    ⟨hok.ents, hok.nodup, hok.dirty⟩⟩, hgood, hpos, hle⟩

theorem Installing.publish (h : Installing db snap (it :: items) others ver)
    (hr : Ready db ((⟨snap, items⟩ : DbTx).works ++ others) it.ent.idx a e tab ver)
    (hw : it.work = some a) :
    Installing (db.publish it.ent.idx a e tab ver) snap items others ver ∧
      (db.publish it.ent.idx a e tab ver).txWork ⟨snap, items⟩ e.name = none ∧
      ∀ n, db.txWork ⟨snap, it :: items⟩ n = if n = e.name then some tab else
        (db.publish it.ent.idx a e tab ver).txWork ⟨snap, items⟩ n := by
  have hn : db.named e.name it = true := named_iff.2 ⟨e, hr.ent, rfl⟩
  have hsame : ∀ b ∈ (⟨snap, items⟩ : DbTx).works,
      (db.publish it.ent.idx a e tab ver).heap.get b = db.heap.get b := fun b hb =>
    hr.get_other (List.mem_append_right _ (List.mem_append_left _ hb))
  obtain ⟨hok, hwork⟩ := h.txwf.ok.tail.stable hr.publish_stable hsame
  refine ⟨⟨⟨hr.publish_wf, hok⟩, ?_, h.ver_pos, h.ver_le⟩, ?_, ?_⟩
  · intro x hx hd
    obtain ⟨hgen, hbelow⟩ := h.good x (List.mem_cons_of_mem _ hx) hd
    refine ⟨hgen, ?_⟩
    -- the items of a transaction are about different tables
    have hne : x.ent.idx ≠ it.ent.idx := by
      have hnd := h.txwf.ok.nodup
      rw [List.map_cons] at hnd
      intro heq
      refine (List.nodup_cons.1 hnd).1 ?_
      rw [← heq]
      exact List.mem_map_of_mem hx
    intro e' he' b hb t ht
    rw [publish_ent_other hne] at he'
    rw [hr.get_other (List.mem_append_left _
      (mem_chains.2 ⟨e', List.mem_of_getElem? he', hb⟩))] at ht
    exact hbelow e' he' b hb t ht
  · obtain ⟨-, hB⟩ := h.txwf.ok.named_unique (A := []) h.txwf.wf rfl hn
    rw [hwork]
    unfold txWork
    rw [List.find?_eq_none.2 (by simpa using hB)]
    rfl
  · intro n
    have hsplit := txWork_split (A := []) h.txwf.wf h.txwf.ok hn n
    rw [List.nil_append, List.nil_append] at hsplit
    rw [hsplit, hw, Option.bind_some, hr.work, hwork]

/-- The tables with the working copies of a transaction in place. -/
def override (work com : Tables) (ver : Nat) : Tables := fun n =>
  match work n with
  | some tab => some { tab with verId := ver }
  | none => com n

/-- What a completed commit did. -/
structure Installed (db db' : Db) (work : Tables) (others : List Nat) (ver : Nat) : Prop where
  wf : db'.Wf others
  stable : Stable (· < ver) db db'
  com : db'.com = override work db.com ver
  mv : db'.mv = db.mv
  maxSql : db'.maxSql = db.maxSql
  maxQry : db'.maxQry = db.maxQry
  works : ∀ b ∈ others, db'.heap.get b = db.heap.get b

/-- After the first item was installed, the rest of the commit comes to the same. -/
theorem Installing.install (h : Installing db snap (it :: items) others ver)
    (hr : Ready db ((⟨snap, items⟩ : DbTx).works ++ others) it.ent.idx a e tab ver)
    (hw : it.work = some a) :
    Installing (db.installed it.ent.idx a e tab ver) snap items others ver ∧
      override ((db.installed it.ent.idx a e tab ver).txWork ⟨snap, items⟩)
          (db.installed it.ent.idx a e tab ver).com ver =
        override (db.txWork ⟨snap, it :: items⟩) db.com ver := by
  obtain ⟨hnext, hself, hwork⟩ := h.publish hr hw
  obtain ⟨-, -, hcom⟩ := hr.installed_spec
  refine ⟨hnext.with_files _, ?_⟩
  funext n
  unfold override
  rw [hwork n, hcom n]
  by_cases hn : n = e.name
  · subst hn
    have hself' : (db.installed it.ent.idx a e tab ver).txWork ⟨snap, items⟩ e.name = none := hself
    rw [if_pos rfl, if_pos rfl, hself']
  · rw [if_neg hn, if_neg hn]
    rfl

theorem commitLoop_saveOk : ∀ (items : List TxTab) (db : Db) (i : Nat),
    Installing db snap items others ver →
      ∃ db' items', commitLoop ver saveOk i db items = .ok (db', items', true) ∧
        Installed db db' (db.txWork ⟨snap, items⟩) others ver
  | [], db, i, h => ⟨db, [], rfl, h.txwf.wf, Stable.refl _ _, rfl, rfl, rfl, rfl, fun _ _ => rfl⟩
  | it :: items, db, i, h => by
      rw [commitLoop]
      cases hd : it.dirty with
      | false =>
          obtain ⟨hskip, hwork⟩ := h.skip hd
          obtain ⟨db', items', hrun, hinst⟩ := commitLoop_saveOk items db (i + 1) hskip
          refine ⟨db', it :: items', ?_, hwork ▸ hinst⟩
          simp only [Bool.false_eq_true, if_false, bind, Except.bind, hrun]
          rfl
      | true =>
          obtain ⟨a, e, tab, hw, hent, hr⟩ := h.ready hd
          obtain ⟨hnext, hover⟩ := h.install hr hw
          obtain ⟨db', items', hrun, hinst⟩ := commitLoop_saveOk items _ (i + 1) hnext
          obtain ⟨-, hst, -⟩ := hr.installed_spec
          refine ⟨db', { it with work := none } :: items', ?_, hinst.wf, hst.trans hinst.stable, ?_,
            hinst.mv, hinst.maxSql, hinst.maxQry, ?_⟩
          · have hone : db.commitInstall it ver .ok = _ := commitInstall_ok hw hr.work hent
            simp only [if_true, bind, Except.bind, saveOk, hone] at hrun ⊢
            rw [hrun]
            rfl
          · rw [hinst.com, hover]
          · intro b hb
            rw [hinst.works b hb]
            exact hr.get_other (List.mem_append_right _ (List.mem_append_right _ hb))

/-! ## The critical section -/

theorem Installing.start (h : TxWf db tx others)
    (hcur : ∀ it ∈ tx.tabs, it.dirty = true → db.Current it) :
    Installing { db with mv := db.mv.mvBump } tx.snapId tx.tabs others (db.mv.curVer + 1) := by
  refine ⟨⟨h.wf.with_mv (Nat.le_succ _), ⟨h.ok.ents, h.ok.nodup, h.ok.dirty⟩⟩, ?_,
    Nat.le_add_left _ _, Nat.le_refl _⟩
  intro it hit hd
  refine ⟨(hcur it hit hd).1, ?_⟩
  intro e he b hb t ht
  obtain ⟨t', ht', -, -, -, hle⟩ := (h.wf.chain e (List.mem_of_getElem? he)).live b hb
  have heq : some t = some t' := ht.symm.trans ht'
  cases heq
  exact Nat.lt_succ_of_le hle

/-- The ways the critical section of a commit can go when every save succeeds. -/
inductive CommitCase (db : Db) (tx : DbTx) (others : List Nat) :
    Except Fault (Db × DbTx × Bool) → Prop
  | stale {it : TxTab} (hit : it ∈ tx.tabs) (hd : it.dirty = true)
      (h : db.entAt it.ent = .error .staleEnt) : CommitCase db tx others (.error .staleEnt)
  | conflict {it : TxTab} (hit : it ∈ tx.tabs) (hd : it.dirty = true) (h : db.Outdated it) :
      CommitCase db tx others (.ok (db, tx, false))
  | done {db' : Db} {items : List TxTab}
      (hcur : ∀ it ∈ tx.tabs, it.dirty = true → db.Current it)
      (h : Installed { db with mv := db.mv.mvBump } db' (db.txWork tx) others (db.mv.curVer + 1)) :
      CommitCase db tx others (.ok (db', ⟨tx.snapId, items⟩, true))

theorem commitSection_cases (h : TxWf db tx others) :
    CommitCase db tx others (db.commitSection tx saveOk) := by
  unfold commitSection
  rcases commitCheck_cases db tx.tabs with ⟨hcheck, hcur⟩ | ⟨hcheck, A, it, B, htabs, hd, hout, -⟩ |
    ⟨hcheck, A, it, B, htabs, hd, hstale, -⟩
  · obtain ⟨db', items, hrun, hinst⟩ := commitLoop_saveOk tx.tabs _ 0 (Installing.start h hcur)
    simp only [bind, Except.bind, hcheck, if_true]
    rw [show ({ db with mv := db.mv.mvBump } : Db).mv.curVer = db.mv.curVer + 1 from rfl, hrun]
    exact .done hcur hinst
  · simp only [bind, Except.bind, hcheck]
    exact .conflict (htabs ▸ List.mem_append_right _ List.mem_cons_self) hd hout
  · simp only [bind, Except.bind, hcheck]
    exact .stale (htabs ▸ List.mem_append_right _ List.mem_cons_self) hd hstale

/-! ## Giving a snapshot back -/

theorem foldl_min_le : ∀ (l : List Nat) (s : Nat), l.foldl min s ≤ s ∧ ∀ x ∈ l, l.foldl min s ≤ x
  | [], s => ⟨Nat.le_refl s, by simp⟩
  | y :: l, s => by
      obtain ⟨hle, hall⟩ := foldl_min_le l (min s y)
      refine ⟨hle.trans (Nat.min_le_left _ _), ?_⟩
      intro x hx
      rcases List.mem_cons.1 hx with rfl | hx
      · exact hle.trans (Nat.min_le_right _ _)
      · exact hall x hx

theorem foldl_min_mem : ∀ (l : List Nat) (s : Nat), l.foldl min s ∈ s :: l
  | [], s => List.mem_cons_self
  | y :: l, s => by
      have := foldl_min_mem l (min s y)
      rw [List.foldl_cons]
      rcases List.mem_cons.1 this with h | h
      · rw [h]
        rcases Nat.le_total s y with hsy | hsy
        · rw [Nat.min_eq_left hsy]
          exact List.mem_cons_self
        · rw [Nat.min_eq_right hsy]
          exact List.mem_cons_of_mem _ List.mem_cons_self
      · exact List.mem_cons_of_mem _ (List.mem_cons_of_mem _ h)

/-- `gc_tabs` keeps what the oldest live snapshot sees. -/
theorem gcKeepId_spec (db : Db) (hpos : ∀ s ∈ db.mv.snaps, 1 ≤ s) :
    (db.mv.snaps = [] ∧ db.gcKeepId = 0) ∨
      (db.gcKeepId ≠ 0 ∧ ∀ s ∈ db.mv.snaps, db.gcKeepId ≤ s) := by
  cases hs : db.mv.snaps with
  | nil =>
      refine Or.inl ⟨rfl, ?_⟩
      unfold gcKeepId Mvcc.mvStat
      simp [hs]
  | cons s ss =>
      have hkeep : db.gcKeepId = ss.foldl min s := by
        unfold gcKeepId Mvcc.mvStat Mvcc.snapMin
        simp [hs]
      rw [hkeep]
      refine Or.inr ⟨?_, ?_⟩
      · have := hpos _ (hs ▸ foldl_min_mem ss s)
        omega
      · intro x hx
        obtain ⟨hle, hall⟩ := foldl_min_le ss s
        rcases List.mem_cons.1 hx with rfl | hx
        · exact hle
        · exact hall x hx

/-- What giving back a snapshot does to the store. -/
structure Released (db db' : Db) (snap : Nat) (ws : List Nat) : Prop where
  wf : db'.Wf ws
  mv : db'.mv = db.mv.mvGc snap
  stable : Stable (· ∈ db'.mv.snaps) db db'
  com : db'.com = db.com
  works : ∀ a ∈ ws, db'.heap.get a = db.heap.get a
  maxSql : db'.maxSql = db.maxSql
  maxQry : db'.maxQry = db.maxQry

theorem mvGc_curVer (mv : Mvcc) (snap : Nat) : (mv.mvGc snap).curVer = mv.curVer := by
  unfold Mvcc.mvGc
  split <;> rfl

theorem mem_mvGc {mv : Mvcc} {snap s : Nat} (h : s ∈ (mv.mvGc snap).snaps) : s ∈ mv.snaps := by
  unfold Mvcc.mvGc at h
  split at h
  · exact h
  · exact List.mem_of_mem_erase h

theorem release_spec (hwf : db.Wf ws) (hpos : ∀ s ∈ db.mv.snaps, 1 ≤ s) (snap : Nat) :
    ∃ db', db.release snap = .ok db' ∧ Released db db' snap ws := by
  set db₁ : Db := { db with mv := db.mv.mvGc snap } with hdb₁
  have hwf₁ : db₁.Wf ws := hwf.with_mv (mvGc_curVer _ _).ge
  obtain ⟨db', hrun, hpruned, hwf'⟩ := hwf₁.gcPrune db₁.gcKeepId
  obtain ⟨hstable, hcom⟩ := hpruned.invisible fun e he => (hwf₁.chain e he).nonempty
  have hmv : db'.mv = db₁.mv := by rw [hpruned.frame]
  refine ⟨db', hrun, hwf', hmv, ?_, hcom, ?_, ?_, ?_⟩
  · rcases gcKeepId_spec db₁ fun s hs => hpos s (mem_mvGc hs) with ⟨hnil, -⟩ | ⟨h0, hkeep⟩
    · -- nobody is left
      have hnone : ∀ s, s ∉ db'.mv.snaps := by
        rw [hmv, hnil]
        simp
      have hnames := forall₂_names hpruned.ents
      exact ⟨hnames ▸ List.prefix_rfl, fun s hs => absurd hs (hnone s),
        fun s hs => absurd hs (hnone s), fun s hs => absurd hs (hnone s)⟩
    · have h₁ : Stable (· ∈ db'.mv.snaps) db db₁ := (mv_invisible (db.mv.mvGc snap)).1
      exact h₁.trans ((hstable h0).mono fun s hs => hkeep s (hmv ▸ hs))
  · intro a ha
    obtain ⟨-, -, hcw⟩ := List.nodup_append.1 hwf.owned
    exact hpruned.out a fun hc => absurd rfl (hcw a hc a ha)
  · rw [hpruned.frame]
  · rw [hpruned.frame]

theorem freeWorks_spec (h : TxWf db tx others) :
    ∃ heap, freeAll db.heap tx.works = .ok heap ∧ ({ db with heap := heap } : Db).Wf others ∧
      (∀ a ∈ db.chains, heap.get a = db.heap.get a) ∧
      ∀ a ∈ others, heap.get a = db.heap.get a := by
  have howned := h.wf.owned
  have hnd : (db.chains ++ tx.works ++ others).Nodup := by
    rw [List.append_assoc]
    exact howned
  obtain ⟨hcw, hno, hdisj⟩ := List.nodup_append.1 hnd
  obtain ⟨hnc, hnw, hcw'⟩ := List.nodup_append.1 hcw
  obtain ⟨heap, hfree, -, -, hout⟩ := freeAll_spec tx.works db.heap hnw fun a ha => by
    obtain ⟨t, ht, -⟩ := h.wf.works a (List.mem_append_left _ ha)
    exact ⟨t, ht⟩
  have hchain : ∀ a ∈ db.chains, heap.get a = db.heap.get a := fun a ha =>
    hout a fun hw => absurd rfl (hcw' a ha a hw)
  have hothers : ∀ a ∈ others, heap.get a = db.heap.get a := fun a ha =>
    hout a fun hw => absurd rfl (hdisj a (List.mem_append_right _ hw) a ha)
  refine ⟨heap, hfree, ⟨h.wf.names, ?_, ?_, ?_, h.wf.curVer_pos⟩, hchain, hothers⟩
  · refine howned.sublist ((List.Sublist.refl _).append ?_)
    exact List.sublist_append_right _ _
  · exact fun e he => (h.wf.chain e he).congr
      (fun a ha => hchain a (mem_chains.2 ⟨e, he, ha⟩)) (Nat.le_refl _)
  · intro a ha
    obtain ⟨t, ht, hs⟩ := h.wf.works a (List.mem_append_right _ ha)
    exact ⟨t, by rw [← ht]; exact hothers a ha, hs⟩

/-- **Abort**: the working copies go, and nothing else. -/
theorem dbAbort_spec (h : TxWf db tx others) (hpos : ∀ s ∈ db.mv.snaps, 1 ≤ s) :
    ∃ db', db.dbAbort tx = .ok db' ∧ Released db db' tx.snapId others := by
  obtain ⟨heap, hfree, hwf₁, hchain, hothers⟩ := freeWorks_spec h
  obtain ⟨db', hrun, hrel⟩ := release_spec hwf₁ hpos tx.snapId
  refine ⟨db', ?_, hrel.wf, hrel.mv, ?_, ?_, ?_, hrel.maxSql, hrel.maxQry⟩
  · unfold dbAbort
    rw [show (tx.tabs.filterMap fun item => item.work) = tx.works from rfl, hfree]
    exact hrun
  · exact (heap_invisible hchain).1.trans hrel.stable
  · rw [hrel.com, (heap_invisible (S := fun _ => True) hchain).2]
  · intro a ha
    rw [hrel.works a ha]
    exact hothers a ha

end Db

end MiniDbms
