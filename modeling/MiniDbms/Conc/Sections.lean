import MiniDbms.Conc.Work
import MiniDbms.Db.Session

/-!
# Sections of the store under concurrency

Every section of a thread leaves the store in order, does not touch the working
copies and the bases of the other threads, and changes the version chains in one
of the ways of `Versions.Change`.
-/

namespace MiniDbms

open Versions

namespace Db

variable {db db' : Db} {mine mine' others ws : List Nat} {tx tx' : DbTx} {p : Option Nat}

/-! ## What a section does to the store -/

/-- A section of a thread with the working copies `mine`, beside those of the `others`. -/
structure Section (db db' : Db) (mine mine' others : List Nat) (p : Option Nat) : Prop where
  wf : db'.Wf (mine' ++ others)
  names : db.tabs.map TabEnt.name <+: db'.tabs.map TabEnt.name
  works : ∀ a ∈ others, db'.heap.get a = db.heap.get a
  next : db.heap.next ≤ db'.heap.next
  old : ∀ b, b < db.heap.next → b ∉ mine →
    db'.heap.get b = db.heap.get b ∨ db'.heap.get b = none
  fresh : ∀ a ∈ mine', a ∈ mine ∨ db.heap.next ≤ a
  change : ∀ n, Change TabVer.verId db.mv.curVer p (db.vers n) (db'.vers n)
  cur : db.mv.curVer ≤ db'.mv.curVer
  snaps : ∀ s ∈ db'.mv.snaps, s ∈ db.mv.snaps ∨ s = db.mv.curVer

/-- What every section leaves alone while some other thread is in its commit section. -/
structure Quiet (db db' : Db) : Prop where
  frame : db' = { db with heap := db'.heap, mv := db'.mv }
  cur : db'.mv.curVer = db.mv.curVer
  chains : ∀ a ∈ db.chains, db'.heap.get a = db.heap.get a

/-- A transaction outside its commit section; `ws` are the working copies of all threads.
Its bases may have been released, but nobody writes to them. -/
structure Rest (db : Db) (ws : List Nat) (tx : DbTx) : Prop where
  ok : db.TxOk tx
  base : ∀ it ∈ tx.tabs, it.base < db.heap.next ∧ it.base ∉ ws ∧
    ∀ e t, db.tabs[it.ent.idx]? = some e → db.heap.get it.base = some t → t.name = e.name ∧ t.Shape

/-- A transaction in its commit section that has gone through its first `k` items. -/
structure Inst (db : Db) (tx : DbTx) (ver k : Nat) : Prop where
  done : ∀ it ∈ tx.tabs.take k, it.work = none
  ok : db.TxOk ⟨tx.snapId, tx.tabs.drop k⟩
  good : ∀ it ∈ tx.tabs.drop k, it.dirty = true → it.ent.gen = db.tabsGen ∧ db.Below ver it.ent.idx
  cur : ver = db.mv.curVer

theorem Section.refl (h : db.Wf (mine ++ others)) : Section db db mine mine others p where
  wf := h
  names := List.prefix_rfl
  works := fun _ _ => rfl
  next := Nat.le_refl _
  old := fun _ _ _ => Or.inl rfl
  fresh := fun _ ha => Or.inl ha
  change := fun _ => .same _
  cur := Nat.le_refl _
  snaps := fun _ hs => Or.inl hs

theorem Quiet.refl (db : Db) : Quiet db db := ⟨rfl, rfl, fun _ _ => rfl⟩

theorem Section.with_mv (h : db.Wf (mine ++ others)) {mv : Mvcc}
    (hcur : db.mv.curVer ≤ mv.curVer)
    (hsnaps : ∀ s ∈ mv.snaps, s ∈ db.mv.snaps ∨ s = db.mv.curVer) :
    Section db { db with mv := mv } mine mine others p :=
  { Section.refl h with
    wf := h.with_mv hcur
    cur := hcur
    snaps := hsnaps }

theorem Section.of_heap (h : db.Wf (mine ++ others)) {heap : Heap TabVer}
    (hwf : ({ db with heap := heap } : Db).Wf (mine' ++ others)) (hnext : db.heap.next ≤ heap.next)
    (hold : ∀ b, b < db.heap.next → b ∉ mine → heap.get b = db.heap.get b)
    (hfresh : ∀ a ∈ mine', a ∈ mine ∨ db.heap.next ≤ a) :
    Section db { db with heap := heap } mine mine' others p ∧ Quiet db { db with heap := heap } := by
  have hlt : ∀ a ∈ db.chains ++ (mine ++ others), a < db.heap.next := fun a ha => by
    obtain ⟨t, ht, -⟩ := h.live ha
    exact Heap.lt_next_of_get ht
  obtain ⟨-, hmo, hdisj⟩ := List.nodup_append.1 h.owned
  have hchains : ∀ a ∈ db.chains, heap.get a = db.heap.get a := fun a ha =>
    hold a (hlt a (List.mem_append_left _ ha)) fun hm =>
      absurd rfl (hdisj a ha a (List.mem_append_left _ hm))
  refine ⟨⟨hwf, List.prefix_rfl, ?_, hnext, fun b hb hm => Or.inl (hold b hb hm), hfresh, ?_,
    Nat.le_refl _, fun _ hs => Or.inl hs⟩, ⟨rfl, rfl, hchains⟩⟩
  · intro a ha
    exact hold a (hlt a (List.mem_append_right _ (List.mem_append_right _ ha))) fun hm =>
      absurd rfl ((List.nodup_append.1 hmo).2.2 a hm a ha)
  · intro n
    rw [vers_heap hchains n]
    exact .same _

theorem Section.needEnt (h : db.Wf (mine ++ others)) {name : Bytes} {r : Option Nat}
    (hrun : db.needEnt name = .ok (r, db')) : Section db db' mine mine others p := by
  have hchange := fun n => h.vers_needEnt hrun db.mv.curVer p n
  have hc := db.needEnt_cases name
  rw [hrun] at hc
  cases hc with
  | there hg => exact Section.refl h
  | missing hg hl => exact Section.refl h
  | @loaded tab hg hl =>
      obtain ⟨hwf, hext⟩ := h.addTab hg hl
      have hheap := db.addTab_heap name tab
      refine ⟨hwf, ?_, ?_, ?_, ?_, fun _ ha => Or.inl ha, hchange, ?_, ?_⟩
      · rw [addTab_tabs, List.map_append]
        exact List.prefix_append _ _
      · intro a ha
        obtain ⟨t, ht, -⟩ := h.works a (List.mem_append_right _ ha)
        rw [hext.heap a t ht, ht]
      · rw [hheap, Heap.next_alloc]
        exact Nat.le_succ _
      · intro b hb _
        rw [hheap, Heap.get_alloc_of_lt tab hb]
        exact Or.inl rfl
      · rw [hext.mv]
      · intro s hs
        rw [hext.mv] at hs
        exact Or.inl hs

theorem Section.prune (h : db.Wf (mine ++ others)) {keep : Nat}
    (hrun : db.gcPrune keep = .ok db') : Section db db' mine mine others (some keep) := by
  obtain ⟨db₁, hrun₁, hp, hwf⟩ := h.gcPrune keep
  rw [hrun] at hrun₁
  cases hrun₁
  obtain ⟨-, -, hdisj⟩ := List.nodup_append.1 h.owned
  have hmv : db'.mv = db.mv := by rw [hp.frame]
  refine ⟨hwf, (forall₂_names hp.ents) ▸ List.prefix_rfl, ?_, hp.next.ge, ?_,
    fun _ ha => Or.inl ha, fun n => .prune rfl (h.vers_gcPrune hrun n), hmv ▸ Nat.le_refl _, ?_⟩
  · exact fun a ha => hp.out a fun hc => absurd rfl (hdisj a hc a (List.mem_append_right _ ha))
  · exact fun b _ _ => gcPrune_get hrun b
  · intro s hs
    rw [hmv] at hs
    exact Or.inl hs

/-! ## What leaves the counter alone -/

theorem needEnt_mv {name : Bytes} {r : Option Nat} (h : db.needEnt name = .ok (r, db')) : db'.mv = db.mv := by
  have hc := db.needEnt_cases name
  rw [h] at hc
  cases hc with
  | there hg => rfl
  | missing hg hl => rfl
  | @loaded tab hg hl =>
      unfold addTab addEnt
      split
      · rfl
      · rfl

theorem txView_mv {name : Bytes} (hwf : db.Wf ws) {item? : Option Nat}
    (h : db.txView tx name = .ok (item?, db', tx')) : db'.mv = db.mv := by
  have hc := txView_cases hwf tx name
  rw [h] at hc
  cases hc with
  | found => rfl
  | missing => rfl
  | unseen hnew hneed => exact needEnt_mv hneed
  | viewed hnew hneed hv => exact needEnt_mv hneed

theorem RunCase.mv {stmt : Statement} {item? : Option Nat} {ok : Bool}
    (h : RunCase db tx item? stmt db' tx' ok) : db'.mv = db.mv := by
  cases h with
  | read => rfl
  | failed => rfl
  | first => rfl
  | again => rfl

theorem gcPrune_mv {keep : Nat} (h : db.gcPrune keep = .ok db') : db'.mv = db.mv := by
  unfold gcPrune at h
  cases hr : pruneTabs keep db db.tabs with
  | error f =>
      rw [hr] at h
      cases h
  | ok r =>
      rw [hr] at h
      cases h
      rfl

/-! ## What the other threads notice -/

theorem Stable.of_names (h : db.tabs.map TabEnt.name <+: db'.tabs.map TabEnt.name) :
    Stable (fun _ => False) db db' :=
  ⟨h, fun _ hs => hs.elim, fun _ hs => hs.elim, fun _ hs => hs.elim⟩

/-- Nobody writes to the bases of a transaction. -/
theorem Rest.base_kept (h : Rest db (mine ++ others) tx)
    (hs : Section db db' mine mine' others p) {it : TxTab} (hit : it ∈ tx.tabs) :
    it.base < db'.heap.next ∧ it.base ∉ mine' ++ others ∧ ∀ e t, db'.tabs[it.ent.idx]? = some e →
      db'.heap.get it.base = some t → t.name = e.name ∧ t.Shape := by
  obtain ⟨hlt, hnot, hbase⟩ := h.base it hit
  refine ⟨hlt.trans_le hs.next, ?_, ?_⟩
  · intro hmem
    rcases List.mem_append.1 hmem with hm | hm
    · rcases hs.fresh it.base hm with hm | hm
      · exact hnot (List.mem_append_left _ hm)
      · omega
    · exact hnot (List.mem_append_right _ hm)
  · intro e' t he' ht
    obtain ⟨e, he, -⟩ := h.ok.ents it hit
    obtain ⟨e'', he'', hname⟩ := (Stable.of_names hs.names).ent he
    rw [he'] at he''
    cases he''
    rcases hs.old it.base hlt fun hm => hnot (List.mem_append_left _ hm) with hget | hget
    · rw [hget] at ht
      rw [hname]
      exact hbase e t he ht
    · rw [hget] at ht
      cases ht

theorem Rest.other (h : Rest db (mine ++ others) tx) (hs : Section db db' mine mine' others p)
    (hsub : ∀ a ∈ tx.works, a ∈ others) : Rest db' (mine' ++ others) tx := by
  obtain ⟨hok, -⟩ := h.ok.stable (Stable.of_names hs.names) fun a ha => hs.works a (hsub a ha)
  exact ⟨hok, fun it hit => h.base_kept hs hit⟩

theorem Rest.own (h : Rest db (mine ++ others) tx) (hs : Section db db' mine mine' others p)
    (hok : db'.TxOk tx')
    (hitems : ∀ x ∈ tx'.tabs, ∃ y ∈ tx.tabs, x.ent = y.ent ∧ x.base = y.base) :
    Rest db' (mine' ++ others) tx' := by
  refine ⟨hok, fun x hx => ?_⟩
  obtain ⟨y, hy, hent, hbase⟩ := hitems x hx
  rw [hent, hbase]
  exact h.base_kept hs hy

theorem Inst.other {ver k : Nat} (h : Inst db tx ver k)
    (hs : Section db db' mine mine' others p) (hq : Quiet db db')
    (hsub : ∀ a ∈ tx.works, a ∈ others) : Inst db' tx ver k := by
  have hdrop : ∀ a ∈ (⟨tx.snapId, tx.tabs.drop k⟩ : DbTx).works, a ∈ tx.works := by
    intro a ha
    obtain ⟨it, hit, hw⟩ := List.mem_filterMap.1 ha
    exact mem_works (List.mem_of_mem_drop hit) hw
  obtain ⟨hok, -⟩ := h.ok.stable (Stable.of_names hs.names) fun a ha =>
    hs.works a (hsub a (hdrop a ha))
  refine ⟨h.done, hok, ?_, h.cur.trans hq.cur.symm⟩
  intro it hit hd
  obtain ⟨hgen, hbelow⟩ := h.good it hit hd
  rw [hq.frame]
  refine ⟨hgen, ?_⟩
  intro e he b hb t ht
  have ht' : db'.heap.get b = some t := ht
  rw [hq.chains b (mem_chains.2 ⟨e, List.mem_of_getElem? he, hb⟩)] at ht'
  exact hbelow e he b hb t ht'

/-! ## Private work -/

theorem Rest.txwf (h : Rest db ws tx) (hwf : db.Wf (tx.works ++ others)) : TxWf db tx others :=
  ⟨hwf, h.ok⟩

theorem Writes.shape {stmt : Statement} {tab tab' : TabVer} {ok : Bool}
    (h : Writes stmt tab tab' ok) (hs : tab.Shape) : tab'.Shape ∧ tab'.name = tab.name := by
  obtain ⟨res, res', t, hrun, rfl⟩ := h
  obtain ⟨hshape, hschema⟩ := TabVer.Shape.execStmt hs hrun
  split
  · exact ⟨hshape, hschema.name⟩
  · exact ⟨hs, rfl⟩

theorem works_set {i a : Nat} {it : TxTab} (b : Nat)
    (hb : b ∈ ({ tx with tabs := tx.tabs.set i { it with work := some a, dirty := true } } : DbTx).works) :
    b = a ∨ b ∈ tx.works := by
  obtain ⟨x, hx, hw⟩ := List.mem_filterMap.1 hb
  rcases List.mem_or_eq_of_mem_set hx with hx | rfl
  · exact Or.inr (mem_works hx hw)
  · cases hw
    exact Or.inl rfl

/-- **The private execution of a statement.** -/
theorem RunCase.section {stmt : Statement} {item? : Option Nat} {ok : Bool}
    (h : RunCase db tx item? stmt db' tx' ok) (hrest : Rest db (tx.works ++ others) tx)
    (hwf : db.Wf (tx.works ++ others)) :
    Section db db' tx.works tx'.works others p ∧ Quiet db db' ∧
      Rest db' (tx'.works ++ others) tx' ∧ tx'.snapId = tx.snapId := by
  cases h with
  | read => exact ⟨Section.refl hwf, Quiet.refl _, hrest, rfl⟩
  | failed => exact ⟨Section.refl hwf, Quiet.refl _, hrest, rfl⟩
  | @first i it base tab tab' _ _ hi hw hbase hclone hrun =>
      have hit := List.mem_of_getElem? hi
      obtain ⟨e, he, -⟩ := hrest.ok.ents it hit
      obtain ⟨hlt, -, hgood⟩ := hrest.base it hit
      obtain ⟨hname, hshape⟩ := hgood e base he hbase
      obtain ⟨hcshape, hschema⟩ := TabVer.Shape.tabClone hshape hclone
      obtain ⟨hwshape, hwname⟩ := hrun.shape hcshape
      obtain ⟨htx₁, -, -⟩ := (hrest.txwf hwf).make_work hi he (hschema.name.trans hname) hcshape
      have hi₁ : (tx.tabs.set i { it with work := some db.heap.next, dirty := true })[i]? =
          some { it with work := some db.heap.next, dirty := true } :=
        List.getElem?_set_self (List.getElem?_eq_some_iff.1 hi).1
      obtain ⟨htx₂, -, -⟩ := htx₁.set_work hi₁ rfl he
        (hwname.trans (hschema.name.trans hname)) hwshape
      have hnext : db.heap.next ≤ ((db.heap.alloc tab).set db.heap.next tab').next := by
        rw [Heap.next_set, Heap.next_alloc]
        exact Nat.le_succ _
      have hold : ∀ b, b < db.heap.next →
          ((db.heap.alloc tab).set db.heap.next tab').get b = db.heap.get b := by
        intro b hb
        rw [Heap.get_set_of_ne _ _ (Nat.ne_of_lt hb), Heap.get_alloc_of_lt _ hb]
      obtain ⟨hsec, hq⟩ := Section.of_heap hwf htx₂.wf hnext (fun b hb _ => hold b hb)
        fun b hb => (works_set b hb).elim (fun h => Or.inr h.ge) Or.inl
      refine ⟨hsec, hq, hrest.own hsec htx₂.ok ?_, rfl⟩
      intro x hx
      rcases List.mem_or_eq_of_mem_set hx with hx | rfl
      · exact ⟨x, hx, rfl, rfl⟩
      · exact ⟨it, hit, rfl, rfl⟩
  | @again i a it tab tab' _ _ hi hw hget hrun =>
      have hit := List.mem_of_getElem? hi
      obtain ⟨e, he, hname⟩ := hrest.ok.ents it hit
      have ha := mem_works hit hw
      obtain ⟨t, ht, hshape⟩ := hwf.works a (List.mem_append_left _ ha)
      rw [hget] at ht
      cases ht
      obtain ⟨hwshape, hwname⟩ := hrun.shape hshape
      obtain ⟨htx₁, -, -⟩ := (hrest.txwf hwf).set_work hi hw he
        (hwname.trans (hname a tab hw hget)) hwshape
      obtain ⟨hsec, hq⟩ := Section.of_heap hwf htx₁.wf (Heap.next_set _ _ _).ge
        (fun b _ hb => Heap.get_set_of_ne _ _ fun hba => hb (hba ▸ ha)) fun b hb => Or.inl hb
      exact ⟨hsec, hq, hrest.own hsec htx₁.ok fun x hx => ⟨x, hx, rfl, rfl⟩, rfl⟩

/-- **The working copies are released.** -/
theorem Rest.abort (h : Rest db (tx.works ++ others) tx) (hwf : db.Wf (tx.works ++ others))
    {heap : Heap TabVer} (hrun : freeAll db.heap tx.works = .ok heap) :
    Section db { db with heap := heap } tx.works [] others p ∧
      Quiet db { db with heap := heap } := by
  obtain ⟨heap₁, hrun₁, hwf₁, -, -⟩ := freeWorks_spec (h.txwf hwf)
  rw [hrun] at hrun₁
  cases hrun₁
  have hnd := (List.nodup_append.1 (List.nodup_append.1 hwf.owned).2.1).1
  obtain ⟨heap₂, hrun₂, hnext, -, hout⟩ := freeAll_spec tx.works db.heap hnd fun a ha => by
    obtain ⟨t, ht, -⟩ := hwf.works a (List.mem_append_left _ ha)
    exact ⟨t, ht⟩
  rw [hrun] at hrun₂
  cases hrun₂
  exact Section.of_heap hwf hwf₁ hnext.ge (fun b _ hb => hout b hb) (by simp)

/-- **The `tx_view` section.** -/
theorem Rest.view (h : Rest db (tx.works ++ others) tx) (hwf : db.Wf (tx.works ++ others))
    {name : Bytes} {item? : Option Nat} (hrun : db.txView tx name = .ok (item?, db', tx')) :
    Section db db' tx.works tx'.works others p ∧ Rest db' (tx'.works ++ others) tx' ∧
      tx'.snapId = tx.snapId := by
  have hc := txView_cases hwf tx name
  rw [hrun] at hc
  cases hc with
  | found => exact ⟨Section.refl hwf, h, rfl⟩
  | missing => exact ⟨Section.refl hwf, h, rfl⟩
  | unseen hnew hneed =>
      have hsec : Section db db' tx.works tx.works others p := Section.needEnt hwf hneed
      have hworks : ∀ a ∈ tx.works, db'.heap.get a = db.heap.get a :=
        (needEnt_private hwf hneed tx.works fun a ha => List.mem_append_left _ ha).2.1.works
      obtain ⟨hok, -⟩ := h.ok.stable (Stable.of_names hsec.names) hworks
      exact ⟨hsec, h.own hsec hok fun x hx => ⟨x, hx, rfl, rfl⟩, rfl⟩
  | @viewed k base _ hnew hneed hv =>
      have hsec : Section db db' tx.works tx.works others p := Section.needEnt hwf hneed
      have hok : db'.TxOk { tx with tabs := tx.tabs ++ [⟨⟨db'.tabsGen, k⟩, base, none, false⟩] } :=
        (TxOk.viewed hwf h.ok hnew (fun a ha => List.mem_append_left _ ha) hneed).1
      rw [works_append_view]
      refine ⟨hsec, ⟨hok, ?_⟩, rfl⟩
      intro it hit
      rcases List.mem_append.1 hit with hit | hit
      · exact h.base_kept hsec hit
      · rw [List.mem_singleton.1 hit]
        -- a visible version is one of the chain
        obtain ⟨e, he, hvis⟩ := Option.bind_eq_some_iff.1 hv
        have hmem := (visOf_mem hvis).1
        have hchain : base ∈ db'.chains := mem_chains.2 ⟨e, List.mem_of_getElem? he, hmem⟩
        obtain ⟨t, ht, hname, hshape, -⟩ := (hsec.wf.chain e (List.mem_of_getElem? he)).live _ hmem
        refine ⟨Heap.lt_next_of_get ht, fun hw => ?_, fun e' t' he' ht' => ?_⟩
        · exact absurd rfl ((List.nodup_append.1 hsec.wf.owned).2.2 base hchain base hw)
        · rw [show db'.tabs[k]? = some e' from he'] at he
          rw [show db'.heap.get base = some t' from ht'] at ht
          cases he
          cases ht
          exact ⟨hname, hshape⟩

/-! ## The commit section -/

theorem Rest.start (h : Rest db (tx.works ++ others) tx) (hwf : db.Wf (tx.works ++ others))
    (hrun : db.commitCheck tx.tabs = .ok true) :
    Inst { db with mv := db.mv.mvBump } tx db.mv.mvBump.curVer 0 := by
  rcases commitCheck_cases db tx.tabs with ⟨-, hcur⟩ | ⟨hcheck, -⟩ | ⟨hcheck, -⟩
  · obtain ⟨htxwf, hgood, -, -⟩ := Installing.start (h.txwf hwf) hcur
    exact ⟨by simp, htxwf.ok, hgood, rfl⟩
  · rw [hrun] at hcheck
    cases hcheck
  · rw [hrun] at hcheck
    cases hcheck

theorem Inst.works_eq {ver k : Nat} (h : Inst db tx ver k) :
    tx.works = (⟨tx.snapId, tx.tabs.drop k⟩ : DbTx).works := by
  have hnone : (tx.tabs.take k).filterMap TxTab.work = [] :=
    List.filterMap_eq_nil_iff.2 h.done
  unfold DbTx.works
  conv_lhs => rw [← List.take_append_drop k tx.tabs, List.filterMap_append, hnone]
  rfl

theorem Inst.installing {ver k : Nat} (h : Inst db tx ver k) (hwf : db.Wf (tx.works ++ others)) :
    Installing db tx.snapId (tx.tabs.drop k) others ver := by
  rw [h.works_eq] at hwf
  exact ⟨⟨hwf, h.ok⟩, h.good, h.cur ▸ hwf.curVer_pos, h.cur.le⟩

theorem Inst.works_nil {ver k : Nat} (h : Inst db tx ver k) (hk : tx.tabs[k]? = none) :
    tx.works = [] := by
  rw [h.works_eq, List.drop_eq_nil_of_le (List.getElem?_eq_none_iff.1 hk)]
  rfl

theorem Inst.skip {ver k : Nat} {it : TxTab} (h : Inst db tx ver k)
    (hwf : db.Wf (tx.works ++ others)) (hk : tx.tabs[k]? = some it) (hd : it.dirty = false) :
    Inst db tx ver (k + 1) := by
  obtain ⟨hlt, rfl⟩ := List.getElem?_eq_some_iff.1 hk
  have hinst := h.installing hwf
  rw [List.drop_eq_getElem_cons hlt] at hinst
  obtain ⟨⟨⟨-, hok⟩, hgood, -, -⟩, -⟩ := hinst.skip hd
  refine ⟨?_, hok, hgood, h.cur⟩
  intro it hit
  rw [List.take_succ_eq_append_getElem hlt] at hit
  rcases List.mem_append.1 hit with hit | hit
  · exact h.done it hit
  · rw [List.mem_singleton.1 hit]
    have := hinst.txwf.ok.dirty _ List.mem_cons_self
    rw [hd] at this
    simpa using this.symm

/-- **An item is published.** -/
theorem Inst.install {ver k : Nat} {it it' : TxTab} {saved : Bool} (h : Inst db tx ver k)
    (hwf : db.Wf (tx.works ++ others)) (hk : tx.tabs[k]? = some it) (hd : it.dirty = true)
    (hrun : db.commitInstall it ver .ok = .ok (db', it', saved)) :
    ∃ a e tab, it.work = some a ∧ db.entAt it.ent = .ok e ∧
      Ready db ((⟨tx.snapId, tx.tabs.drop (k + 1)⟩ : DbTx).works ++ others) it.ent.idx a e tab ver ∧
      db' = db.installed it.ent.idx a e tab ver ∧ it' = { it with work := none } ∧
      Section db db' tx.works ({ tx with tabs := tx.tabs.set k it' } : DbTx).works others p ∧
      Inst db' { tx with tabs := tx.tabs.set k it' } ver (k + 1) := by
  obtain ⟨hlt, hget⟩ := List.getElem?_eq_some_iff.1 hk
  have hinst := h.installing hwf
  rw [List.drop_eq_getElem_cons hlt, hget] at hinst
  obtain ⟨a, e, tab, hw, hent, hr⟩ := hinst.ready hd
  rw [commitInstall_ok hw hr.work hent] at hrun
  cases hrun
  obtain ⟨⟨⟨hwf', hok'⟩, hgood', -, -⟩, -⟩ := hinst.install hr hw
  have hdrop : (tx.tabs.set k { it with work := none }).drop (k + 1) = tx.tabs.drop (k + 1) :=
    List.drop_set_of_lt (Nat.lt_succ_self k)
  have hnew : Inst (db.installed it.ent.idx a e tab ver)
      { tx with tabs := tx.tabs.set k { it with work := none } } ver (k + 1) := by
    refine ⟨?_, ?_, ?_, h.cur⟩
    · intro x hx
      dsimp only at hx
      rw [List.take_set, List.take_succ_eq_append_getElem hlt] at hx
      have hlen : (tx.tabs.take k).length = k := by
        rw [List.length_take]
        omega
      rw [List.set_append_right _ _ hlen.le, hlen, Nat.sub_self] at hx
      rcases List.mem_append.1 hx with hx | hx
      · exact h.done x hx
      · rw [List.mem_singleton.1 hx]
    · dsimp only
      rw [hdrop]
      exact hok'
    · dsimp only
      rw [hdrop]
      exact hgood'
  have hworks : ({ tx with tabs := tx.tabs.set k { it with work := none } } : DbTx).works =
      (⟨tx.snapId, tx.tabs.drop (k + 1)⟩ : DbTx).works := by
    rw [hnew.works_eq]
    dsimp only
    rw [hdrop]
  have hmine : tx.works = a :: (⟨tx.snapId, tx.tabs.drop (k + 1)⟩ : DbTx).works := by
    rw [h.works_eq, List.drop_eq_getElem_cons hlt, hget]
    exact List.filterMap_cons_some hw
  refine ⟨a, e, tab, hw, hent, hr, rfl, rfl, ?_, hnew⟩
  rw [hworks, hmine]
  refine ⟨hwf', hr.names ▸ List.prefix_rfl, ?_, (Heap.next_set _ _ _).ge, ?_, ?_,
    hr.vers_change h.cur p, Nat.le_refl _, fun _ hs => Or.inl hs⟩
  · exact fun b hb => hr.get_other (List.mem_append_right _ (List.mem_append_right _ hb))
  · intro b _ hb
    refine Or.inl (Heap.get_set_of_ne _ _ ?_)
    rintro rfl
    exact hb List.mem_cons_self
  · exact fun b hb => Or.inl (List.mem_cons_of_mem _ hb)

/-! ## Reads -/

/-- **`db_tab_ver`** finds the version of the head. -/
theorem dbTabVer_section {name : Bytes} {ver : Nat} (hwf : db.Wf (mine ++ others))
    (hrun : db.dbTabVer name = .ok (ver, db')) :
    Section db db' mine mine others p ∧ db'.mv = db.mv ∧
      (0 < ver → ∃ t, (db'.vers name).head? = some t ∧ t.verId = ver) := by
  unfold dbTabVer at hrun
  split at hrun
  · cases hrun
    exact ⟨Section.refl hwf, rfl, by simp⟩
  · cases hn : db.needEnt name with
    | error f =>
        simp only [bind, Except.bind, hn] at hrun
        cases hrun
    | ok r =>
        obtain ⟨k?, db₁⟩ := r
        have hsec : Section db db₁ mine mine others p := Section.needEnt hwf hn
        have hmv := needEnt_mv hn
        simp only [bind, Except.bind, hn] at hrun
        cases k? with
        | none =>
            cases hrun
            exact ⟨hsec, hmv, by simp⟩
        | some k =>
            obtain ⟨-, -, -, e, he, rfl⟩ := needEnt_private hwf hn [] (by simp)
            have hok := hsec.wf.chain e (List.mem_of_getElem? he)
            obtain ⟨a, rest, hc⟩ := List.exists_cons_of_ne_nil hok.nonempty
            obtain ⟨t, ht, -⟩ := hok.live a (hc ▸ List.mem_cons_self)
            have hver : db₁.ver a = .ok t := by simp [Db.ver, ht]
            have hent : db₁.entAt ⟨db₁.tabsGen, k⟩ = .ok e := entAt_fresh rfl he
            simp only [hent, hc, List.head?_cons, hver] at hrun
            cases hrun
            refine ⟨hsec, hmv, fun _ => ⟨t, ?_, rfl⟩⟩
            rw [hsec.wf.vers_ent he, hc, List.filterMap_cons_some ht]
            rfl

/-- **`do_read`** runs its statement on the version the snapshot sees. -/
theorem doRead_section {snap : Nat} {sql : Bytes} {res : DbRes} {ok : Bool}
    (hwf : db.Wf (mine ++ others)) (hrun : db.doRead snap sql = .ok (db', res, ok)) :
    Section db db' mine mine others p ∧ db'.mv = db.mv ∧ (ok = true → ∃ stmt tab tab', db.parseOk sql = .ok stmt ∧
      visible TabVer.verId snap (db'.vers stmt.tableName.bytes) = some tab ∧
      tab.execStmt stmt { snapId := snap } = .ok (tab', res, true)) := by
  unfold doRead at hrun
  cases hp : db.parseOk sql with
  | error err =>
      rw [hp] at hrun
      cases hrun
      exact ⟨Section.refl hwf, rfl, by simp⟩
  | ok stmt =>
      rw [hp] at hrun
      dsimp only at hrun
      split at hrun
      · cases hrun
        exact ⟨Section.refl hwf, rfl, by simp⟩
      · rename_i hsel
        have hrd : stmt.isWr = false := by
          unfold Statement.isWr
          rw [not_not.1 hsel]
          rfl
        unfold readTab at hrun
        cases hn : db.needEnt stmt.tableName.bytes with
        | error f =>
            simp only [bind, Except.bind, hn] at hrun
            cases hrun
        | ok r =>
            obtain ⟨k?, db₁⟩ := r
            have hsec : Section db db₁ mine mine others p := Section.needEnt hwf hn
            have hmv := needEnt_mv hn
            simp only [bind, Except.bind, hn] at hrun
            cases k? with
            | none =>
                cases hrun
                exact ⟨hsec, hmv, by simp⟩
            | some k =>
                obtain ⟨-, -, -, e, he, hname⟩ := needEnt_private hwf hn [] (by simp)
                have hok := hsec.wf.chain e (List.mem_of_getElem? he)
                have hlive : ∀ a ∈ e.chain, ∃ t, db₁.heap.get a = some t := fun a ha => by
                  obtain ⟨t, ht, -⟩ := hok.live a ha
                  exact ⟨t, ht⟩
                have hent : db₁.entAt ⟨db₁.tabsGen, k⟩ = .ok e := entAt_fresh rfl he
                simp only [hent, tabVis_eq snap hlive] at hrun
                cases hv : visOf db₁.heap snap e.chain with
                | none =>
                    rw [hv] at hrun
                    cases hrun
                    exact ⟨hsec, hmv, by simp⟩
                | some a =>
                    rw [hv] at hrun
                    obtain ⟨tab, ht⟩ := hlive a (visOf_mem hv).1
                    have hver : db₁.ver a = .ok tab := by simp [Db.ver, ht]
                    unfold execAt at hrun
                    simp only [bind, Except.bind, pure, Except.pure, hver] at hrun
                    cases hx : tab.execStmt stmt { snapId := snap } with
                    | error f =>
                        rw [hx] at hrun
                        cases hrun
                    | ok r =>
                        obtain ⟨tab', res', ok'⟩ := r
                        rw [hx] at hrun
                        simp only [hrd, Bool.false_eq_true, if_false] at hrun
                        cases hrun
                        refine ⟨hsec, hmv, fun hok => ⟨stmt, tab, tab', rfl, ?_, hok ▸ hx⟩⟩
                        rw [← hname, hsec.wf.vers_ent he, visible_chain hlive, hv, Option.bind_some,
                          ht]

end Db

end MiniDbms
