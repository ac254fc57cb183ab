import MiniDbms.Db.Ideal
import MiniDbms.Lib.Outcome

/-!
# The calls on a transaction

`db_txdo`, `do_read`, `db_commit`, `db_exec` and `db_batch` do to the store what
the abstract database does, as far as they are defined at all.
-/

namespace MiniDbms

namespace Db

variable {db db' : Db} {ws others : List Nat} {tx tx' : DbTx} {name : Bytes}

/-! ## Open transactions -/

/-- A transaction of the store that can be used. -/
structure OpenTx (db : Db) (tx : DbTx) (others : List Nat) : Prop where
  txwf : TxWf db tx others
  base : db.BaseOk tx
  pos : 1 ≤ tx.snapId
  sees : db.Sees tx.snapId

/-- No registry pointer of the transaction is dangling. -/
def Fresh (db : Db) (tx : DbTx) : Prop := ∀ it ∈ tx.tabs, it.ent.gen = db.tabsGen

instance (db : Db) (tx : DbTx) : Decidable (db.Fresh tx) :=
  inferInstanceAs (Decidable (∀ it ∈ tx.tabs, _))

/-- A table that is not loaded yet has a file that `load_hdr` copes with. -/
def Loads (db : Db) (name : Bytes) : Prop :=
  db.getEnt name = none → tabLoad name (db.files name) ≠ .error .ukOverflow

instance (db : Db) (name : Bytes) : Decidable (db.Loads name) :=
  inferInstanceAs (Decidable (_ → _ ≠ _))

theorem OpenTx.fresh_entAt (h : OpenTx db tx others) (hf : db.Fresh tx) {it : TxTab}
    (hit : it ∈ tx.tabs) : ∃ e, db.entAt it.ent = .ok e := by
  obtain ⟨e, he, -⟩ := h.txwf.ok.ents it hit
  exact ⟨e, entAt_fresh (hf it hit) he⟩

theorem OpenTx.private (h : OpenTx db tx others) (hwf : db'.Wf (tx.works ++ others))
    (hp : Private (tx.works ++ others) db db') :
    OpenTx db' tx others ∧ db'.absTx tx = db.absTx tx := by
  obtain ⟨htx, hwork⟩ := h.txwf.stable hwf hp
  refine ⟨⟨htx, h.base.private hp h.pos, h.pos, hp.stable.sees _ h.pos h.sees⟩, ?_⟩
  unfold absTx
  rw [hwork, hp.stable.seen _ h.pos]

/-- Item `i` of the transaction stands for a table. -/
def Viewed (db : Db) (tx : DbTx) (name : Bytes) (i : Nat) : Prop :=
  ∃ it e, tx.tabs[i]? = some it ∧ db.tabs[it.ent.idx]? = some e ∧ e.name = name

/-- What `tx_view` finds. -/
inductive ViewCase (db : Db) (tx : DbTx) (name : Bytes) (others : List Nat) :
    Except Fault (Option Nat × Db × DbTx) → Prop
  | stale (h : ¬ db.Fresh tx) : ViewCase db tx name others (.error .staleEnt)
  | fault (h : ¬ db.Loads name) : ViewCase db tx name others (.error .ukOverflow)
  | missing (h : (db.absTx tx).seen name = none) (hw : (db.absTx tx).work name = none) :
      ViewCase db tx name others (.ok (none, db, tx))
  | viewed {i : Nat} {db' : Db} {tx' : DbTx} (hopen : OpenTx db' tx' others)
      (hp : Private others db db') (hext : Ext db db') (habs : db'.absTx tx' = db.absTx tx)
      (hv : db'.Viewed tx' name i)
      (hnew : ∀ it ∈ tx'.tabs, it ∈ tx.tabs ∨ it.ent.gen = db'.tabsGen) :
      ViewCase db tx name others (.ok (some i, db', tx'))

theorem txView_spec (h : OpenTx db tx others) (name : Bytes) :
    ViewCase db tx name others (db.txView tx name) := by
  have hc := txView_cases h.txwf.wf tx name
  generalize db.txView tx name = r at hc
  cases hc with
  | @found i it hi hfind =>
      have hn := List.find?_some hfind
      obtain ⟨e, he, hname⟩ := named_iff.1 hn
      exact .viewed h (Private.refl _ _) (Ext.refl _) rfl ⟨it, e, hi, he, hname⟩
        fun _ hx => Or.inl hx
  | @stale it hit hs =>
      refine .stale fun hf => ?_
      obtain ⟨e, he⟩ := h.fresh_entAt hf hit
      rw [he] at hs
      cases hs
  | fault hnew hneed =>
      refine .fault fun hl => ?_
      have hc := db.needEnt_cases name
      rw [hneed] at hc
      cases hc with
      | fault hg herr => exact hl hg herr
  | missing hnew hneed =>
      obtain ⟨-, hg, hload⟩ := needEnt_none hneed
      refine .missing ?_ ?_
      · change db.seen tx.snapId name = none
        unfold seen loadable
        rw [hg, hload]
      · change db.txWork tx name = none
        unfold txWork
        rw [List.find?_eq_none.2 (by simpa using hnew)]
        rfl
  | @unseen k db' hnew hneed hv =>
      obtain ⟨-, hp, -, e, he, -⟩ := needEnt_private h.txwf.wf hneed [] (by simp)
      obtain ⟨a, ha⟩ := hp.stable.sees _ h.pos h.sees k e he
      rw [hv] at ha
      cases ha
  | @viewed k base db' hnew hneed hv =>
      obtain ⟨hwf', hp, hext, e, he, hname⟩ :=
        needEnt_private h.txwf.wf hneed (tx.works ++ others) fun a ha => ha
      obtain ⟨hok, hwork⟩ : db'.TxOk { tx with
          tabs := tx.tabs ++ [⟨⟨db'.tabsGen, k⟩, base, none, false⟩] } ∧ _ :=
        h.txwf.ok.viewed h.txwf.wf hnew (fun a ha => List.mem_append_left _ ha) hneed
      refine .viewed ⟨⟨?_, hok⟩, ?_, h.pos, hp.stable.sees _ h.pos h.sees⟩
        (hp.mono fun a ha => List.mem_append_right _ ha) hext ?_ ?_ ?_
      · rw [works_append_view]
        exact hwf'
      · intro it hit
        rcases List.mem_append.1 hit with hit | hit
        · exact hp.stable.vis _ h.pos _ _ (h.base it hit)
        · rw [List.mem_singleton.1 hit]
          exact hv
      · unfold absTx
        rw [hwork]
        dsimp only
        rw [hp.stable.seen _ h.pos]
      · refine ⟨⟨⟨db'.tabsGen, k⟩, base, none, false⟩, e, ?_, he, hname⟩
        simp
      · intro it hit
        rcases List.mem_append.1 hit with hit | hit
        · exact Or.inl hit
        · rw [List.mem_singleton.1 hit]
          exact Or.inr rfl

/-! ## Statements -/

/-- An item of an open transaction with what its pointers lead to. -/
structure ItemAt (db : Db) (tx : DbTx) (name : Bytes) (i : Nat) (it : TxTab) (e : TabEnt)
    (base : TabVer) : Prop where
  item : tx.tabs[i]? = some it
  ent : db.tabs[it.ent.idx]? = some e
  ent_name : e.name = name
  get : db.heap.get it.base = some base
  base_name : base.name = name
  shape : base.Shape
  work : (db.absTx tx).work name = it.work.bind db.heap.get
  seen : (db.absTx tx).seen name = some base

theorem Viewed.itemAt {i : Nat} (hv : db.Viewed tx name i) (h : OpenTx db tx others) :
    ∃ it e base, ItemAt db tx name i it e base := by
  obtain ⟨it, e, hi, he, hname⟩ := hv
  have hit := List.mem_of_getElem? hi
  have hvis := h.base it hit
  obtain ⟨e', he', hvis'⟩ := Option.bind_eq_some_iff.1 hvis
  rw [he] at he'
  cases he'
  obtain ⟨hmem, -⟩ := visOf_mem hvis'
  obtain ⟨base, hbase, hbn, hshape, -⟩ := (h.txwf.wf.chain e (List.mem_of_getElem? he)).live _ hmem
  refine ⟨it, e, base, hi, he, hname, hbase, hbn.trans hname, hshape, ?_, ?_⟩
  · obtain ⟨A, B, htabs, -, -⟩ := split_at hi
    obtain ⟨snap, tabs⟩ := tx
    dsimp only at htabs
    subst htabs
    have hn : db.named name it = true := named_iff.2 ⟨e, he, hname⟩
    have hsplit := txWork_split h.txwf.wf h.txwf.ok hn name
    rw [if_pos rfl] at hsplit
    exact hsplit
  · change db.seen tx.snapId name = some base
    unfold Db.seen
    rw [← hname, h.txwf.wf.getEnt_eq he]
    dsimp only
    rw [hvis, Option.bind_some, hbase]

theorem put_put (tx : IdealTx) (name : Bytes) (tab tab' : TabVer) :
    (tx.put name tab).put name tab' = tx.put name tab' := by
  unfold IdealTx.put
  simp only [IdealTx.mk.injEq, true_and]
  funext n
  split <;> rfl

theorem execAt_work {i a : Nat} {it : TxTab} {e : TabEnt} {tab tab' : TabVer} {stmt : Statement}
    {res res' : DbRes} {ok : Bool} (h : OpenTx db tx others) (hi : tx.tabs[i]? = some it)
    (hw : it.work = some a) (he : db.tabs[it.ent.idx]? = some e) (hget : db.heap.get a = some tab)
    (hwr : stmt.isWr = true) (hrun : tab.execStmt stmt res = .ok (tab', res', ok)) :
    ∃ db', db.execAt a stmt res = .ok (db', res', ok) ∧ OpenTx db' tx others ∧
      Private others db db' ∧ db' = { db with heap := db'.heap } ∧
      db'.absTx tx = (db.absTx tx).put e.name tab' := by
  have hit := List.mem_of_getElem? hi
  obtain ⟨e', he', hname⟩ := h.txwf.ok.ents it hit
  rw [he] at he'
  cases he'
  obtain ⟨t, ht, hshape⟩ := h.txwf.wf.works a (List.mem_append_left _ (mem_works hit hw))
  rw [hget] at ht
  cases ht
  obtain ⟨hshape', hschema⟩ := TabVer.Shape.execStmt hshape hrun
  obtain ⟨htx, hp, hwork⟩ := h.txwf.set_work hi hw he
    (hschema.name.trans (hname a tab hw hget)) hshape'
  refine ⟨{ db with heap := db.heap.set a tab' }, ?_,
    ⟨htx, h.base.private hp h.pos, h.pos, hp.stable.sees _ h.pos h.sees⟩, hp, rfl, ?_⟩
  · have hver : db.ver a = .ok tab := by simp [Db.ver, hget]
    unfold execAt
    simp only [bind, Except.bind, hver, hrun, hwr, if_true]
    rfl
  · unfold absTx IdealTx.put
    rw [hp.stable.seen _ h.pos]
    simp only [IdealTx.mk.injEq, true_and]
    funext n
    exact hwork n

/-- The item with its working copy, as a write statement finds it. -/
structure Made (db db' : Db) (tx tx' : DbTx) (name : Bytes) (i : Nat) (others : List Nat)
    (a : Nat) (tab : TabVer) : Prop where
  opened : OpenTx db' tx' others
  priv : Private others db db'
  frame : db' = { db with heap := db'.heap }
  abs : db'.absTx tx' = (db.absTx tx).put name tab
  own : (db.absTx tx).own name = some tab
  item : ∃ it e, tx'.tabs[i]? = some it ∧ it.work = some a ∧ db.tabs[it.ent.idx]? = some e ∧
    e.name = name
  get : db'.heap.get a = some tab
  ents : ∀ x ∈ tx'.tabs, ∃ y ∈ tx.tabs, x.ent = y.ent

/-- The ways `tx_make_work` can go. -/
inductive MakeCase (db : Db) (tx : DbTx) (name : Bytes) (i : Nat) (others : List Nat) :
    Except Fault (Bool × Db × DbTx) → Prop
  | oom (h : (db.absTx tx).own name = none) (hv : ∃ tab, (db.absTx tx).seen name = some tab) :
      MakeCase db tx name i others (.ok (false, db, tx))
  | made {db' : Db} {tx' : DbTx} {a : Nat} {tab : TabVer}
      (h : Made db db' tx tx' name i others a tab) :
      MakeCase db tx name i others (.ok (true, db', tx'))

theorem txMakeWork_spec (h : OpenTx db tx others) {i : Nat} {it : TxTab} {e : TabEnt}
    {base : TabVer} (hat : ItemAt db tx name i it e base) :
    MakeCase db tx name i others (db.txMakeWork tx i it) := by
  have hit := List.mem_of_getElem? hat.item
  unfold txMakeWork
  cases hw : it.work with
  | some a =>
      have hdirty : ({ it with dirty := true } : TxTab) = it := by
        have hd := h.txwf.ok.dirty it hit
        rw [hw] at hd
        rw [← show it.dirty = true from hd]
      have htabs : tx.tabs.set i it = tx.tabs := by
        obtain ⟨hlt, hget⟩ := List.getElem?_eq_some_iff.1 hat.item
        rw [← hget, List.set_getElem_self]
      rw [hw] at hdirty
      dsimp only
      rw [hdirty, htabs]
      obtain ⟨tab, hget, -⟩ := h.txwf.wf.works a (List.mem_append_left _ (mem_works hit hw))
      have hwork : (db.absTx tx).work name = some tab := by
        rw [hat.work, hw]
        exact hget
      refine .made ⟨h, Private.refl _ _, rfl, ?_, ?_, ⟨it, e, hat.item, hw, hat.ent, hat.ent_name⟩,
        hget, fun x hx => ⟨x, hx, rfl⟩⟩
      · unfold IdealTx.put
        simp only [absTx, IdealTx.mk.injEq, true_and]
        funext n
        split
        · rename_i heq
          rw [heq]
          exact hwork
        · rfl
      · unfold IdealTx.own
        rw [hwork]
  | none =>
      have hver : db.ver it.base = .ok base := by simp [Db.ver, hat.get]
      have hown : (db.absTx tx).own name = base.tabClone := by
        unfold IdealTx.own
        rw [hat.work, hw, Option.bind_none]
        dsimp only
        rw [hat.seen, Option.bind_some]
      simp only [bind, Except.bind, hver]
      cases hc : base.tabClone with
      | none => exact .oom (hown.trans hc) ⟨base, hat.seen⟩
      | some tab =>
          obtain ⟨hshape, hschema⟩ := TabVer.Shape.tabClone hat.shape hc
          obtain ⟨htx, hp, hwork⟩ := h.txwf.make_work hat.item hat.ent
            (hschema.name.trans (hat.base_name.trans hat.ent_name.symm)) hshape
          obtain ⟨hlt, -⟩ := List.getElem?_eq_some_iff.1 hat.item
          have hbase := h.base.private hp h.pos
          refine .made ⟨⟨htx, hbase.set hat.item rfl rfl, h.pos, hp.stable.sees _ h.pos h.sees⟩, hp,
            rfl, ?_, hown.trans hc, ⟨_, e, List.getElem?_set_self hlt, rfl, hat.ent, hat.ent_name⟩,
            Heap.get_alloc_next _ _, ?_⟩
          rotate_left
          · intro x hx
            rcases List.mem_or_eq_of_mem_set hx with hx | rfl
            · exact ⟨x, hx, rfl⟩
            · exact ⟨it, hit, rfl⟩
          unfold absTx IdealTx.put
          rw [hp.stable.seen _ h.pos]
          simp only [IdealTx.mk.injEq, true_and]
          funext n
          rw [← hat.ent_name]
          exact hwork n

/-- What the statement of a call did to the store and the transaction. -/
structure Ran (db db' : Db) (tx : DbTx) (others : List Nat) (abs : IdealTx) (tx' : DbTx) :
    Prop where
  opened : OpenTx db' tx' others
  priv : Private others db db'
  abs : db'.absTx tx' = abs
  snapId : tx'.snapId = tx.snapId

theorem Made.exec {db₁ : Db} {tx₁ : DbTx} {i a : Nat} {tab tab' : TabVer} {stmt : Statement}
    {res res' : DbRes} {ok : Bool} (h : Made db db₁ tx tx₁ name i others a tab)
    (hwr : stmt.isWr = true) (hrun : tab.execStmt stmt res = .ok (tab', res', ok)) :
    ∃ db', db₁.execAt a stmt res = .ok (db', res', ok) ∧
      Ran db db' tx others ((db.absTx tx).put name tab') tx₁ ∧ db'.tabsGen = db.tabsGen := by
  obtain ⟨it, e, hi, hw, he, hname⟩ := h.item
  have he₁ : db₁.tabs[it.ent.idx]? = some e := by
    rw [h.frame]
    exact he
  obtain ⟨db', hexec, hopen, hp, hframe, habs⟩ := execAt_work h.opened hi hw he₁ h.get hwr hrun
  refine ⟨db', hexec, ⟨hopen, h.priv.trans hp, ?_, congrArg IdealTx.snapId h.abs⟩, ?_⟩
  · rw [habs, h.abs, hname, put_put]
  · rw [hframe, h.frame]

theorem Made.exec_fault {db₁ : Db} {tx₁ : DbTx} {i a : Nat} {tab : TabVer} {stmt : Statement}
    {res : DbRes} {f : Fault} (h : Made db db₁ tx tx₁ name i others a tab)
    (hrun : tab.execStmt stmt res = .error f) : db₁.execAt a stmt res = .error f := by
  have hver : db₁.ver a = .ok tab := by simp [Db.ver, h.get]
  unfold execAt
  simp only [bind, Except.bind, hver, hrun]

theorem Made.itemTab {db₁ : Db} {tx₁ : DbTx} {i a : Nat} {tab : TabVer}
    (h : Made db db₁ tx tx₁ name i others a tab) : Db.itemTab tx₁ i = some a := by
  obtain ⟨it, e, hi, hw, -⟩ := h.item
  unfold Db.itemTab
  rw [hi, Option.map_some, hw]
  rfl

@[simp] theorem absTx_snapId (db : Db) (tx : DbTx) : (db.absTx tx).snapId = tx.snapId := rfl

/-- A statement in a transaction and its abstract counterpart. -/
inductive Simulates (db : Db) (tx : DbTx) (others : List Nat) :
    Except Fault (Db × DbTx × DbRes × Bool) → Except Fault (IdealTx × DbRes × Bool) → Prop
  | fault (f : Fault) : Simulates db tx others (.error f) (.error f)
  | ran {db' : Db} {tx' : DbTx} {abs : IdealTx} {res : DbRes} {ok : Bool}
      (h : Ran db db' tx others abs tx') :
      Simulates db tx others (.ok (db', tx', res, ok)) (.ok (abs, res, ok))

theorem Ran.refl (h : OpenTx db tx others) : Ran db db tx others (db.absTx tx) tx :=
  ⟨h, Private.refl _ _, rfl, rfl⟩

theorem txRun_missing (h : OpenTx db tx others) (stmt : Statement)
    (hseen : (db.absTx tx).seen stmt.tableName.bytes = none)
    (hwork : (db.absTx tx).work stmt.tableName.bytes = none) :
    Simulates db tx others (db.txRun tx none stmt) ((db.absTx tx).run stmt) := by
  unfold txRun IdealTx.run IdealTx.own IdealTx.view
  simp only [Option.bind_none, hseen, hwork]
  cases stmt.isWr with
  | true => exact .ran (.refl h)
  | false => exact .ran (.refl h)

theorem txRun_spec (h : OpenTx db tx others) {i : Nat} (stmt : Statement)
    (hv : db.Viewed tx stmt.tableName.bytes i) :
    Simulates db tx others (db.txRun tx (some i) stmt) ((db.absTx tx).run stmt) := by
  obtain ⟨it, e, base, hat⟩ := hv.itemAt h
  unfold txRun IdealTx.run
  simp only [Option.bind_some, hat.item, Option.map_some]
  cases hwr : stmt.isWr with
  | true =>
      simp only [if_true]
      have hc := txMakeWork_spec h hat
      generalize db.txMakeWork tx i it = r at hc
      cases hc with
      | oom hown =>
          rw [hown]
          exact .ran (.refl h)
      | @made db₁ tx₁ a tab hm =>
          have hsnap : tx₁.snapId = tx.snapId := congrArg IdealTx.snapId hm.abs
          simp only [bind, Except.bind, Bool.not_true, Bool.false_eq_true, if_false, hm.itemTab,
            hm.own, hsnap, runOn, absTx_snapId]
          cases hrun : tab.execStmt stmt { snapId := tx.snapId } with
          | error f =>
              rw [hm.exec_fault hrun]
              exact .fault f
          | ok r =>
              obtain ⟨tab', res', ok⟩ := r
              obtain ⟨db', hexec, hran, -⟩ := hm.exec hwr hrun
              rw [hexec]
              exact .ran hran
  | false =>
      simp only [Bool.false_eq_true, if_false, bind, Except.bind, pure, Except.pure, Bool.not_true]
      obtain ⟨a, tab, ha, hget, hview⟩ : ∃ a tab, Db.itemTab tx i = some a ∧
          db.heap.get a = some tab ∧ (db.absTx tx).view stmt.tableName.bytes = some tab := by
        unfold Db.itemTab IdealTx.view
        rw [hat.item, hat.work, hat.seen]
        cases hw : it.work with
        | none => exact ⟨it.base, base, by simp [hw], hat.get, rfl⟩
        | some a =>
            obtain ⟨tab, hget, -⟩ := h.txwf.wf.works a
              (List.mem_append_left _ (mem_works (List.mem_of_getElem? hat.item) hw))
            exact ⟨a, tab, by simp [hw], hget, by rw [Option.bind_some, hget]⟩
      have hver : db.ver a = .ok tab := by simp [Db.ver, hget]
      rw [ha, hview]
      simp only [execAt, runOn, bind, Except.bind, hver, absTx_snapId]
      cases hrun : tab.execStmt stmt { snapId := tx.snapId } with
      | error f => exact .fault f
      | ok r =>
          obtain ⟨tab', res', ok⟩ := r
          simp only [hwr, Bool.false_eq_true, if_false]
          exact .ran (.refl h)

theorem Ran.after {db₁ : Db} {tx₁ : DbTx} {abs : IdealTx} (h : Ran db₁ db' tx₁ others abs tx')
    (hp : Private others db db₁) (hs : tx₁.snapId = tx.snapId) : Ran db db' tx others abs tx' :=
  ⟨h.opened, hp.trans h.priv, h.abs, h.snapId.trans hs⟩

/-- A call and its abstract counterpart, or one of the two faults a view can run
into. -/
inductive TxdoCase (db : Db) (tx : DbTx) (sql : Bytes) (others : List Nat) :
    Except Fault (Db × DbTx × DbRes × Bool) → Prop
  | stale {stmt : Statement} (hp : db.parseOk sql = .ok stmt) (h : ¬ db.Fresh tx) :
      TxdoCase db tx sql others (.error .staleEnt)
  | fault {stmt : Statement} (hp : db.parseOk sql = .ok stmt)
      (h : ¬ db.Loads stmt.tableName.bytes) : TxdoCase db tx sql others (.error .ukOverflow)
  | simulates {r : Except Fault (Db × DbTx × DbRes × Bool)}
      (h : Simulates db tx others r ((db.absTx tx).txdo db.maxSql sql)) :
      TxdoCase db tx sql others r

/-- **`db_txdo`** runs the statement on what the transaction sees. -/
theorem dbTxdo_spec (h : OpenTx db tx others) (sql : Bytes) :
    TxdoCase db tx sql others (db.dbTxdo tx sql) := by
  unfold dbTxdo
  cases hparse : db.parseOk sql with
  | error err =>
      refine .simulates ?_
      unfold IdealTx.txdo
      rw [show parseSql db.maxSql sql = .error err from hparse]
      exact .ran (.refl h)
  | ok stmt =>
      have hideal : (db.absTx tx).txdo db.maxSql sql = (db.absTx tx).run stmt := by
        unfold IdealTx.txdo
        rw [show parseSql db.maxSql sql = .ok stmt from hparse]
      have hc := txView_spec h stmt.tableName.bytes
      dsimp only
      generalize db.txView tx stmt.tableName.bytes = r at hc
      cases hc with
      | stale hf => exact .stale hparse hf
      | fault hl => exact .fault hparse hl
      | missing hseen hwork =>
          refine .simulates ?_
          rw [hideal]
          exact txRun_missing h stmt hseen hwork
      | @viewed i db₁ tx₁ hopen hp hext habs hv hnew =>
          refine .simulates ?_
          rw [hideal, ← habs]
          change Simulates db tx others (db₁.txRun tx₁ (some i) stmt) _
          have hsim := txRun_spec hopen stmt hv
          generalize db₁.txRun tx₁ (some i) stmt = r at hsim
          generalize (db₁.absTx tx₁).run stmt = r' at hsim
          cases hsim with
          | fault f => exact .fault f
          | ran hran => exact .ran (hran.after hp (congrArg IdealTx.snapId habs))

/-! ## Reads -/

/-- What the lookup section of a read finds. -/
inductive ReadCase (db : Db) (snap : Nat) (name : Bytes) (ws : List Nat) :
    Except Fault (Option Nat × Db) → Prop
  | fault (h : ¬ db.Loads name) : ReadCase db snap name ws (.error .ukOverflow)
  | missing (h : db.seen snap name = none) : ReadCase db snap name ws (.ok (none, db))
  | found {a : Nat} {db' : Db} {tab : TabVer} (hwf : db'.Wf ws) (hp : Private ws db db')
      (hext : Ext db db') (hget : db'.heap.get a = some tab) (hseen : db.seen snap name = some tab) :
      ReadCase db snap name ws (.ok (some a, db'))

theorem readTab_spec (hwf : db.Wf ws) {snap : Nat} (hs : 1 ≤ snap) (hsees : db.Sees snap)
    (name : Bytes) : ReadCase db snap name ws (db.readTab snap name) := by
  unfold readTab
  cases hn : db.needEnt name with
  | error f =>
      have hc := db.needEnt_cases name
      rw [hn] at hc
      cases hc with
      | fault hg herr => exact .fault fun hl => hl hg herr
  | ok r =>
      obtain ⟨k?, db'⟩ := r
      cases k? with
      | none =>
          obtain ⟨rfl, hg, hload⟩ := needEnt_none hn
          refine .missing ?_
          unfold seen loadable
          rw [hg, hload]
      | some k =>
          obtain ⟨hwf', hp, hext, e, he, hname⟩ := needEnt_private hwf hn ws fun a ha => ha
          obtain ⟨a, ha⟩ := hp.stable.sees snap hs hsees k e he
          have hent : db'.entAt ⟨db'.tabsGen, k⟩ = .ok e := entAt_fresh rfl he
          have hvis' : visOf db'.heap snap e.chain = some a := by
            unfold visAddr at ha
            rw [he] at ha
            exact ha
          have hlive : ∀ b ∈ e.chain, ∃ t, db'.heap.get b = some t := by
            intro b hb
            obtain ⟨t, ht, -⟩ := (hwf'.chain e (List.mem_of_getElem? he)).live b hb
            exact ⟨t, ht⟩
          have hvis : db'.tabVis snap e.chain = .ok (some a) := by rw [tabVis_eq snap hlive, hvis']
          obtain ⟨tab, hget⟩ := hlive a (visOf_mem hvis').1
          simp only [bind, Except.bind, hent, hvis]
          refine .found hwf' hp hext hget ?_
          rw [← hp.stable.seen snap hs]
          unfold seen
          rw [← hname, hwf'.getEnt_eq he]
          dsimp only
          rw [ha, Option.bind_some, hget]

/-- A call that reads, with the state it leaves. -/
inductive DoReadCase (db : Db) (snap : Nat) (sql : Bytes) (ws : List Nat) :
    Except Fault (Db × DbRes × Bool) → Prop
  | fault {stmt : Statement} (hp : db.parseOk sql = .ok stmt) (hsel : stmt.type = .select)
      (h : ¬ db.Loads stmt.tableName.bytes) : DoReadCase db snap sql ws (.error .ukOverflow)
  | read {db' : Db} {res : DbRes} {ok : Bool} (hwf : db'.Wf ws) (hp : Private ws db db')
      (h : db.abs.read snap (db.seen snap) sql = .ok (res, ok)) :
      DoReadCase db snap sql ws (.ok (db', res, ok))

/-- **`do_read`** evaluates the SELECT on what the snapshot sees. -/
theorem doRead_spec (hwf : db.Wf ws) {snap : Nat} (hs : 1 ≤ snap) (hsees : db.Sees snap)
    (sql : Bytes) : DoReadCase db snap sql ws (db.doRead snap sql) := by
  unfold doRead
  cases hparse : db.parseOk sql with
  | error err =>
      refine .read hwf (Private.refl _ _) ?_
      unfold Ideal.read
      rw [show parseSql db.abs.maxSql sql = .error err from hparse]
  | ok stmt =>
      have hparse' : parseSql db.abs.maxSql sql = .ok stmt := hparse
      dsimp only
      by_cases htype : stmt.type ≠ .select
      · rw [if_pos htype]
        refine .read hwf (Private.refl _ _) ?_
        unfold Ideal.read
        rw [hparse']
        dsimp only
        rw [if_pos htype]
      · have hsel : stmt.type = .select := not_not.1 htype
        rw [if_neg htype]
        have hc := readTab_spec hwf hs hsees stmt.tableName.bytes
        generalize db.readTab snap stmt.tableName.bytes = r at hc
        cases hc with
        | fault hl => exact .fault hparse hsel hl
        | missing hseen =>
            refine .read hwf (Private.refl _ _) ?_
            unfold Ideal.read
            rw [hparse']
            dsimp only
            rw [if_neg htype, hseen]
        | @found a db' tab hwf' hp hext hget hseen =>
            have hver : db'.ver a = .ok tab := by simp [Db.ver, hget]
            have hrun : tab.execStmt stmt { snapId := snap } =
                .ok (tab, (tab.selDo stmt { snapId := snap }).1,
                  (tab.selDo stmt { snapId := snap }).2) := by
              unfold TabVer.execStmt
              rw [hsel]
            have hwr : stmt.isWr = false := by
              unfold Statement.isWr
              rw [hsel]
              rfl
            simp only [bind, Except.bind, execAt, hver, hrun, hwr, Bool.false_eq_true, if_false]
            refine .read hwf' hp ?_
            unfold Ideal.read runOn
            rw [hparse']
            dsimp only
            rw [if_neg htype, hseen]
            simp only [bind, Except.bind, hrun]
            rfl

end Db

end MiniDbms
