import MiniDbms.Conc.Kept
import MiniDbms.Db.Redo

/-!
# What a transaction has done so far

The working copies of a transaction are what its write statements make of the versions they
started from.  A table that a statement asked for in vain stays out of its reach.
-/

namespace MiniDbms

open Versions

namespace Db

variable {db db' db₁ : Db} {tx tx' tx₁ : DbTx} {stmt : Statement} {res res₀ : DbRes} {ok : Bool}
  {item? : Option Nat} {ws ws' others : List Nat} {log : List Statement} {it : TxTab} {i : Nat}

/-! ## Write statements -/

/-- The ways the private execution of a write statement can go. -/
inductive WriteCase (db : Db) (tx : DbTx) (item? : Option Nat) (stmt : Statement) (res₀ : DbRes) :
    Db → DbTx → Prop
  | missing (h : (item?.bind fun i => tx.tabs[i]?) = none) :
      WriteCase db tx item? stmt res₀ db tx
  | uncopied {i : Nat} {it : TxTab} {base : TabVer} (hitem : item? = some i)
      (hi : tx.tabs[i]? = some it) (hw : it.work = none) (hbase : db.heap.get it.base = some base)
      (hclone : base.tabClone = none) : WriteCase db tx item? stmt res₀ db tx
  | first {i : Nat} {it : TxTab} {base tab tab' : TabVer} {res : DbRes} {ok : Bool}
      (hitem : item? = some i) (hi : tx.tabs[i]? = some it) (hw : it.work = none)
      (hbase : db.heap.get it.base = some base) (hclone : base.tabClone = some tab)
      (hrun : tab.execStmt stmt res₀ = .ok (tab', res, ok)) :
      WriteCase db tx item? stmt res₀
        { db with heap := (db.heap.alloc tab).set db.heap.next tab' }
        { tx with tabs := tx.tabs.set i { it with work := some db.heap.next, dirty := true } }
  | again {i a : Nat} {it : TxTab} {tab tab' : TabVer} {res : DbRes} {ok : Bool}
      (hitem : item? = some i) (hi : tx.tabs[i]? = some it) (hw : it.work = some a)
      (hget : db.heap.get a = some tab) (hrun : tab.execStmt stmt res₀ = .ok (tab', res, ok)) :
      WriteCase db tx item? stmt res₀ { db with heap := db.heap.set a tab' } tx

theorem ver_ok {a : Nat} {tab : TabVer} (h : db.ver a = .ok tab) : db.heap.get a = some tab := by
  unfold ver at h
  split at h
  · rename_i hget
    cases h
    exact hget
  · cases h

theorem execAt_exact {a : Nat} (hwr : stmt.isWr = true)
    (h : db.execAt a stmt res₀ = .ok (db', res, ok)) :
    ∃ tab tab', db.heap.get a = some tab ∧ tab.execStmt stmt res₀ = .ok (tab', res, ok) ∧
      db' = { db with heap := db.heap.set a tab' } := by
  unfold execAt at h
  obtain ⟨tab, hver, h⟩ := bind_ok.1 h
  obtain ⟨⟨tab', res', ok'⟩, hrun, h⟩ := bind_ok.1 h
  simp only [hwr, if_true] at h
  cases h
  exact ⟨tab, tab', ver_ok hver, hrun, rfl⟩

theorem makeWork_cases (res₀ : DbRes) (hok : db.TxOk tx) (hwr : stmt.isWr = true)
    (hitem : item? = some i) (hi : tx.tabs[i]? = some it) {made : Bool}
    (hm : db.txMakeWork tx i it = .ok (made, db₁, tx₁)) :
    (made = false → WriteCase db tx item? stmt res₀ db₁ tx₁) ∧
      (made = true → ∃ a, itemTab tx₁ i = some a ∧ ∀ {db' res ok},
        db₁.execAt a stmt res₀ = .ok (db', res, ok) → WriteCase db tx item? stmt res₀ db' tx₁) := by
  obtain ⟨hlt, hget⟩ := List.getElem?_eq_some_iff.1 hi
  unfold txMakeWork at hm
  cases hw : it.work with
  | some a =>
      have hdirty : ({ it with dirty := true } : TxTab) = it := by
        have hd := hok.dirty it (List.mem_of_getElem? hi)
        rw [hw] at hd
        rw [← show it.dirty = true from hd]
      have htabs : tx.tabs.set i it = tx.tabs := by rw [← hget, List.set_getElem_self]
      rw [hw] at hdirty hm
      dsimp only at hm
      rw [hdirty, htabs] at hm
      cases hm
      refine ⟨by simp, fun _ => ⟨a, ?_, fun hexec => ?_⟩⟩
      · unfold itemTab
        rw [hi, Option.map_some, hw]
        rfl
      obtain ⟨tab, tab', hget', hrun, rfl⟩ := execAt_exact hwr hexec
      exact .again hitem hi hw hget' hrun
  | none =>
      rw [hw] at hm
      dsimp only at hm
      obtain ⟨base, hver, hm⟩ := bind_ok.1 hm
      cases hclone : base.tabClone with
      | none =>
          rw [hclone] at hm
          cases hm
          exact ⟨fun _ => .uncopied hitem hi hw (ver_ok hver) hclone, by simp⟩
      | some tab =>
          rw [hclone] at hm
          cases hm
          refine ⟨by simp, fun _ => ⟨db.heap.next, ?_, fun hexec => ?_⟩⟩
          · unfold itemTab
            rw [List.getElem?_set_self hlt]
            rfl
          obtain ⟨tab₁, tab', hget', hrun, rfl⟩ := execAt_exact hwr hexec
          have htab : some tab = some tab₁ := (Heap.get_alloc_next _ _).symm.trans hget'
          cases htab
          exact .first hitem hi hw (ver_ok hver) hclone hrun

theorem execRun_write (hok : db.TxOk tx) (hwr : stmt.isWr = true)
    (h : db.execRun tx item? stmt res₀ = .ok (db', tx', res, ok)) :
    WriteCase db tx item? stmt res₀ db' tx' := by
  unfold execRun at h
  cases hb : item?.bind fun i => (tx.tabs[i]?).map fun item => (i, item) with
  | none =>
      rw [hb] at h
      cases h
      exact .missing (bind_item_none hb)
  | some r =>
      obtain ⟨i, it⟩ := r
      obtain ⟨hitem, hi⟩ := bind_item hb
      rw [hb] at h
      obtain ⟨⟨made, db₁, tx₁⟩, hm, hrun⟩ := bind_ok.1 h
      have hmake := makeWork_cases res₀ hok hwr hitem hi hm
      cases made with
      | false =>
          cases hrun
          exact hmake.1 rfl
      | true =>
          obtain ⟨a, ha, hcase⟩ := hmake.2 rfl
          simp only [Bool.not_true, Bool.false_eq_true, if_false, ha] at hrun
          obtain ⟨⟨db₂, res₂, ok₂⟩, hexec, hrun⟩ := bind_ok.1 hrun
          cases hrun
          exact hcase hexec

theorem txRun_write (hok : db.TxOk tx) (hwr : stmt.isWr = true)
    (h : db.txRun tx item? stmt = .ok (db', tx', res, ok)) :
    ∃ res₀ : DbRes, res₀.count = 0 ∧ WriteCase db tx item? stmt res₀ db' tx' := by
  unfold txRun at h
  dsimp only at h
  cases hb : item?.bind fun i => (tx.tabs[i]?).map fun item => (i, item) with
  | none =>
      simp only [hb, hwr, if_true] at h
      cases h
      exact ⟨{}, rfl, .missing (bind_item_none hb)⟩
  | some r =>
      obtain ⟨i, it⟩ := r
      obtain ⟨hitem, hi⟩ := bind_item hb
      simp only [hb, hwr, if_true] at h
      obtain ⟨⟨made, db₁, tx₁⟩, hm, hrun⟩ := bind_ok.1 h
      have hmake := makeWork_cases { snapId := tx₁.snapId } hok hwr hitem hi hm
      refine ⟨{ snapId := tx₁.snapId }, rfl, ?_⟩
      cases made with
      | false =>
          cases hrun
          exact hmake.1 rfl
      | true =>
          obtain ⟨a, ha, hcase⟩ := hmake.2 rfl
          simp only [Bool.not_true, Bool.false_eq_true, if_false, ha] at hrun
          obtain ⟨⟨db₂, res₂, ok₂⟩, hexec, hrun⟩ := bind_ok.1 hrun
          cases hrun
          exact hcase hexec

/-! ## Statements and tables -/

theorem onTable_snoc (n : Bytes) (log : List Statement) (stmt : Statement) :
    onTable n (log ++ [stmt]) =
      if stmt.tableName.bytes = n then onTable n log ++ [stmt] else onTable n log := by
  unfold onTable
  rw [List.filter_append]
  split
  · rename_i hn
    rw [List.filter_cons_of_pos (by simpa using hn), List.filter_nil]
  · rename_i hn
    rw [List.filter_cons_of_neg (by simpa using hn), List.filter_nil, List.append_nil]

theorem TxOk.named_inj {n : Bytes} {x y : TxTab} (hwf : db.Wf ws) (hok : db.TxOk tx)
    (hx : x ∈ tx.tabs) (hy : y ∈ tx.tabs) (hnx : db.named n x = true) (hny : db.named n y = true) :
    x = y := by
  obtain ⟨e, he, hname⟩ := named_iff.1 hnx
  obtain ⟨e', he', hname'⟩ := named_iff.1 hny
  have hidx := hwf.getEnt_eq he
  rw [hname, ← hname', hwf.getEnt_eq he'] at hidx
  exact List.inj_on_of_nodup_map hok.nodup hx hy (Option.some.inj hidx).symm

/-! ## What the statements made of the bases -/

/-- What a transaction has done so far. -/
structure Follows (db : Db) (tx : DbTx) (log : List Statement) : Prop where
  worked : ∀ it ∈ tx.tabs, ∀ a, it.work = some a → ∃ e base tab w,
    db.tabs[it.ent.idx]? = some e ∧
      (db.heap.get it.base = some base ∨ db.heap.get it.base = none) ∧
      base.tabClone = some tab ∧ db.heap.get a = some w ∧ tab.redo (onTable e.name log) = .ok w ∧
      onTable e.name log ≠ []
  unworked : ∀ n, onTable n log ≠ [] → ∀ it ∈ tx.tabs, db.named n it = true → it.work = none →
    ∀ base, db.heap.get it.base = some base → base.tabClone = none
  unseen : ∀ n, onTable n log ≠ [] → (∀ it ∈ tx.tabs, db.named n it = false) →
    db.seen tx.snapId n = none

/-- What `tx_view` told. -/
structure Told (db : Db) (tx : DbTx) (item? : Option Nat) (n : Bytes) : Prop where
  none : item? = none → (∀ it ∈ tx.tabs, db.named n it = false) ∧ db.seen tx.snapId n = none
  some : ∀ i, item? = some i → ∃ it, tx.tabs[i]? = some it ∧ db.named n it = true

/-- What others leave alone. -/
structure Beside (db db' : Db) (tx : DbTx) : Prop where
  names : db.tabs.map TabEnt.name <+: db'.tabs.map TabEnt.name
  works : ∀ a ∈ tx.works, db'.heap.get a = db.heap.get a
  bases : ∀ it ∈ tx.tabs, db'.heap.get it.base = db.heap.get it.base ∨
    db'.heap.get it.base = none
  unseen : ∀ n, db.seen tx.snapId n = none → db'.seen tx.snapId n = none

theorem Beside.named (hb : Beside db db' tx) (hok : db.TxOk tx) (hit : it ∈ tx.tabs) (n : Bytes) :
    db'.named n it = db.named n it := by
  obtain ⟨e, he, -⟩ := hok.ents it hit
  exact named_congr (Stable.of_names hb.names) he

theorem Follows.beside (h : Follows db tx log) (hok : db.TxOk tx) (hb : Beside db db' tx) :
    Follows db' tx log where
  worked := fun it hit a ha => by
    obtain ⟨e, base, tab, w, he, hbase, hclone, hget, hredo, hne⟩ := h.worked it hit a ha
    obtain ⟨e', he', hname⟩ := (Stable.of_names hb.names).ent he
    refine ⟨e', base, tab, w, he', ?_, hclone, ?_, hname ▸ hredo, hname ▸ hne⟩
    · rcases hb.bases it hit with hsame | hnone
      · rw [hsame]
        exact hbase
      · exact Or.inr hnone
    · rw [hb.works a (mem_works hit ha), hget]
  unworked := fun n hne it hit hname hw base hbase => by
    rw [hb.named hok hit] at hname
    rcases hb.bases it hit with hsame | hnone
    · exact h.unworked n hne it hit hname hw base (hsame ▸ hbase)
    · rw [hnone] at hbase
      cases hbase
  unseen := fun n hne hnew => hb.unseen n (h.unseen n hne fun it hit => by
    rw [← hb.named hok hit]
    exact hnew it hit)

theorem Told.beside {n : Bytes} (h : Told db tx item? n) (hok : db.TxOk tx)
    (hb : Beside db db' tx) : Told db' tx item? n where
  none := fun hitem => by
    obtain ⟨hnew, hseen⟩ := h.none hitem
    exact ⟨fun it hit => (hb.named hok hit n).trans (hnew it hit), hb.unseen n hseen⟩
  some := fun i hitem => by
    obtain ⟨it, hi, hname⟩ := h.some i hitem
    exact ⟨it, hi, (hb.named hok (List.mem_of_getElem? hi) n).trans hname⟩

theorem follows_nil (db : Db) (s : Nat) : Follows db ⟨s, []⟩ [] :=
  ⟨fun _ h => absurd h List.not_mem_nil, fun _ h => absurd rfl h, fun _ h => absurd rfl h⟩

theorem Follows.of_nil (h : Follows db tx []) : Follows db' tx [] where
  worked := fun it hit a ha => by
    obtain ⟨e, -, -, -, -, -, -, -, -, hne⟩ := h.worked it hit a ha
    exact absurd rfl hne
  unworked := fun n hne => absurd rfl hne
  unseen := fun n hne => absurd rfl hne

/-! ## `tx_view` -/

theorem Section.beside {mine mine' : List Nat} {p : Option Nat}
    (hs : Section db db' mine mine' others p) (hrest : db.Rest (mine ++ others) tx)
    (hsub : ∀ a ∈ tx.works, a ∈ others)
    (hseen : ∀ n, db.seen tx.snapId n = none → db'.seen tx.snapId n = none) :
    Beside db db' tx where
  names := hs.names
  works := fun a ha => hs.works a (hsub a ha)
  bases := fun it hit => by
    obtain ⟨hlt, hnot, -⟩ := hrest.base it hit
    exact hs.old it.base hlt fun hm => hnot (List.mem_append_left _ hm)
  unseen := hseen

theorem needEnt_beside (hwf : db.Wf (tx.works ++ others)) (hrest : db.Rest (tx.works ++ others) tx)
    (hs : 1 ≤ tx.snapId) {n : Bytes} {k : Nat} (h : db.needEnt n = .ok (some k, db')) :
    Beside db db' tx := by
  have hwf₀ : db.Wf ([] ++ (tx.works ++ others)) := hwf
  have hsec : Section db db' [] [] (tx.works ++ others) none := Section.needEnt hwf₀ h
  refine hsec.beside hrest (fun a ha => List.mem_append_left _ ha) fun n hn => ?_
  rw [(needEnt_private hwf h [] (by simp)).2.1.stable.seen _ hs, hn]

/-- **After `tx_view`.** -/
theorem Follows.view (h : Follows db tx log) (hrest : db.Rest (tx.works ++ others) tx)
    (hwf : db.Wf (tx.works ++ others)) (hs : 1 ≤ tx.snapId) {n : Bytes}
    (hrun : db.txView tx n = .ok (item?, db', tx')) :
    Follows db' tx' log ∧ Told db' tx' item? n := by
  have hc := txView_cases hwf tx n
  rw [hrun] at hc
  cases hc with
  | @found i it hi hfind =>
      refine ⟨h, ⟨fun hitem => (by cases hitem), fun j hitem => ?_⟩⟩
      cases hitem
      exact ⟨it, hi, by simpa using List.find?_some hfind⟩
  | missing hnew hneed =>
      obtain ⟨-, hg, hload⟩ := needEnt_none hneed
      refine ⟨h, ⟨fun _ => ⟨hnew, ?_⟩, fun j hitem => by cases hitem⟩⟩
      unfold seen loadable
      rw [hg, hload]
  | @unseen k _ hnew hneed hv =>
      have hb := needEnt_beside hwf hrest hs hneed
      obtain ⟨hwf', -, -, e, he, hname⟩ := needEnt_private hwf hneed [] (by simp)
      refine ⟨h.beside hrest.ok hb, ⟨fun _ => ⟨fun it hit => ?_, ?_⟩,
        fun j hitem => by cases hitem⟩⟩
      · exact (hb.named hrest.ok hit n).trans (hnew it hit)
      · unfold seen
        rw [← hname, hwf'.getEnt_eq he]
        dsimp only
        rw [hv]
        rfl
  | @viewed k base _ hnew hneed hv =>
      have hb := needEnt_beside hwf hrest hs hneed
      obtain ⟨hwf', hp, -, e, he, hname⟩ := needEnt_private hwf hneed [] (by simp)
      have h' := h.beside hrest.ok hb
      have hself : db'.named n ⟨⟨db'.tabsGen, k⟩, base, none, false⟩ = true :=
        named_iff.2 ⟨e, he, hname⟩
      refine ⟨⟨fun it hit a ha => ?_, fun n' hne it hit hnamed hw b hbase => ?_,
        fun n' hne hall => ?_⟩, ⟨fun hitem => (by cases hitem), fun j hitem => ?_⟩⟩
      · rcases List.mem_append.1 hit with hit | hit
        · exact h'.worked it hit a ha
        · rw [List.mem_singleton.1 hit] at ha
          cases ha
      · rcases List.mem_append.1 hit with hit | hit
        · exact h'.unworked n' hne it hit hnamed hw b hbase
        · -- the table that was just found was never out of reach
          rw [List.mem_singleton.1 hit] at hnamed
          obtain ⟨e', he', hname'⟩ := named_iff.1 hnamed
          rw [show db'.tabs[k]? = some e' from he'] at he
          cases he
          rw [hname] at hname'
          subst hname'
          have hnone := h.unseen n hne hnew
          rw [← hp.stable.seen _ hs] at hnone
          unfold seen at hnone
          rw [← hname, hwf'.getEnt_eq he'] at hnone
          dsimp only at hnone
          rw [hv, Option.bind_some] at hnone
          obtain ⟨e'', he'', hvis⟩ := Option.bind_eq_some_iff.1 hv
          obtain ⟨t, ht, -⟩ :=
            (hwf'.chain e'' (List.mem_of_getElem? he'')).live _ (visOf_mem hvis).1
          rw [ht] at hnone
          cases hnone
      · exact h'.unseen n' hne fun it hit => hall it (List.mem_append_left _ hit)
      · cases hitem
        exact ⟨_, by simp, hself⟩

/-! ## The statement -/

theorem Quiet.stable (hq : Quiet db db') :
    Stable (fun _ => True) db db' ∧ db'.com = db.com := by
  obtain ⟨h₁, hcom⟩ := heap_invisible (S := fun _ => True) hq.chains
  have h₂ : Stable (fun _ => True) { db with heap := db'.heap }
      { db with heap := db'.heap, mv := db'.mv } := (mv_invisible db'.mv).1
  rw [hq.frame]
  exact ⟨h₁.trans h₂, hcom⟩

theorem Quiet.seen (hq : Quiet db db') (s : Nat) (n : Bytes) : db'.seen s n = db.seen s n :=
  congrFun (hq.stable.1.seen s trivial) n

theorem mem_set_or {α : Type} {l : List α} {i : Nat} {x : α} (hx : x ∈ l) (y : α) :
    l[i]? = some x ∨ x ∈ l.set i y := by
  obtain ⟨j, hj⟩ := List.getElem?_of_mem hx
  by_cases hij : i = j
  · exact Or.inl (hij ▸ hj)
  · exact Or.inr (List.mem_of_getElem? ((List.getElem?_set_ne hij).trans hj))

theorem Follows.missed (h : Follows db tx log)
    (hno : ∀ it ∈ tx.tabs, db.named stmt.tableName.bytes it = true → it.work = none ∧
      ∀ base, db.heap.get it.base = some base → base.tabClone = none)
    (hunseen : (∀ it ∈ tx.tabs, db.named stmt.tableName.bytes it = false) →
      db.seen tx.snapId stmt.tableName.bytes = none) :
    Follows db tx (log ++ [stmt]) where
  worked := fun it hit a ha => by
    obtain ⟨e, base, tab, w, he, hrest⟩ := h.worked it hit a ha
    have hn : stmt.tableName.bytes ≠ e.name := fun heq => by
      rw [(hno it hit (named_iff.2 ⟨e, he, heq.symm⟩)).1] at ha
      cases ha
    rw [← show onTable e.name (log ++ [stmt]) = onTable e.name log by
      rw [onTable_snoc, if_neg hn]] at hrest
    exact ⟨e, base, tab, w, he, hrest⟩
  unworked := fun n hne it hit hnamed hw base hbase => by
    by_cases hn : stmt.tableName.bytes = n
    · subst hn
      exact (hno it hit hnamed).2 base hbase
    · rw [onTable_snoc, if_neg hn] at hne
      exact h.unworked n hne it hit hnamed hw base hbase
  unseen := fun n hne hall => by
    by_cases hn : stmt.tableName.bytes = n
    · subst hn
      exact hunseen hall
    · rw [onTable_snoc, if_neg hn] at hne
      exact h.unseen n hne hall

theorem Follows.first {base tab tab' : TabVer} {heap : Heap TabVer} (h : Follows db tx log)
    (hrest : db.Rest ws tx) (hi : tx.tabs[i]? = some it)
    (hnamed : db.named stmt.tableName.bytes it = true)
    (hw : it.work = none) (hbase : db.heap.get it.base = some base)
    (hclone : base.tabClone = some tab) (hredo : tab.redo [stmt] = .ok tab')
    (hold : ∀ b, b < db.heap.next → heap.get b = db.heap.get b)
    (hnew : heap.get db.heap.next = some tab')
    (hseen : ∀ n, ({ db with heap := heap } : Db).seen tx.snapId n = db.seen tx.snapId n)
    (hwf' : ({ db with heap := heap } : Db).Wf ws')
    (hok' : ({ db with heap := heap } : Db).TxOk
      { tx with tabs := tx.tabs.set i { it with work := some db.heap.next, dirty := true } }) :
    Follows { db with heap := heap }
      { tx with tabs := tx.tabs.set i { it with work := some db.heap.next, dirty := true } }
      (log ++ [stmt]) := by
  have hit := List.mem_of_getElem? hi
  have hself : ({ it with work := some db.heap.next, dirty := true } : TxTab) ∈
      tx.tabs.set i { it with work := some db.heap.next, dirty := true } :=
    List.mem_of_getElem? (List.getElem?_set_self (List.getElem?_eq_some_iff.1 hi).1)
  -- no statement before was about the table: the transaction would have its copy
  have hnone : onTable stmt.tableName.bytes log = [] := by
    by_contra hne
    have := h.unworked _ hne it hit hnamed hw base hbase
    rw [hclone] at this
    cases this
  refine ⟨fun x hx a ha => ?_, fun n hne x hx hnx hwx b hb => ?_, fun n hne hall => ?_⟩
  · rcases List.mem_or_eq_of_mem_set hx with hx | rfl
    · obtain ⟨e, b, t, w, he, hb, hc, hget, hre, hne⟩ := h.worked x hx a ha
      have hn : stmt.tableName.bytes ≠ e.name := fun heq => hne (heq ▸ hnone)
      rw [← show onTable e.name (log ++ [stmt]) = onTable e.name log by
        rw [onTable_snoc, if_neg hn]] at hre hne
      refine ⟨e, b, t, w, he, ?_, hc, ?_, hre, hne⟩
      · dsimp only
        rw [hold x.base (hrest.base x hx).1]
        exact hb
      · exact (hold a (Heap.lt_next_of_get hget)).trans hget
    · cases ha
      obtain ⟨e, he, hname⟩ := named_iff.1 hnamed
      have hlog : onTable e.name (log ++ [stmt]) = [stmt] := by
        rw [onTable_snoc, if_pos hname.symm, hname, hnone, List.nil_append]
      exact ⟨e, base, tab, tab', he, Or.inl ((hold it.base (hrest.base it hit).1).trans hbase),
        hclone, hnew, by rw [hlog, hredo], by simp [hlog]⟩
  · by_cases hn : stmt.tableName.bytes = n
    · subst hn
      have := hok'.named_inj hwf' hx hself hnx hnamed
      rw [this] at hwx
      cases hwx
    · rw [onTable_snoc, if_neg hn] at hne
      rcases List.mem_or_eq_of_mem_set hx with hx | rfl
      · exact h.unworked n hne x hx hnx hwx b ((hold x.base (hrest.base x hx).1).symm.trans hb)
      · cases hwx
  · by_cases hn : stmt.tableName.bytes = n
    · subst hn
      have hsame := hall _ hself
      exact absurd (hnamed.symm.trans hsame) (by decide)
    · rw [onTable_snoc, if_neg hn] at hne
      rw [hseen]
      refine h.unseen n hne fun x hx => ?_
      rcases mem_set_or (i := i) hx { it with work := some db.heap.next, dirty := true } with
        hxi | hx
      · rw [hi] at hxi
        obtain rfl := Option.some.inj hxi
        have hsame := hall _ hself
        exact hsame
      · exact hall x hx

theorem Follows.again {a : Nat} {tab tab' : TabVer} (h : Follows db tx log)
    (hrest : db.Rest ws tx) (hwf : db.Wf ws) (hsub : ∀ a ∈ tx.works, a ∈ ws)
    (hit : it ∈ tx.tabs) (hnamed : db.named stmt.tableName.bytes it = true)
    (hw : it.work = some a) (hget : db.heap.get a = some tab)
    (hredo : log ≠ [] → tab.redo [stmt] = .ok tab')
    (hseen : ∀ n, ({ db with heap := db.heap.set a tab' } : Db).seen tx.snapId n =
      db.seen tx.snapId n) :
    Follows { db with heap := db.heap.set a tab' } tx (log ++ [stmt]) := by
  have hbases : ∀ x ∈ tx.tabs, (db.heap.set a tab').get x.base = db.heap.get x.base := by
    refine fun x hx => Heap.get_set_of_ne _ _ fun heq => (hrest.base x hx).2.1 ?_
    rw [heq]
    exact hsub a (mem_works hit hw)
  refine ⟨fun x hx b hb => ?_, fun n hne x hx hnx hwx base hbase => ?_, fun n hne hall => ?_⟩
  · obtain ⟨e, base, t, w, he, hbase, hclone, hgetb, hre, hne⟩ := h.worked x hx b hb
    have hbase' : (db.heap.set a tab').get x.base = some base ∨
        (db.heap.set a tab').get x.base = none := by
      rw [hbases x hx]
      exact hbase
    by_cases hn : stmt.tableName.bytes = e.name
    · have := hrest.ok.named_inj hwf hx hit (named_iff.2 ⟨e, he, hn.symm⟩) hnamed
      subst this
      rw [hw] at hb
      cases hb
      rw [hget] at hgetb
      cases hgetb
      have hlog : log ≠ [] := by
        rintro rfl
        exact hne rfl
      refine ⟨e, base, t, tab', he, hbase', hclone, Heap.get_set_self tab' hget, ?_, ?_⟩
      · rw [onTable_snoc, if_pos hn, TabVer.redo_append, hre]
        exact hredo hlog
      · rw [onTable_snoc, if_pos hn]
        exact List.append_ne_nil_of_left_ne_nil hne _
    · have hba : b ≠ a := by
        rintro rfl
        obtain ⟨e₁, he₁, hname₁⟩ := hrest.ok.ents x hx
        obtain ⟨e₂, he₂, hname₂⟩ := hrest.ok.ents it hit
        obtain ⟨e₃, he₃, hname₃⟩ := named_iff.1 hnamed
        rw [he] at he₁
        cases he₁
        rw [he₂] at he₃
        cases he₃
        rw [← hname₁ b tab hb hget, hname₂ b tab hw hget] at hn
        exact hn hname₃.symm
      rw [← show onTable e.name (log ++ [stmt]) = onTable e.name log by
        rw [onTable_snoc, if_neg hn]] at hre hne
      exact ⟨e, base, t, w, he, hbase', hclone, (Heap.get_set_of_ne _ _ hba).trans hgetb, hre, hne⟩
  · by_cases hn : stmt.tableName.bytes = n
    · subst hn
      have := hrest.ok.named_inj hwf hx hit hnx hnamed
      rw [this, hw] at hwx
      cases hwx
    · rw [onTable_snoc, if_neg hn] at hne
      exact h.unworked n hne x hx hnx hwx base ((hbases x hx).symm.trans hbase)
  · by_cases hn : stmt.tableName.bytes = n
    · subst hn
      exact absurd (hnamed.symm.trans (hall it hit)) (by decide)
    · rw [onTable_snoc, if_neg hn] at hne
      rw [hseen]
      exact h.unseen n hne hall

theorem redo_single {tab tab' : TabVer} (h : ∃ r, tab.execStmt stmt {} = .ok (tab', r, ok)) :
    tab.redo [stmt] = .ok tab' := by
  obtain ⟨r, h⟩ := h
  rw [TabVer.redo, h]
  rfl

/-- **After a write statement.** -/
theorem Follows.write (h : Follows db tx log) (ht : Told db tx item? stmt.tableName.bytes)
    (hrest : db.Rest (tx.works ++ others) tx) (hwf : db.Wf (tx.works ++ others))
    (hrest' : db'.Rest (tx'.works ++ others) tx') (hwf' : db'.Wf (tx'.works ++ others))
    (hq : Quiet db db') (hcount : res₀.count = 0 ∨ log = []) (hwr : stmt.isWr = true)
    (hc : WriteCase db tx item? stmt res₀ db' tx') : Follows db' tx' (log ++ [stmt]) := by
  have hsub : ∀ a ∈ tx.works, a ∈ tx.works ++ others := fun a ha => List.mem_append_left _ ha
  have htold : ∀ {i it}, item? = some i → tx.tabs[i]? = some it →
      db.named stmt.tableName.bytes it = true := fun hitem hi => by
    obtain ⟨it₁, hi₁, hnamed⟩ := ht.some _ hitem
    rw [hi] at hi₁
    cases hi₁
    exact hnamed
  cases hc with
  | missing hitem =>
      have hnone : item? = none := by
        cases hi : item? with
        | none => rfl
        | some i =>
            obtain ⟨it, hit, -⟩ := ht.some i hi
            rw [hi, Option.bind_some, hit] at hitem
            cases hitem
      obtain ⟨hnew, hunseen⟩ := ht.none hnone
      refine h.missed (fun it hit hnamed => ?_) fun _ => hunseen
      rw [hnew it hit] at hnamed
      cases hnamed
  | @uncopied i it base hitem hi hw hbase hclone =>
      have hnamed := htold hitem hi
      have hit := List.mem_of_getElem? hi
      refine h.missed (fun x hx hnx => ?_) fun hall => ?_
      · have := hrest.ok.named_inj hwf hx hit hnx hnamed
        subst this
        refine ⟨hw, fun b hb => ?_⟩
        rw [hbase] at hb
        cases hb
        exact hclone
      · rw [hall it hit] at hnamed
        cases hnamed
  | @first i it base tab tab' res ok hitem hi hw hbase hclone hrun =>
      refine h.first hrest hi (htold hitem hi) hw hbase hclone
        (redo_single (TabVer.execStmt_tabClone hclone {} hrun hwr)) (fun b hb => ?_)
        (Heap.get_set_self tab' (Heap.get_alloc_next _ _)) (hq.seen tx.snapId) hwf' hrest'.ok
      rw [Heap.get_set_of_ne _ _ (Nat.ne_of_lt hb), Heap.get_alloc_of_lt _ hb]
  | @again i a it tab tab' res ok hitem hi hw hget hrun =>
      refine h.again hrest hwf hsub (List.mem_of_getElem? hi) (htold hitem hi) hw hget
        (fun hlog => ?_) (hq.seen tx.snapId)
      exact redo_single (TabVer.execStmt_same (hcount.resolve_right hlog) hrun hwr)

end Db

end MiniDbms
