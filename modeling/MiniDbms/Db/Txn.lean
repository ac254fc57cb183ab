import MiniDbms.Db.Visible
import MiniDbms.Lib.Lists

/-!
# The private steps of a transaction

What `tx_view`, `tx_make_work` and a statement do to the store and to the
transaction they belong to.
-/

namespace MiniDbms

/-- The working copies of a transaction. -/
def DbTx.works (tx : DbTx) : List Nat := tx.tabs.filterMap TxTab.work

namespace Db

/-- What a private step of one transaction leaves alone; `others` are the working
copies of the other transactions. -/
structure Private (others : List Nat) (db db' : Db) : Prop where
  stable : Stable (1 ≤ ·) db db'
  com : db'.com = db.com
  mv : db'.mv = db.mv
  maxSql : db'.maxSql = db.maxSql
  maxQry : db'.maxQry = db.maxQry
  works : ∀ a ∈ others, db'.heap.get a = db.heap.get a

variable {db db' db'' : Db} {ws others : List Nat} {tx tx' : DbTx} {name : Bytes}

theorem Private.refl (others : List Nat) (db : Db) : Private others db db :=
  ⟨Stable.refl _ db, rfl, rfl, rfl, rfl, fun _ _ => rfl⟩

theorem Private.trans (h : Private others db db') (h' : Private others db' db'') :
    Private others db db'' where
  stable := h.stable.trans h'.stable
  com := h'.com.trans h.com
  mv := h'.mv.trans h.mv
  maxSql := h'.maxSql.trans h.maxSql
  maxQry := h'.maxQry.trans h.maxQry
  works := fun a ha => (h'.works a ha).trans (h.works a ha)

theorem Private.mono {others' : List Nat} (h : Private others db db')
    (hsub : ∀ a ∈ others', a ∈ others) : Private others' db db' :=
  { h with works := fun a ha => h.works a (hsub a ha) }

/-! ## Tables of a transaction -/

/-- The item stands for the table `name`. -/
def named (db : Db) (name : Bytes) (it : TxTab) : Bool :=
  (db.tabs[it.ent.idx]?).any fun e => e.name == name

theorem named_iff {it : TxTab} : db.named name it = true ↔
    ∃ e, db.tabs[it.ent.idx]? = some e ∧ e.name = name := by
  unfold named
  cases db.tabs[it.ent.idx]? <;> simp

structure TxOk (db : Db) (tx : DbTx) : Prop where
  ents : ∀ it ∈ tx.tabs, ∃ e, db.tabs[it.ent.idx]? = some e ∧
    ∀ a t, it.work = some a → db.heap.get a = some t → t.name = e.name
  nodup : (tx.tabs.map fun it => it.ent.idx).Nodup
  dirty : ∀ it ∈ tx.tabs, it.dirty = it.work.isSome

/-- The bases are the versions the transaction's snapshot sees. -/
def BaseOk (db : Db) (tx : DbTx) : Prop :=
  ∀ it ∈ tx.tabs, db.visAddr tx.snapId it.ent.idx = some it.base

/-- The content of the transaction's working copies. -/
def txWork (db : Db) (tx : DbTx) : Tables := fun name =>
  (tx.tabs.find? (db.named name)).bind fun it => it.work.bind db.heap.get

theorem txOk_nil (db : Db) (snap : Nat) : db.TxOk ⟨snap, []⟩ ∧ db.BaseOk ⟨snap, []⟩ :=
  ⟨⟨by simp, by simp, by simp⟩, by simp [BaseOk]⟩

theorem named_congr {S : Nat → Prop} (h : Stable S db db') {it : TxTab} {e : TabEnt}
    (he : db.tabs[it.ent.idx]? = some e) : db'.named name it = db.named name it := by
  obtain ⟨e', he', hn⟩ := h.ent he
  unfold named
  rw [he, he', Option.any_some, Option.any_some, hn]

theorem mem_works {it : TxTab} {a : Nat} (hit : it ∈ tx.tabs) (ha : it.work = some a) :
    a ∈ tx.works := List.mem_filterMap.2 ⟨it, hit, ha⟩

/-- A transaction does not notice what others do. -/
theorem TxOk.stable {S : Nat → Prop} (h : db.TxOk tx) (hst : Stable S db db')
    (hworks : ∀ a ∈ tx.works, db'.heap.get a = db.heap.get a) :
    db'.TxOk tx ∧ db'.txWork tx = db.txWork tx := by
  constructor
  · refine ⟨?_, h.nodup, h.dirty⟩
    intro it hit
    obtain ⟨e, he, hwork⟩ := h.ents it hit
    obtain ⟨e', he', hn⟩ := hst.ent he
    refine ⟨e', he', ?_⟩
    intro a t ha ht
    rw [hworks a (mem_works hit ha)] at ht
    rw [hn]
    exact hwork a t ha ht
  · funext n
    unfold txWork
    have hfind : ∀ its : List TxTab, (∀ it ∈ its, it ∈ tx.tabs) →
        its.find? (db'.named n) = its.find? (db.named n) := by
      intro its
      induction its with
      | nil => exact fun _ => rfl
      | cons it its ih =>
          intro hsub
          obtain ⟨e, he, -⟩ := h.ents it (hsub it List.mem_cons_self)
          rw [List.find?_cons, List.find?_cons, named_congr hst he,
            ih fun x hx => hsub x (List.mem_cons_of_mem _ hx)]
    rw [hfind tx.tabs fun _ hx => hx]
    cases hf : tx.tabs.find? (db.named n) with
    | none => rfl
    | some it =>
        rw [Option.bind_some, Option.bind_some]
        cases hw : it.work with
        | none => rfl
        | some a => exact hworks a (mem_works (List.mem_of_find?_eq_some hf) hw)

theorem BaseOk.stable {S : Nat → Prop} (h : db.BaseOk tx) (hst : Stable S db db')
    (hs : S tx.snapId) : db'.BaseOk tx :=
  fun it hit => hst.vis tx.snapId hs _ _ (h it hit)

/-! ## `tx_view` -/

theorem needEnt_private (hwf : db.Wf ws) {k : Nat} (h : db.needEnt name = .ok (some k, db'))
    (others : List Nat) (hsub : ∀ a ∈ others, a ∈ ws) :
    db'.Wf ws ∧ Private others db db' ∧ Ext db db' ∧
      ∃ e, db'.tabs[k]? = some e ∧ e.name = name := by
  have hc := db.needEnt_cases name
  rw [h] at hc
  cases hc with
  | there hg => exact ⟨hwf, Private.refl _ _, Ext.refl _, getEnt_spec hg⟩
  | @loaded tab hg hl =>
      obtain ⟨hwf', hext⟩ := hwf.addTab hg hl
      obtain ⟨hst, hcom⟩ := hwf.loaded_invisible hg hl
      refine ⟨hwf', ⟨hst, hcom, hext.mv, hext.maxSql, hext.maxQry, ?_⟩, hext, ?_⟩
      · intro a ha
        obtain ⟨t, ht, -⟩ := hwf.works a (hsub a ha)
        rw [hext.heap a t ht, ht]
      · refine ⟨⟨name, [db.heap.next]⟩, ?_, rfl⟩
        rw [addTab_tabs]
        simp

theorem needEnt_none (h : db.needEnt name = .ok (none, db')) :
    db' = db ∧ db.getEnt name = none ∧ tabLoad name (db.files name) = .ok none := by
  have hc := db.needEnt_cases name
  rw [h] at hc
  cases hc with
  | missing hg hl => exact ⟨rfl, hg, hl⟩

theorem txTab_cases (db : Db) (name : Bytes) : ∀ (items : List TxTab) (i : Nat),
    (∃ j it, items[j]? = some it ∧ db.txTab name i items = .ok (some (i + j)) ∧
      items.find? (db.named name) = some it ∧ db.named name it = true) ∨
    (db.txTab name i items = .ok none ∧ ∀ it ∈ items, db.named name it = false) ∨
    (db.txTab name i items = .error .staleEnt ∧
      ∃ it ∈ items, db.entAt it.ent = .error .staleEnt)
  | [], i => Or.inr (Or.inl ⟨rfl, by simp⟩)
  | it :: items, i => by
      rw [txTab]
      cases he : db.entAt it.ent with
      | error f =>
          have hf : f = .staleEnt := by
            unfold entAt at he
            split at he
            · split at he
              · cases he
              · cases he
                rfl
            · cases he
              rfl
          subst hf
          exact Or.inr (Or.inr ⟨rfl, it, List.mem_cons_self, he⟩)
      | ok e =>
          obtain ⟨-, hidx⟩ := entAt_ok he
          by_cases hn : e.name = name
          · have hnamed : db.named name it = true := named_iff.2 ⟨e, hidx, hn⟩
            refine Or.inl ⟨0, it, rfl, ?_, ?_, hnamed⟩
            · change (if e.name = name then _ else _) = _
              rw [if_pos hn]
              rfl
            · rw [List.find?_cons_of_pos hnamed]
          · have hnamed : db.named name it = false := by
              unfold named
              rw [hidx]
              simpa using hn
            change (_ ∨ ((if e.name = name then _ else _) = _ ∧ _) ∨
              ((if e.name = name then _ else _) = _ ∧ _))
            rw [if_neg hn]
            rcases txTab_cases db name items (i + 1) with
              ⟨j, x, hx, hres, hfind, hxn⟩ | ⟨hres, hall⟩ | ⟨hres, x, hx, hstale⟩
            · refine Or.inl ⟨j + 1, x, by simpa using hx, ?_, ?_, hxn⟩
              · change (if e.name = name then _ else _) = _
                rw [if_neg hn, hres, Nat.add_assoc, Nat.add_comm 1 j]
              · rw [List.find?_cons_of_neg (by simp [hnamed]), hfind]
            · refine Or.inr (Or.inl ⟨hres, ?_⟩)
              intro x hx
              rcases List.mem_cons.1 hx with rfl | hx
              · exact hnamed
              · exact hall x hx
            · exact Or.inr (Or.inr ⟨hres, x, List.mem_cons_of_mem _ hx, hstale⟩)

/-- The ways `tx_view` can go. -/
inductive TxView (db : Db) (tx : DbTx) (name : Bytes) :
    Except Fault (Option Nat × Db × DbTx) → Prop
  | found {i : Nat} {it : TxTab} (hi : tx.tabs[i]? = some it)
      (hfind : tx.tabs.find? (db.named name) = some it) :
      TxView db tx name (.ok (some i, db, tx))
  | stale {it : TxTab} (hit : it ∈ tx.tabs) (h : db.entAt it.ent = .error .staleEnt) :
      TxView db tx name (.error .staleEnt)
  | fault (hnew : ∀ it ∈ tx.tabs, db.named name it = false)
      (h : db.needEnt name = .error .ukOverflow) : TxView db tx name (.error .ukOverflow)
  | missing (hnew : ∀ it ∈ tx.tabs, db.named name it = false)
      (h : db.needEnt name = .ok (none, db)) : TxView db tx name (.ok (none, db, tx))
  | unseen {k : Nat} {db' : Db} (hnew : ∀ it ∈ tx.tabs, db.named name it = false)
      (h : db.needEnt name = .ok (some k, db')) (hv : db'.visAddr tx.snapId k = none) :
      TxView db tx name (.ok (none, db', tx))
  | viewed {k base : Nat} {db' : Db} (hnew : ∀ it ∈ tx.tabs, db.named name it = false)
      (h : db.needEnt name = .ok (some k, db')) (hv : db'.visAddr tx.snapId k = some base) :
      TxView db tx name (.ok (some tx.tabs.length, db',
        { tx with tabs := tx.tabs ++ [⟨⟨db'.tabsGen, k⟩, base, none, false⟩] }))

theorem txView_cases (hwf : db.Wf ws) (tx : DbTx) (name : Bytes) :
    TxView db tx name (db.txView tx name) := by
  unfold txView
  rcases txTab_cases db name tx.tabs 0 with
    ⟨j, it, hj, hres, hfind, -⟩ | ⟨hres, hnew⟩ | ⟨hres, it, hit, hstale⟩
  · rw [hres, Nat.zero_add]
    exact .found hj hfind
  · rw [hres]
    change TxView db tx name (do let r ← db.needEnt name; _)
    cases hn : db.needEnt name with
    | error f =>
        have hc := db.needEnt_cases name
        rw [hn] at hc
        cases hc
        exact .fault hnew hn
    | ok r =>
        obtain ⟨k?, db'⟩ := r
        cases k? with
        | none =>
            obtain ⟨rfl, -, -⟩ := needEnt_none hn
            exact .missing hnew hn
        | some k =>
            obtain ⟨hwf', -, -, e, he, -⟩ := needEnt_private hwf hn [] (by simp)
            have hent : db'.entAt ⟨db'.tabsGen, k⟩ = .ok e := entAt_fresh rfl he
            have hvis : db'.tabVis tx.snapId e.chain = .ok (db'.visAddr tx.snapId k) := by
              rw [tabVis_eq]
              · unfold visAddr
                rw [he]
                rfl
              · intro a ha
                obtain ⟨t, ht, -⟩ := (hwf'.chain e (List.mem_of_getElem? he)).live a ha
                exact ⟨t, ht⟩
            simp only [bind, Except.bind, hent, hvis]
            cases hv : db'.visAddr tx.snapId k with
            | none => exact .unseen hnew hn hv
            | some base => exact .viewed hnew hn hv
  · rw [hres]
    exact .stale hit hstale

theorem TxOk.viewed (hwf : db.Wf ws) (hok : db.TxOk tx) {k base : Nat}
    (hnew : ∀ it ∈ tx.tabs, db.named name it = false) (hsub : ∀ a ∈ tx.works, a ∈ ws)
    (h : db.needEnt name = .ok (some k, db')) :
    db'.TxOk { tx with tabs := tx.tabs ++ [⟨⟨db'.tabsGen, k⟩, base, none, false⟩] } ∧
      db'.txWork { tx with tabs := tx.tabs ++ [⟨⟨db'.tabsGen, k⟩, base, none, false⟩] } =
        db.txWork tx := by
  obtain ⟨hwf', hpriv, -, e, he, hname⟩ := needEnt_private hwf h tx.works hsub
  obtain ⟨hok', hwork'⟩ := hok.stable hpriv.stable hpriv.works
  constructor
  · refine ⟨?_, ?_, ?_⟩
    · intro it hit
      rcases List.mem_append.1 hit with hit | hit
      · exact hok'.ents it hit
      · rw [List.mem_singleton.1 hit]
        exact ⟨e, he, by simp⟩
    · rw [List.map_append, List.map_singleton]
      refine List.nodup_append.2 ⟨hok.nodup, by simp, ?_⟩
      intro x hx y hy hxy
      rw [List.mem_singleton] at hy
      obtain ⟨it, hit, rfl⟩ := List.mem_map.1 hx
      -- an item for the same entry would have the name
      obtain ⟨e₀, he₀, -⟩ := hok.ents it hit
      have hn : db'.named name it = true := by
        refine named_iff.2 ⟨e, ?_, hname⟩
        rw [hxy, hy]
        exact he
      rw [named_congr hpriv.stable he₀, hnew it hit] at hn
      cases hn
    · intro it hit
      rcases List.mem_append.1 hit with hit | hit
      · exact hok.dirty it hit
      · rw [List.mem_singleton.1 hit]
        rfl
  · rw [← hwork']
    funext n
    unfold txWork
    dsimp only
    rw [List.find?_append]
    cases hf : tx.tabs.find? (db'.named n) with
    | some it => rfl
    | none =>
        rw [Option.none_or]
        cases hl : [(⟨⟨db'.tabsGen, k⟩, base, none, false⟩ : TxTab)].find? (db'.named n) with
        | none => rfl
        | some it =>
            have hit := List.mem_of_find?_eq_some hl
            rw [List.mem_singleton.1 hit]
            rfl

theorem works_append_view (tx : DbTx) (p : EntPtr) (base : Nat) :
    ({ tx with tabs := tx.tabs ++ [⟨p, base, none, false⟩] } : DbTx).works = tx.works := by
  simp [DbTx.works]

/-! ## Working copies -/

theorem TxOk.named_unique (hwf : db.Wf ws) (hok : db.TxOk tx) {A B : List TxTab} {it : TxTab}
    (htabs : tx.tabs = A ++ it :: B) (hn : db.named name it = true) :
    (∀ x ∈ A, db.named name x = false) ∧ ∀ x ∈ B, db.named name x = false := by
  have key : ∀ x, db.named name x = true → x.ent.idx = it.ent.idx := by
    intro x hx
    obtain ⟨e, he, hen⟩ := named_iff.1 hn
    obtain ⟨e', he', hen'⟩ := named_iff.1 hx
    have h₁ := hwf.getEnt_eq he
    have h₂ := hwf.getEnt_eq he'
    rw [hen] at h₁
    rw [hen', h₁] at h₂
    exact (Option.some.inj h₂).symm
  have hnodup := hok.nodup
  rw [htabs, List.map_append, List.map_cons] at hnodup
  obtain ⟨-, hB, hAB⟩ := List.nodup_append.1 hnodup
  constructor
  · intro x hx
    rw [Bool.eq_false_iff]
    exact fun hxn => hAB _ (List.mem_map_of_mem hx) _ List.mem_cons_self (key x hxn)
  · intro x hx
    rw [Bool.eq_false_iff]
    intro hxn
    refine (List.nodup_cons.1 hB).1 ?_
    rw [← key x hxn]
    exact List.mem_map_of_mem hx

theorem txWork_split (hwf : db.Wf ws) {A B : List TxTab} {it : TxTab} {snap : Nat}
    (hok : db.TxOk ⟨snap, A ++ it :: B⟩) (hn : db.named name it = true) (n : Bytes) :
    db.txWork ⟨snap, A ++ it :: B⟩ n =
      if n = name then it.work.bind db.heap.get else db.txWork ⟨snap, A ++ B⟩ n := by
  obtain ⟨hA, hB⟩ := hok.named_unique hwf rfl hn
  unfold txWork
  dsimp only
  by_cases hne : n = name
  · subst hne
    rw [if_pos rfl, List.find?_append, List.find?_eq_none.2 (by simpa using hA), Option.none_or,
      List.find?_cons_of_pos hn]
    rfl
  · rw [if_neg hne, List.find?_append, List.find?_append, List.find?_cons_of_neg]
    obtain ⟨e, he, hen⟩ := named_iff.1 hn
    unfold named
    rw [he]
    simp only [Option.any_some, beq_iff_eq]
    exact fun h => hne (h.symm.trans hen)

theorem txWork_congr {A : List TxTab} {snap : Nat}
    (h : ∀ it ∈ A, (∀ n, db'.named n it = db.named n it) ∧
      ∀ a, it.work = some a → db'.heap.get a = db.heap.get a) :
    db'.txWork ⟨snap, A⟩ = db.txWork ⟨snap, A⟩ := by
  funext n
  unfold txWork
  dsimp only
  induction A with
  | nil => rfl
  | cons it A ih =>
      have hit := h it List.mem_cons_self
      rw [List.find?_cons, List.find?_cons, hit.1]
      cases hn : db.named n it with
      | true =>
          simp only [Option.bind_some]
          cases hw : it.work with
          | none => rfl
          | some a => exact hit.2 a hw
      | false => exact ih fun x hx => h x (List.mem_cons_of_mem _ hx)

/-- The store and one of its transactions; `others` are the working copies of the
other ones. -/
structure TxWf (db : Db) (tx : DbTx) (others : List Nat) : Prop where
  wf : db.Wf (tx.works ++ others)
  ok : db.TxOk tx

theorem TxWf.stable (h : TxWf db tx others) (hwf : db'.Wf (tx.works ++ others))
    (hp : Private (tx.works ++ others) db db') : TxWf db' tx others ∧
      db'.txWork tx = db.txWork tx := by
  obtain ⟨hok, hwork⟩ := h.ok.stable hp.stable fun a ha => hp.works a (List.mem_append_left _ ha)
  exact ⟨⟨hwf, hok⟩, hwork⟩

theorem BaseOk.private (h : db.BaseOk tx) (hp : Private others db db') (hs : 1 ≤ tx.snapId) :
    db'.BaseOk tx := h.stable hp.stable hs

theorem BaseOk.set (h : db.BaseOk tx) {i : Nat} {it it' : TxTab} (hi : tx.tabs[i]? = some it)
    (hent : it'.ent = it.ent) (hbase : it'.base = it.base) :
    db.BaseOk { tx with tabs := tx.tabs.set i it' } := by
  intro x hx
  rcases List.mem_or_eq_of_mem_set hx with hx | rfl
  · exact h x hx
  · rw [hent, hbase]
    exact h it (List.mem_of_getElem? hi)

theorem works_split (snap : Nat) (A B : List TxTab) (it : TxTab) :
    (⟨snap, A ++ it :: B⟩ : DbTx).works.Perm
      (it.work.toList ++ (⟨snap, A ++ B⟩ : DbTx).works) := by
  unfold DbTx.works
  dsimp only
  rw [List.filterMap_append, List.filterMap_append, List.filterMap_cons]
  cases it.work with
  | none => exact List.Perm.refl _
  | some a => exact List.perm_middle

/-- The working copy of one item is replaced: by a new object, or in place. -/
theorem TxWf.replace {snap a : Nat} {A B : List TxTab} {it it' : TxTab} {e : TabEnt} {w : TabVer}
    {heap : Heap TabVer} (h : TxWf db ⟨snap, A ++ it :: B⟩ others)
    (he : db.tabs[it.ent.idx]? = some e) (hent : it'.ent = it.ent) (hwork : it'.work = some a)
    (hdirty : it'.dirty = true) (hget : heap.get a = some w) (hname : w.name = e.name)
    (hshape : w.Shape)
    (hold : ∀ b ∈ db.chains ++ ((⟨snap, A ++ B⟩ : DbTx).works ++ others),
      heap.get b = db.heap.get b)
    (hfresh : a ∉ db.chains ++ ((⟨snap, A ++ B⟩ : DbTx).works ++ others)) :
    TxWf { db with heap := heap } ⟨snap, A ++ it' :: B⟩ others ∧
    Private others db { db with heap := heap } ∧
    ∀ n, ({ db with heap := heap } : Db).txWork ⟨snap, A ++ it' :: B⟩ n =
      if n = e.name then some w else db.txWork ⟨snap, A ++ it :: B⟩ n := by
  have hrest := works_split snap A B it
  have hmem : ∀ b ∈ db.chains ++ ((⟨snap, A ++ B⟩ : DbTx).works ++ others),
      b ∈ db.chains ++ ((⟨snap, A ++ it :: B⟩ : DbTx).works ++ others) := by
    intro b hb
    rcases List.mem_append.1 hb with hb | hb
    · exact List.mem_append_left _ hb
    · refine List.mem_append_right _ ?_
      rcases List.mem_append.1 hb with hb | hb
      · exact List.mem_append_left _ (hrest.mem_iff.2 (List.mem_append_right _ hb))
      · exact List.mem_append_right _ hb
  have hperm : ((⟨snap, A ++ it' :: B⟩ : DbTx).works ++ others).Perm
      (a :: ((⟨snap, A ++ B⟩ : DbTx).works ++ others)) := by
    have := works_split snap A B it'
    rw [hwork] at this
    exact this.append_right others
  have hnamed : ∀ n x, ({ db with heap := heap } : Db).named n x = db.named n x := fun _ _ => rfl
  have hstay : ∀ x ∈ A ++ B, ∀ b, x.work = some b → heap.get b = db.heap.get b := by
    intro x hx b hb
    exact hold b (List.mem_append_right _ (List.mem_append_left _ (mem_works hx hb)))
  have hmemAB : ∀ x ∈ A ++ B, x ∈ A ++ it :: B := by
    intro x hx
    rcases List.mem_append.1 hx with hx | hx
    · exact List.mem_append_left _ hx
    · exact List.mem_append_right _ (List.mem_cons_of_mem _ hx)
  have hitems : ∀ x ∈ A ++ it' :: B, x = it' ∨ x ∈ A ++ B := by
    intro x hx
    rcases List.mem_append.1 hx with hx | hx
    · exact Or.inr (List.mem_append_left _ hx)
    · rcases List.mem_cons.1 hx with hx | hx
      · exact Or.inl hx
      · exact Or.inr (List.mem_append_right _ hx)
  have hwf' : ({ db with heap := heap } : Db).Wf
      (a :: ((⟨snap, A ++ B⟩ : DbTx).works ++ others)) := by
    refine ⟨h.wf.names, ?_, ?_, ?_, h.wf.curVer_pos⟩
    · have hmid : (db.chains ++ a :: ((⟨snap, A ++ B⟩ : DbTx).works ++ others)).Perm
          (a :: (db.chains ++ ((⟨snap, A ++ B⟩ : DbTx).works ++ others))) := List.perm_middle
      refine hmid.nodup_iff.2 (List.nodup_cons.2 ⟨hfresh, ?_⟩)
      have hle : ((⟨snap, A ++ B⟩ : DbTx).works ++ others).Sublist
          (it.work.toList ++ (⟨snap, A ++ B⟩ : DbTx).works ++ others) := by
        rw [List.append_assoc]
        exact List.sublist_append_right _ _
      have hnd := (List.Perm.append_left db.chains (hrest.append_right others)).nodup_iff.1 h.wf.owned
      exact hnd.sublist ((List.Sublist.refl db.chains).append hle)
    · exact fun x hx => (h.wf.chain x hx).congr (fun b hb =>
        hold b (List.mem_append_left _ (mem_chains.2 ⟨x, hx, hb⟩))) (Nat.le_refl _)
    · intro b hb
      rcases List.mem_cons.1 hb with rfl | hb
      · exact ⟨w, hget, hshape⟩
      · obtain ⟨t, ht, hs⟩ := h.wf.live (hmem b (List.mem_append_right _ hb))
        exact ⟨t, by rw [← ht]; exact hold b (List.mem_append_right _ hb), hs⟩
  have hok' : ({ db with heap := heap } : Db).TxOk ⟨snap, A ++ it' :: B⟩ := by
    refine ⟨?_, ?_, ?_⟩
    · intro x hx
      rcases hitems x hx with rfl | hx
      · refine ⟨e, by rw [hent]; exact he, ?_⟩
        intro b t hb ht
        rw [hwork] at hb
        cases hb
        rw [show heap.get a = some t from ht] at hget
        cases hget
        exact hname
      · obtain ⟨e', he', hw⟩ := h.ok.ents x (hmemAB x hx)
        refine ⟨e', he', fun b t hb ht => hw b t hb ?_⟩
        rw [← hstay x hx b hb]
        exact ht
    · have := h.ok.nodup
      simp only [List.map_append, List.map_cons, hent] at this ⊢
      exact this
    · intro x hx
      rcases hitems x hx with rfl | hx
      · rw [hdirty, hwork]
        rfl
      · exact h.ok.dirty x (hmemAB x hx)
  obtain ⟨hst, hcom⟩ : Stable (1 ≤ ·) db { db with heap := heap } ∧ _ :=
    heap_invisible fun b hb => hold b (List.mem_append_left _ hb)
  refine ⟨⟨hwf'.perm hperm.symm, hok'⟩, ⟨hst, hcom, rfl, rfl, rfl, ?_⟩, ?_⟩
  · exact fun b hb => hold b (List.mem_append_right _ (List.mem_append_right _ hb))
  · intro n
    have hn : db.named e.name it = true := named_iff.2 ⟨e, he, rfl⟩
    have hn' : ({ db with heap := heap } : Db).named e.name it' = true :=
      named_iff.2 ⟨e, by rw [hent]; exact he, rfl⟩
    rw [txWork_split hwf' hok' hn', txWork_split h.wf h.ok hn]
    split
    · rw [hwork]
      exact hget
    · refine congrFun (txWork_congr fun x hx => ⟨fun n => hnamed n x, ?_⟩) n
      exact fun b hb => hstay x hx b hb

theorem TxWf.make_work (h : TxWf db tx others) {i : Nat} {it : TxTab} {e : TabEnt} {w : TabVer}
    (hi : tx.tabs[i]? = some it) (he : db.tabs[it.ent.idx]? = some e)
    (hname : w.name = e.name) (hshape : w.Shape) :
    TxWf { db with heap := db.heap.alloc w } { tx with
      tabs := tx.tabs.set i { it with work := some db.heap.next, dirty := true } } others ∧
    Private others db { db with heap := db.heap.alloc w } ∧
    ∀ n, ({ db with heap := db.heap.alloc w } : Db).txWork { tx with
      tabs := tx.tabs.set i { it with work := some db.heap.next, dirty := true } } n =
        if n = e.name then some w else db.txWork tx n := by
  obtain ⟨snap, tabs⟩ := tx
  obtain ⟨A, B, rfl, -, hset⟩ := split_at hi
  simp only [hset]
  have hmem : ∀ b ∈ db.chains ++ ((⟨snap, A ++ B⟩ : DbTx).works ++ others),
      b ∈ db.chains ++ ((⟨snap, A ++ it :: B⟩ : DbTx).works ++ others) := by
    have hrest := works_split snap A B it
    intro b hb
    simp only [List.mem_append, hrest.mem_iff] at hb ⊢
    tauto
  refine h.replace he rfl rfl rfl (Heap.get_alloc_next _ _) hname hshape ?_ ?_
  · intro b hb
    obtain ⟨t, ht, -⟩ := h.wf.live (hmem b hb)
    rw [Heap.get_alloc_of_get w ht, ht]
  · exact fun hb => h.wf.next_not_mem (hmem _ hb)

theorem TxWf.set_work (h : TxWf db tx others) {i a : Nat} {it : TxTab} {e : TabEnt} {w : TabVer}
    (hi : tx.tabs[i]? = some it) (hwork : it.work = some a) (he : db.tabs[it.ent.idx]? = some e)
    (hname : w.name = e.name) (hshape : w.Shape) :
    TxWf { db with heap := db.heap.set a w } tx others ∧
    Private others db { db with heap := db.heap.set a w } ∧
    ∀ n, ({ db with heap := db.heap.set a w } : Db).txWork tx n =
      if n = e.name then some w else db.txWork tx n := by
  obtain ⟨snap, tabs⟩ := tx
  obtain ⟨A, B, rfl, -, -⟩ := split_at hi
  have hrest := works_split snap A B it
  rw [hwork] at hrest
  have hfresh : a ∉ db.chains ++ ((⟨snap, A ++ B⟩ : DbTx).works ++ others) := by
    have hnd := (List.Perm.append_left db.chains (hrest.append_right others)).nodup_iff.1 h.wf.owned
    have hmid : (db.chains ++ (some a).toList ++ (⟨snap, A ++ B⟩ : DbTx).works ++ others).Perm
        (a :: (db.chains ++ ((⟨snap, A ++ B⟩ : DbTx).works ++ others))) := by
      simp only [Option.toList_some, List.append_assoc, List.singleton_append]
      exact List.perm_middle
    rw [← List.append_assoc, ← List.append_assoc] at hnd
    exact (List.nodup_cons.1 (hmid.nodup_iff.1 hnd)).1
  have hdirty : it.dirty = true := by
    rw [h.ok.dirty it (List.mem_of_getElem? hi), hwork]
    rfl
  obtain ⟨t, ht, -⟩ := h.wf.works a (List.mem_append_left _ (mem_works (List.mem_of_getElem? hi) hwork))
  exact h.replace he rfl hwork hdirty (Heap.get_set_self w ht) hname hshape
    (fun b hb => Heap.get_set_of_ne _ _ fun hba => hfresh (hba ▸ hb)) hfresh

end Db

end MiniDbms
