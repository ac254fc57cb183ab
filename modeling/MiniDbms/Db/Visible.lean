import MiniDbms.Db.Wf

/-!
# What snapshots see

`seen` is the content every snapshot id finds in the store, and `com` the
committed content.  A table that is not loaded yet counts with the content of its
file.  Loading, pruning and the private work of transactions change neither, and
a commit changes nothing for older snapshots.
-/

namespace MiniDbms

/-- The content of every table. -/
abbrev Tables := Bytes → Option TabVer

/-- The table in a file, if it can be loaded. -/
def loadable (name : Bytes) (file : Option Bytes) : Option TabVer :=
  match tabLoad name file with
  | .ok (some tab) => some tab
  | _ => none

namespace Db

/-- The address of the version a snapshot sees of table number `k`. -/
def visAddr (db : Db) (snap k : Nat) : Option Nat :=
  (db.tabs[k]?).bind fun e => visOf db.heap snap e.chain

def headAddr (db : Db) (k : Nat) : Option Nat := (db.tabs[k]?).bind fun e => e.chain.head?

def seen (db : Db) (snap : Nat) : Tables := fun name =>
  match db.getEnt name with
  | some k => (db.visAddr snap k).bind db.heap.get
  | none => loadable name (db.files name)

def com (db : Db) : Tables := fun name =>
  match db.getEnt name with
  | some k => (db.headAddr k).bind db.heap.get
  | none => loadable name (db.files name)

/-- A snapshot finds a version of every loaded table. -/
def Sees (db : Db) (snap : Nat) : Prop :=
  ∀ (k : Nat) (e : TabEnt), db.tabs[k]? = some e → ∃ a, db.visAddr snap k = some a

/-- The snapshots in `S` see the same versions before and after. -/
structure Stable (S : Nat → Prop) (db db' : Db) : Prop where
  names : db.tabs.map TabEnt.name <+: db'.tabs.map TabEnt.name
  vis : ∀ s, S s → ∀ k a, db.visAddr s k = some a → db'.visAddr s k = some a
  seen : ∀ s, S s → db'.seen s = db.seen s
  sees : ∀ s, S s → db.Sees s → db'.Sees s

variable {S : Nat → Prop} {db db' db'' : Db} {ws : List Nat}

theorem Stable.trans (h : Stable S db db') (h' : Stable S db' db'') : Stable S db db'' where
  names := h.names.trans h'.names
  vis := fun s hs k a ha => h'.vis s hs k a (h.vis s hs k a ha)
  seen := fun s hs => (h'.seen s hs).trans (h.seen s hs)
  sees := fun s hs hall => h'.sees s hs (h.sees s hs hall)

theorem Stable.mono {S' : Nat → Prop} (h : Stable S db db') (hS : ∀ s, S' s → S s) :
    Stable S' db db' where
  names := h.names
  vis := fun s hs => h.vis s (hS s hs)
  seen := fun s hs => h.seen s (hS s hs)
  sees := fun s hs => h.sees s (hS s hs)

theorem Stable.refl (S : Nat → Prop) (db : Db) : Stable S db db :=
  ⟨List.prefix_rfl, fun _ _ _ _ h => h, fun _ _ => rfl, fun _ _ h => h⟩

theorem Stable.ent (h : Stable S db db') {k : Nat} {e : TabEnt} (he : db.tabs[k]? = some e) :
    ∃ e', db'.tabs[k]? = some e' ∧ e'.name = e.name := by
  obtain ⟨new, hnew⟩ := h.names
  have hk : (db'.tabs.map TabEnt.name)[k]? = some e.name := by
    rw [← hnew, List.getElem?_append_left (by
      rw [List.length_map]
      exact (List.getElem?_eq_some_iff.1 he).1), List.getElem?_map, he]
    rfl
  rw [List.getElem?_map] at hk
  obtain ⟨e', he', hn⟩ := Option.map_eq_some_iff.1 hk
  exact ⟨e', he', hn⟩

theorem getEnt_congr {name : Bytes} (h : db'.tabs.map TabEnt.name = db.tabs.map TabEnt.name) :
    db'.getEnt name = db.getEnt name := by
  have key : ∀ d : Db, d.getEnt name = (d.tabs.map TabEnt.name).findIdx? (· == name) := by
    intro d
    unfold getEnt
    rw [List.findIdx?_map]
    rfl
  rw [key, key, h]

theorem ent_of_names (h : db'.tabs.map TabEnt.name = db.tabs.map TabEnt.name) {k : Nat}
    {e' : TabEnt} (he : db'.tabs[k]? = some e') : ∃ e, db.tabs[k]? = some e := by
  have hlen := congrArg List.length h
  rw [List.length_map, List.length_map] at hlen
  have hk := (List.getElem?_eq_some_iff.1 he).1
  exact ⟨db.tabs[k], List.getElem?_eq_getElem (hlen ▸ hk)⟩

theorem getEnt_append {ents : List TabEnt} (htabs : db'.tabs = db.tabs ++ ents) {name : Bytes}
    {k : Nat} (h : db.getEnt name = some k) : db'.getEnt name = some k := by
  unfold getEnt at h ⊢
  rw [htabs, List.findIdx?_append, h]
  rfl

/-- The snapshots of `S` see the same of an entry and of the one that takes its place. -/
def SameVis (S : Nat → Prop) (heap heap' : Heap TabVer) (e e' : TabEnt) : Prop :=
  ∀ s, S s → visOf heap' s e'.chain = visOf heap s e.chain ∧
    ∀ a, visOf heap s e.chain = some a → heap'.get a = heap.get a

theorem Stable.of_ents (hnames : db.tabs.map TabEnt.name <+: db'.tabs.map TabEnt.name)
    (hget : ∀ n k, db.getEnt n = some k → db'.getEnt n = some k)
    (hent : ∀ (k : Nat) (e : TabEnt), db.tabs[k]? = some e →
      ∃ e', db'.tabs[k]? = some e' ∧ SameVis S db.heap db'.heap e e')
    (hall : ∀ (k : Nat) (e' : TabEnt), db'.tabs[k]? = some e' →
      (∃ e, db.tabs[k]? = some e) ∨ ∀ s, S s → ∃ a, db'.visAddr s k = some a)
    (hnew : ∀ s, S s → ∀ n, db.getEnt n = none → db'.seen s n = loadable n (db.files n)) :
    Stable S db db' := by
  have hvis : ∀ s, S s → ∀ k a, db.visAddr s k = some a → db'.visAddr s k = some a ∧
      db'.heap.get a = db.heap.get a := by
    intro s hs k a ha
    obtain ⟨e, he, ha⟩ := Option.bind_eq_some_iff.1 ha
    obtain ⟨e', he', hsame⟩ := hent k e he
    refine ⟨?_, (hsame s hs).2 a ha⟩
    unfold visAddr
    rw [he', Option.bind_some, (hsame s hs).1, ha]
  refine ⟨hnames, fun s hs k a ha => (hvis s hs k a ha).1, fun s hs => ?_, fun s hs hsees => ?_⟩
  rotate_left
  · intro k e' he'
    rcases hall k e' he' with ⟨e, he⟩ | hnew
    · obtain ⟨a, ha⟩ := hsees k e he
      exact ⟨a, (hvis s hs k a ha).1⟩
    · exact hnew s hs
  funext n
  cases hg : db.getEnt n with
  | none =>
      rw [hnew s hs n hg]
      unfold Db.seen
      rw [hg]
  | some k =>
      unfold Db.seen
      rw [hg, hget n k hg]
      dsimp only
      obtain ⟨e, he, -⟩ := getEnt_spec hg
      obtain ⟨e', he', hsame⟩ := hent k e he
      cases hv : db.visAddr s k with
      | some a =>
          rw [(hvis s hs k a hv).1, Option.bind_some, Option.bind_some, (hvis s hs k a hv).2]
      | none =>
          unfold visAddr at hv ⊢
          rw [he, Option.bind_some] at hv
          rw [he', Option.bind_some, (hsame s hs).1, hv]
          rfl

theorem com_of_ents (hget : ∀ n k, db.getEnt n = some k → db'.getEnt n = some k)
    (hent : ∀ (k : Nat) (e : TabEnt), db.tabs[k]? = some e →
      ∃ e', db'.tabs[k]? = some e' ∧ e'.chain.head? = e.chain.head? ∧
        ∀ a, e.chain.head? = some a → db'.heap.get a = db.heap.get a)
    (hnew : ∀ n, db.getEnt n = none → db'.com n = loadable n (db.files n)) :
    db'.com = db.com := by
  funext n
  cases hg : db.getEnt n with
  | none =>
      rw [hnew n hg]
      unfold com
      rw [hg]
  | some k =>
      obtain ⟨e, he, -⟩ := getEnt_spec hg
      obtain ⟨e', he', hhead, hsame⟩ := hent k e he
      unfold com headAddr
      rw [hg, hget n k hg]
      dsimp only
      rw [he, he', Option.bind_some, Option.bind_some, hhead]
      cases hv : e.chain.head? with
      | none => rfl
      | some a => exact hsame a hv

/-! ## Private work -/

theorem sameVis_of_heap {heap heap' : Heap TabVer} {e : TabEnt}
    (h : ∀ a ∈ e.chain, heap'.get a = heap.get a) : SameVis S heap heap' e e :=
  fun _ _ => ⟨visOf_congr h, fun a ha => h a (visOf_mem ha).1⟩

/-- Changes outside the chains are invisible. -/
theorem heap_invisible {heap : Heap TabVer} (h : ∀ a ∈ db.chains, heap.get a = db.heap.get a) :
    Stable S db { db with heap := heap } ∧ ({ db with heap := heap } : Db).com = db.com := by
  have hchain : ∀ (k : Nat) (e : TabEnt), db.tabs[k]? = some e →
      ∀ a ∈ e.chain, heap.get a = db.heap.get a :=
    fun k e he a ha => h a (mem_chains.2 ⟨e, List.mem_of_getElem? he, ha⟩)
  constructor
  · refine Stable.of_ents List.prefix_rfl (fun _ _ hg => hg)
      (fun k e he => ⟨e, he, sameVis_of_heap (hchain k e he)⟩) (fun k e he => Or.inl ⟨e, he⟩)
      fun s _ n hg => ?_
    unfold Db.seen
    change (match db.getEnt n with | some k => _ | none => _) = _
    rw [hg]
  · refine com_of_ents (fun _ _ hg => hg)
      (fun k e he => ⟨e, he, rfl, fun a ha => hchain k e he a (List.mem_of_mem_head? ha)⟩)
      fun n hg => ?_
    unfold com
    change (match db.getEnt n with | some k => _ | none => _) = _
    rw [hg]

theorem mv_invisible (mv : Mvcc) :
    Stable S db { db with mv := mv } ∧ ({ db with mv := mv } : Db).com = db.com :=
  ⟨⟨List.prefix_rfl, fun _ _ _ _ h => h, fun _ _ => rfl, fun _ _ h => h⟩, rfl⟩

/-! ## Loading -/

theorem Wf.loaded_invisible (h : db.Wf ws) {name : Bytes} {tab : TabVer}
    (hnew : db.getEnt name = none) (hl : tabLoad name (db.files name) = .ok (some tab)) :
    Stable (1 ≤ ·) db (db.addTab name tab) ∧ (db.addTab name tab).com = db.com := by
  obtain ⟨hwf, hext⟩ := h.addTab hnew hl
  have htabs := db.addTab_tabs name tab
  have hheap := db.addTab_heap name tab
  have hver := (TabVer.tabLoad_shape hl).2.2.1
  set db' := db.addTab name tab
  have hold : ∀ (k : Nat) (e : TabEnt), db.tabs[k]? = some e → ∀ a ∈ e.chain,
      db'.heap.get a = db.heap.get a := by
    intro k e he a ha
    obtain ⟨t, ht, -⟩ := h.live (List.mem_append_left ws
      (mem_chains.2 ⟨e, List.mem_of_getElem? he, ha⟩))
    rw [hext.heap a t ht, ht]
  have hlast : db'.tabs[db.tabs.length]? = some ⟨name, [db.heap.next]⟩ := by
    rw [htabs]
    simp
  have hnewEnt : db'.getEnt name = some db.tabs.length := hwf.getEnt_eq hlast
  have hload : loadable name (db.files name) = some tab := by
    unfold loadable
    rw [hl]
  have hother : ∀ n, n ≠ name → db.getEnt n = none → db'.getEnt n = none := by
    intro n hn hg
    unfold getEnt at hg ⊢
    rw [htabs, List.findIdx?_append, hg]
    simp [Ne.symm hn]
  constructor
  · have hhead : ∀ s, 1 ≤ s → db'.visAddr s db.tabs.length = some db.heap.next := by
      intro s hs
      unfold visAddr visOf
      rw [hlast, Option.bind_some, List.find?_cons_of_pos]
      rw [hheap, Heap.get_alloc_next]
      simpa [hver] using hs
    refine Stable.of_ents ?_ (fun n k hg => getEnt_append htabs hg)
      (fun k e he => ⟨e, hext.ent he, sameVis_of_heap (hold k e he)⟩) ?_ fun s hs n hg => ?_
    · rw [htabs, List.map_append]
      exact List.prefix_append _ _
    · intro k e' he'
      rcases Nat.lt_or_ge k db.tabs.length with hk | hk
      · exact Or.inl ⟨db.tabs[k], List.getElem?_eq_getElem hk⟩
      · have hlt := (List.getElem?_eq_some_iff.1 he').1
        rw [htabs, List.length_append, List.length_singleton] at hlt
        rw [show k = db.tabs.length by omega]
        exact Or.inr fun s hs => ⟨_, hhead s hs⟩
    · by_cases hn : n = name
      · subst hn
        unfold Db.seen
        rw [hnewEnt]
        dsimp only
        rw [hload, hhead s hs, Option.bind_some, hheap, Heap.get_alloc_next]
      · unfold Db.seen
        rw [hother n hn hg, hext.files]
  · refine com_of_ents (fun n k hg => getEnt_append htabs hg) (fun k e he =>
      ⟨e, hext.ent he, rfl, fun a ha => hold k e he a (List.mem_of_mem_head? ha)⟩) fun n hg => ?_
    by_cases hn : n = name
    · subst hn
      unfold com headAddr
      rw [hnewEnt]
      dsimp only
      rw [hload, hlast, Option.bind_some, List.head?_cons, Option.bind_some, hheap,
        Heap.get_alloc_next]
    · unfold com
      rw [hother n hn hg, hext.files]

/-- The file of a loaded table is not read again. -/
theorem files_invisible {files : Bytes → Option Bytes}
    (h : ∀ n, db.getEnt n = none → files n = db.files n) :
    Stable S db { db with files := files } ∧ ({ db with files := files } : Db).com = db.com := by
  constructor
  · refine Stable.of_ents List.prefix_rfl (fun _ _ hg => hg)
      (fun k e he => ⟨e, he, sameVis_of_heap fun _ _ => rfl⟩) (fun k e he => Or.inl ⟨e, he⟩)
      fun s _ n hg => ?_
    unfold Db.seen
    change (match db.getEnt n with | some k => _ | none => _) = _
    rw [hg]
    change loadable n (files n) = _
    rw [h n hg]
  · refine com_of_ents (fun _ _ hg => hg) (fun k e he => ⟨e, he, rfl, fun _ _ => rfl⟩) fun n hg => ?_
    unfold com
    change (match db.getEnt n with | some k => _ | none => _) = _
    rw [hg]
    change loadable n (files n) = _
    rw [h n hg]

/-! ## Pruning -/

theorem forall₂_getElem? {heap : Heap TabVer} {keepId : Nat} {ents ents' : List TabEnt}
    (h : List.Forall₂ (Pruned heap keepId) ents ents') :
    ∀ (k : Nat) (e : TabEnt), ents[k]? = some e →
      ∃ e', ents'[k]? = some e' ∧ Pruned heap keepId e e' := by
  induction h with
  | nil => simp
  | cons he _ ih =>
      intro k e hk
      cases k with
      | zero =>
          simp only [List.getElem?_cons_zero, Option.some.injEq] at hk
          subst hk
          exact ⟨_, rfl, he⟩
      | succ k => exact ih k e (by simpa using hk)

/-- No snapshot from `keepId` on loses a version, and no head is released. -/
theorem PrunedDb.invisible {keepId : Nat} (h : PrunedDb db db' keepId)
    (hne : ∀ e ∈ db.tabs, e.chain ≠ []) :
    (keepId ≠ 0 → Stable (keepId ≤ ·) db db') ∧ db'.com = db.com := by
  have hnames := forall₂_names h.ents
  have hfiles : db'.files = db.files := by rw [h.frame]
  have hkept : ∀ (k : Nat) (e' : TabEnt), db'.tabs[k]? = some e' →
      ∀ a ∈ e'.chain, db'.heap.get a = db.heap.get a := fun k e' he' a ha =>
    h.kept a (mem_chains.2 ⟨e', List.mem_of_getElem? he', ha⟩)
  constructor
  · intro h0
    refine Stable.of_ents (hnames ▸ List.prefix_rfl) (fun n k hg => by rw [getEnt_congr hnames, hg])
      (fun k e he => ?_) (fun k e' he' => Or.inl (ent_of_names hnames he')) fun s _ n hg => ?_
    · obtain ⟨e', he', hp⟩ := forall₂_getElem? h.ents k e he
      obtain ⟨dropped, hcut⟩ := hp.cut
      refine ⟨e', he', fun s hs => ?_⟩
      have hv := hcut.visOf_eq h0 hs
      rw [visOf_congr (hkept k e' he'), hv]
      exact ⟨rfl, fun a ha => hkept k e' he' a (visOf_mem (hv ▸ ha)).1⟩
    · unfold Db.seen
      rw [getEnt_congr hnames, hg, hfiles]
  · refine com_of_ents (fun n k hg => by rw [getEnt_congr hnames, hg]) (fun k e he => ?_)
      fun n hg => ?_
    · obtain ⟨e', he', hp⟩ := forall₂_getElem? h.ents k e he
      obtain ⟨dropped, hcut⟩ := hp.cut
      have hhead : e'.chain.head? = e.chain.head? := by
        rw [hcut.split, List.head?_append_of_ne_nil _
          (hcut.nonempty (hne e (List.mem_of_getElem? he)))]
      exact ⟨e', he', hhead, fun a ha => hkept k e' he' a (List.mem_of_mem_head? (hhead ▸ ha))⟩
    · unfold com
      rw [getEnt_congr hnames, hg, hfiles]

/-! ## Commit -/

/-- The working copy at `a` becomes the head of table number `k`. -/
def publish (db : Db) (k a : Nat) (e : TabEnt) (tab : TabVer) (ver : Nat) : Db :=
  { db with
    heap := db.heap.set a { tab with verId := ver }
    tabs := db.tabs.set k { e with chain := a :: e.chain } }

theorem publish_ent_other {k a ver j : Nat} {e : TabEnt} {tab : TabVer} (hj : j ≠ k) :
    (db.publish k a e tab ver).tabs[j]? = db.tabs[j]? := List.getElem?_set_ne (Ne.symm hj)

/-- A working copy ready to be published as a version of table number `k`. -/
structure Ready (db : Db) (ws : List Nat) (k a : Nat) (e : TabEnt) (tab : TabVer) (ver : Nat) :
    Prop where
  wf : db.Wf (a :: ws)
  ent : db.tabs[k]? = some e
  work : db.heap.get a = some tab
  name : tab.name = e.name
  newer : ∀ b ∈ e.chain, ∀ t, db.heap.get b = some t → t.verId < ver
  ver_pos : 1 ≤ ver
  ver_le : ver ≤ db.mv.curVer

namespace Ready

variable {k a ver : Nat} {e : TabEnt} {tab : TabVer}

theorem mem (h : Ready db ws k a e tab ver) : e ∈ db.tabs := List.mem_of_getElem? h.ent

theorem shape (h : Ready db ws k a e tab ver) : tab.Shape := by
  obtain ⟨t, ht, hs⟩ := h.wf.works a List.mem_cons_self
  rw [h.work] at ht
  cases ht
  exact hs

theorem not_mem_chains (h : Ready db ws k a e tab ver) : a ∉ db.chains ++ ws := by
  have hperm : (db.chains ++ a :: ws).Perm (a :: (db.chains ++ ws)) := List.perm_middle
  exact (List.nodup_cons.1 (hperm.nodup_iff.1 h.wf.owned)).1

theorem get_other (h : Ready db ws k a e tab ver) {b : Nat} (hb : b ∈ db.chains ++ ws) :
    (db.publish k a e tab ver).heap.get b = db.heap.get b :=
  Heap.get_set_of_ne _ _ fun heq => h.not_mem_chains (heq ▸ hb)

theorem get_self (h : Ready db ws k a e tab ver) :
    (db.publish k a e tab ver).heap.get a = some { tab with verId := ver } :=
  Heap.get_set_self _ h.work

theorem tabs_split (h : Ready db ws k a e tab ver) :
    ∃ A B, db.tabs = A ++ e :: B ∧ A.length = k ∧
      (db.publish k a e tab ver).tabs = A ++ { e with chain := a :: e.chain } :: B := by
  obtain ⟨hlt, he⟩ := List.getElem?_eq_some_iff.1 h.ent
  refine ⟨db.tabs.take k, db.tabs.drop (k + 1), ?_, ?_, ?_⟩
  · rw [← he, ← List.drop_eq_getElem_cons hlt, List.take_append_drop]
  · rw [List.length_take]
    omega
  · change db.tabs.set k _ = _
    rw [List.set_eq_take_append_cons_drop, if_pos hlt]

theorem names (h : Ready db ws k a e tab ver) :
    (db.publish k a e tab ver).tabs.map TabEnt.name = db.tabs.map TabEnt.name := by
  obtain ⟨A, B, hold, -, hnew⟩ := h.tabs_split
  rw [hold, hnew, List.map_append, List.map_append]
  rfl

/-- **Publishing** keeps the store in order. -/
theorem publish_wf (h : Ready db ws k a e tab ver) : (db.publish k a e tab ver).Wf ws := by
  obtain ⟨A, B, hold, -, hnew⟩ := h.tabs_split
  have hchains : ((db.publish k a e tab ver).chains ++ ws).Perm (db.chains ++ a :: ws) := by
    have h₁ : (db.publish k a e tab ver).chains =
        A.flatMap TabEnt.chain ++ a :: (e.chain ++ B.flatMap TabEnt.chain) := by
      unfold chains
      rw [hnew]
      simp
    have h₂ : db.chains = A.flatMap TabEnt.chain ++ (e.chain ++ B.flatMap TabEnt.chain) := by
      unfold chains
      rw [hold]
      simp
    rw [h₁, h₂]
    have h₃ : (A.flatMap TabEnt.chain ++ a :: (e.chain ++ B.flatMap TabEnt.chain) ++ ws).Perm
        (a :: (A.flatMap TabEnt.chain ++ (e.chain ++ B.flatMap TabEnt.chain) ++ ws)) := by
      rw [List.append_assoc, List.append_assoc]
      exact List.perm_middle
    exact h₃.trans List.perm_middle.symm
  refine ⟨?_, ?_, ?_, ?_, h.wf.curVer_pos⟩
  · rw [h.names]
    exact h.wf.names
  · exact hchains.nodup_iff.2 h.wf.owned
  · intro x hx
    rw [hnew] at hx
    have hx' : x ∈ db.tabs ∨ x = { e with chain := a :: e.chain } := by
      rw [hold]
      rcases List.mem_append.1 hx with hx | hx
      · exact Or.inl (List.mem_append_left _ hx)
      · rcases List.mem_cons.1 hx with rfl | hx
        · exact Or.inr rfl
        · exact Or.inl (List.mem_append_right _ (List.mem_cons_of_mem _ hx))
    have hsame : ∀ y ∈ db.tabs, ∀ b ∈ y.chain,
        (db.publish k a e tab ver).heap.get b = db.heap.get b := fun y hy b hb =>
      h.get_other (List.mem_append_left _ (mem_chains.2 ⟨y, hy, hb⟩))
    rcases hx' with hx' | rfl
    · exact (h.wf.chain x hx').congr (hsame x hx') (Nat.le_refl _)
    · have hok := (h.wf.chain e h.mem).congr (hsame e h.mem) (Nat.le_refl db.mv.curVer)
      refine ⟨by simp, ?_, ?_⟩
      · intro b hb
        rcases List.mem_cons.1 hb with rfl | hb
        · refine ⟨_, h.get_self, h.name, ?_, h.ver_pos, h.ver_le⟩
          have hs := h.shape
          exact ⟨hs.1, hs.2, hs.3, hs.4, hs.5, hs.6, hs.7, hs.8, hs.9, hs.10⟩
        · exact hok.live b hb
      · refine List.pairwise_cons.2 ⟨?_, hok.sorted⟩
        intro b hb s t hs ht
        rw [h.get_self] at hs
        cases hs
        rw [hsame e h.mem b hb] at ht
        exact h.newer b hb t ht
  · intro b hb
    obtain ⟨t, ht, hs⟩ := h.wf.works b (List.mem_cons_of_mem _ hb)
    exact ⟨t, by rw [h.get_other (List.mem_append_right _ hb), ht], hs⟩

theorem ent_self (h : Ready db ws k a e tab ver) :
    (db.publish k a e tab ver).tabs[k]? = some { e with chain := a :: e.chain } := by
  change (db.tabs.set k _)[k]? = _
  rw [List.getElem?_set_self (List.getElem?_eq_some_iff.1 h.ent).1]

/-- Older snapshots do not see a published version. -/
theorem publish_stable (h : Ready db ws k a e tab ver) :
    Stable (· < ver) db (db.publish k a e tab ver) := by
  refine Stable.of_ents (h.names ▸ List.prefix_rfl)
    (fun n j hg => by rw [getEnt_congr h.names, hg]) (fun j x hx => ?_)
    (fun j x hx => Or.inl (ent_of_names h.names hx)) fun s _ n hg => ?_
  · have hsame : ∀ b ∈ x.chain, (db.publish k a e tab ver).heap.get b = db.heap.get b :=
      fun b hb => h.get_other
        (List.mem_append_left _ (mem_chains.2 ⟨x, List.mem_of_getElem? hx, hb⟩))
    by_cases hj : j = k
    · subst hj
      have hxe : x = e := by
        rw [h.ent] at hx
        exact (Option.some.inj hx).symm
      subst hxe
      refine ⟨_, h.ent_self, fun s hs => ?_⟩
      have hskip : visOf (db.publish j a x tab ver).heap s (a :: x.chain) =
          visOf (db.publish j a x tab ver).heap s x.chain := by
        unfold visOf
        rw [List.find?_cons_of_neg]
        rw [h.get_self]
        simpa using hs
      rw [hskip]
      exact ⟨visOf_congr hsame, fun b hb => hsame b (visOf_mem hb).1⟩
    · exact ⟨x, by rw [publish_ent_other hj, hx], sameVis_of_heap hsame⟩
  · unfold Db.seen
    rw [getEnt_congr h.names, hg]
    rfl

theorem publish_com (h : Ready db ws k a e tab ver) (n : Bytes) :
    (db.publish k a e tab ver).com n =
      if n = e.name then some { tab with verId := ver } else db.com n := by
  unfold com
  rw [getEnt_congr h.names]
  by_cases hn : n = e.name
  · rw [if_pos hn, hn, h.wf.getEnt_eq h.ent]
    dsimp only
    unfold headAddr
    rw [h.ent_self, Option.bind_some, List.head?_cons, Option.bind_some, h.get_self]
  · rw [if_neg hn]
    cases hg : db.getEnt n with
    | none => rfl
    | some j =>
        obtain ⟨x, hx, hxn⟩ := getEnt_spec hg
        have hj : j ≠ k := by
          rintro rfl
          rw [h.ent] at hx
          cases hx
          exact hn hxn.symm
        dsimp only
        unfold headAddr
        rw [publish_ent_other hj, hx, Option.bind_some]
        cases hv : x.chain.head? with
        | none => rfl
        | some b =>
            exact h.get_other (List.mem_append_left _
              (mem_chains.2 ⟨x, List.mem_of_getElem? hx, List.mem_of_mem_head? hv⟩))

end Ready

end Db

end MiniDbms
