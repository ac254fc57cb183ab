import MiniDbms.Db.Store
import MiniDbms.Db.Constraint

/-!
# The structure of the store

The version chains and the working copies of all open transactions are distinct
live objects, and the versions of a table get older along its chain.  Every
critical section of `dbapi.c` keeps this, whoever else has transactions open.
-/

namespace MiniDbms

/-- What a chain looks like; `cur` bounds the version ids. -/
structure ChainOk (heap : Heap TabVer) (cur : Nat) (e : TabEnt) : Prop where
  nonempty : e.chain ≠ []
  live : ∀ a ∈ e.chain, ∃ t, heap.get a = some t ∧ t.name = e.name ∧ t.Shape ∧
    1 ≤ t.verId ∧ t.verId ≤ cur
  sorted : e.chain.Pairwise fun a b =>
    ∀ s t, heap.get a = some s → heap.get b = some t → t.verId < s.verId

theorem ChainOk.congr {heap heap' : Heap TabVer} {cur cur' : Nat} {e : TabEnt}
    (h : ChainOk heap cur e) (hheap : ∀ a ∈ e.chain, heap'.get a = heap.get a) (hcur : cur ≤ cur') :
    ChainOk heap' cur' e where
  nonempty := h.nonempty
  live := fun a ha => by
    obtain ⟨t, ht, hname, hshape, hpos, hle⟩ := h.live a ha
    exact ⟨t, by rw [hheap a ha, ht], hname, hshape, hpos, hle.trans hcur⟩
  sorted := by
    refine h.sorted.imp_of_mem ?_
    intro a b ha hb hab s t hs ht
    exact hab s t (hheap a ha ▸ hs) (hheap b hb ▸ ht)

namespace Db

/-- The addresses of all committed versions. -/
def chains (db : Db) : List Nat := db.tabs.flatMap TabEnt.chain

/-- The store is in order; `ws` are the working copies of the open transactions. -/
structure Wf (db : Db) (ws : List Nat) : Prop where
  names : (db.tabs.map TabEnt.name).Nodup
  owned : (db.chains ++ ws).Nodup
  chain : ∀ e ∈ db.tabs, ChainOk db.heap db.mv.curVer e
  works : ∀ a ∈ ws, ∃ t, db.heap.get a = some t ∧ t.Shape
  curVer_pos : 1 ≤ db.mv.curVer

theorem mem_chains {db : Db} {a : Nat} : a ∈ db.chains ↔ ∃ e ∈ db.tabs, a ∈ e.chain :=
  List.mem_flatMap

namespace Wf

variable {db : Db} {ws ws' : List Nat}

theorem perm (h : db.Wf ws) (hp : ws.Perm ws') : db.Wf ws' where
  names := h.names
  owned := (List.Perm.append_left _ hp).nodup_iff.1 h.owned
  chain := h.chain
  works := fun a ha => h.works a (hp.mem_iff.2 ha)
  curVer_pos := h.curVer_pos

theorem live (h : db.Wf ws) {a : Nat} (ha : a ∈ db.chains ++ ws) :
    ∃ t, db.heap.get a = some t ∧ t.Shape := by
  rcases List.mem_append.1 ha with ha | ha
  · obtain ⟨e, he, ha⟩ := mem_chains.1 ha
    obtain ⟨t, ht, -, hs, -⟩ := (h.chain e he).live a ha
    exact ⟨t, ht, hs⟩
  · exact h.works a ha

theorem next_not_mem (h : db.Wf ws) : db.heap.next ∉ db.chains ++ ws := by
  intro hmem
  obtain ⟨t, ht, -⟩ := h.live hmem
  exact absurd (Heap.lt_next_of_get ht) (Nat.lt_irrefl _)

theorem with_mv (h : db.Wf ws) {mv : Mvcc} (hmv : db.mv.curVer ≤ mv.curVer) :
    Wf { db with mv := mv } ws where
  names := h.names
  owned := h.owned
  chain := fun e he => (h.chain e he).congr (fun _ _ => rfl) hmv
  works := h.works
  curVer_pos := h.curVer_pos.trans hmv

end Wf

/-! ## Lookup -/

theorem getEnt_spec {db : Db} {name : Bytes} {k : Nat} (h : db.getEnt name = some k) :
    ∃ e, db.tabs[k]? = some e ∧ e.name = name := by
  obtain ⟨hlt, hp, -⟩ := List.findIdx?_eq_some_iff_getElem.1 h
  exact ⟨db.tabs[k], List.getElem?_eq_getElem hlt, by simpa using hp⟩

theorem getEnt_none {db : Db} {name : Bytes} (h : db.getEnt name = none) :
    ∀ e ∈ db.tabs, e.name ≠ name := by
  intro e he hn
  have := List.findIdx?_eq_none_iff.1 h e he
  simp [hn] at this

theorem Wf.getEnt_eq {db : Db} {ws : List Nat} (h : db.Wf ws) {k : Nat} {e : TabEnt}
    (hk : db.tabs[k]? = some e) : db.getEnt e.name = some k := by
  cases hg : db.getEnt e.name with
  | none => exact absurd rfl (getEnt_none hg e (List.mem_of_getElem? hk))
  | some j =>
      obtain ⟨e', hj, hname⟩ := getEnt_spec hg
      have hinj := List.nodup_iff_injective_get.1 h.names
      obtain ⟨hklt, hke⟩ := List.getElem?_eq_some_iff.1 hk
      obtain ⟨hjlt, hje⟩ := List.getElem?_eq_some_iff.1 hj
      have heq : (⟨j, by simpa using hjlt⟩ : Fin (db.tabs.map TabEnt.name).length) =
          ⟨k, by simpa using hklt⟩ := hinj (by simp [hje, hke, hname])
      simpa using heq

theorem entAt_fresh {db : Db} {p : EntPtr} {e : TabEnt} (hgen : p.gen = db.tabsGen)
    (he : db.tabs[p.idx]? = some e) : db.entAt p = .ok e := by
  unfold entAt
  rw [if_pos hgen, he]

theorem entAt_ok {db : Db} {p : EntPtr} {e : TabEnt} (h : db.entAt p = .ok e) :
    p.gen = db.tabsGen ∧ db.tabs[p.idx]? = some e := by
  unfold entAt at h
  split at h
  · rename_i hgen
    split at h
    · rename_i e' he
      cases h
      exact ⟨hgen, he⟩
    · cases h
  · cases h

/-! ## Visible versions -/

/-- The version of a chain that a snapshot sees. -/
def visOf (heap : Heap TabVer) (snap : Nat) (chain : List Nat) : Option Nat :=
  chain.find? fun a => (heap.get a).any fun t => decide (t.verId ≤ snap)

theorem tabVis_eq {db : Db} (snap : Nat) : ∀ {chain : List Nat},
    (∀ a ∈ chain, ∃ t, db.heap.get a = some t) →
      db.tabVis snap chain = .ok (visOf db.heap snap chain)
  | [], _ => rfl
  | a :: chain, h => by
      obtain ⟨t, ht⟩ := h a List.mem_cons_self
      have hver : db.ver a = .ok t := by simp [ver, ht]
      have ih := tabVis_eq snap fun b hb => h b (List.mem_cons_of_mem _ hb)
      by_cases hle : t.verId ≤ snap
      · have hvis : visOf db.heap snap (a :: chain) = some a := by
          unfold visOf
          rw [List.find?_cons_of_pos (by simp [ht, hle])]
        rw [hvis, tabVis, hver]
        change (if snap < t.verId then db.tabVis snap chain else _) = _
        rw [if_neg (Nat.not_lt.2 hle)]
        rfl
      · have hvis : visOf db.heap snap (a :: chain) = visOf db.heap snap chain := by
          unfold visOf
          rw [List.find?_cons_of_neg (by simp [ht, hle])]
        rw [hvis, tabVis, hver]
        change (if snap < t.verId then db.tabVis snap chain else _) = _
        rw [if_pos (Nat.lt_of_not_le hle), ih]

theorem visOf_congr {heap heap' : Heap TabVer} {snap : Nat} : ∀ {chain : List Nat},
    (∀ a ∈ chain, heap'.get a = heap.get a) → visOf heap' snap chain = visOf heap snap chain
  | [], _ => rfl
  | a :: chain, h => by
      have ih : visOf heap' snap chain = visOf heap snap chain :=
        visOf_congr fun b hb => h b (List.mem_cons_of_mem _ hb)
      unfold visOf at ih ⊢
      rw [List.find?_cons, List.find?_cons, h a List.mem_cons_self, ih]

theorem visOf_mem {heap : Heap TabVer} {snap a : Nat} {chain : List Nat}
    (h : visOf heap snap chain = some a) :
    a ∈ chain ∧ ∃ t, heap.get a = some t ∧ t.verId ≤ snap := by
  unfold visOf at h
  have hp := List.find?_some h
  refine ⟨List.mem_of_find?_eq_some h, ?_⟩
  cases hg : heap.get a with
  | none => simp [hg] at hp
  | some t => exact ⟨t, rfl, by simpa [hg] using hp⟩

/-! ## Releasing versions -/

theorem freeAll_spec : ∀ (l : List Nat) (heap : Heap TabVer), l.Nodup →
    (∀ a ∈ l, ∃ t, heap.get a = some t) →
      ∃ heap', freeAll heap l = .ok heap' ∧ heap'.next = heap.next ∧
        (∀ b ∈ l, heap'.get b = none) ∧ ∀ b ∉ l, heap'.get b = heap.get b
  | [], heap, _, _ => ⟨heap, rfl, rfl, by simp, by simp⟩
  | a :: l, heap, hnodup, hlive => by
      obtain ⟨t, ht⟩ := hlive a List.mem_cons_self
      rw [List.nodup_cons] at hnodup
      have hlive' : ∀ b ∈ l, ∃ t, (heap.free a).get b = some t := by
        intro b hb
        have hne : b ≠ a := fun h => hnodup.1 (h ▸ hb)
        rw [Heap.get_free_of_ne _ hne]
        exact hlive b (List.mem_cons_of_mem _ hb)
      obtain ⟨heap', hfree, hnext, hin, hout⟩ := freeAll_spec l (heap.free a) hnodup.2 hlive'
      refine ⟨heap', ?_, by rw [hnext, Heap.next_free], ?_, ?_⟩
      · rw [freeAll, ht]
        exact hfree
      · intro b hb
        rcases List.mem_cons.1 hb with rfl | hb
        · rw [hout b hnodup.1, Heap.get_free_self]
        · exact hin b hb
      · intro b hb
        rw [List.mem_cons, not_or] at hb
        rw [hout b hb.2, Heap.get_free_of_ne _ hb.1]

/-- What `prune_tab` keeps of a chain and what it releases. -/
structure Cut (heap : Heap TabVer) (keepId : Nat) (chain kept dropped : List Nat) : Prop where
  split : chain = kept ++ dropped
  nonempty : chain ≠ [] → kept ≠ []
  /-- versions go only behind one that is old enough -/
  old : dropped ≠ [] → keepId = 0 ∨ ∃ a ∈ kept, ∃ t, heap.get a = some t ∧ t.verId ≤ keepId

theorem pruneAt_spec (db : Db) (keepId : Nat) : ∀ (chain : List Nat),
    (∀ a ∈ chain, ∃ t, db.heap.get a = some t) →
      ∃ kept dropped, db.pruneAt keepId chain = .ok (kept, dropped) ∧
        Cut db.heap keepId chain kept dropped
  | [], _ => ⟨[], [], rfl, rfl, by simp, by simp⟩
  | a :: chain, h => by
      obtain ⟨t, ht⟩ := h a List.mem_cons_self
      have hver : db.ver a = .ok t := by simp [ver, ht]
      by_cases hkeep : keepId ≠ 0 ∧ keepId < t.verId
      · obtain ⟨kept, dropped, heq, hcut⟩ :=
          pruneAt_spec db keepId chain fun b hb => h b (List.mem_cons_of_mem _ hb)
        refine ⟨a :: kept, dropped, ?_, by rw [hcut.split, List.cons_append], by simp, ?_⟩
        · rw [pruneAt, hver]
          change (if _ then _ else _) = _
          rw [if_pos hkeep, heq]
          rfl
        · intro hd
          rcases hcut.old hd with h0 | ⟨b, hb, hold⟩
          · exact Or.inl h0
          · exact Or.inr ⟨b, List.mem_cons_of_mem _ hb, hold⟩
      · refine ⟨[a], chain, ?_, rfl, by simp, ?_⟩
        · rw [pruneAt, hver]
          change (if _ then _ else _) = _
          rw [if_neg hkeep]
          rfl
        · intro _
          by_cases h0 : keepId = 0
          · exact Or.inl h0
          · refine Or.inr ⟨a, List.mem_cons_self, t, ht, ?_⟩
            have := not_and.1 hkeep h0
            omega

/-- A snapshot that is not older than `keepId` still sees the same version. -/
theorem Cut.visOf_eq {heap : Heap TabVer} {keepId snap : Nat} {chain kept dropped : List Nat}
    (h : Cut heap keepId chain kept dropped) (h0 : keepId ≠ 0) (hsnap : keepId ≤ snap) :
    visOf heap snap kept = visOf heap snap chain := by
  rw [h.split]
  unfold visOf
  rw [List.find?_append]
  by_cases hd : dropped = []
  · simp [hd]
  · obtain ⟨a, ha, t, ht, hle⟩ := (h.old hd).resolve_left h0
    cases hf : kept.find? fun a => (heap.get a).any fun t => decide (t.verId ≤ snap) with
    | some b => rfl
    | none =>
        have := List.find?_eq_none.1 hf a ha
        simp [ht] at this
        omega

/-- An entry before and after pruning. -/
structure Pruned (heap : Heap TabVer) (keepId : Nat) (e e' : TabEnt) : Prop where
  name : e'.name = e.name
  cut : ∃ dropped, Cut heap keepId e.chain e'.chain dropped

theorem Cut.congr {heap heap' : Heap TabVer} {keepId : Nat} {chain kept dropped : List Nat}
    (h : Cut heap keepId chain kept dropped) (hheap : ∀ a ∈ chain, heap.get a = heap'.get a) :
    Cut heap' keepId chain kept dropped where
  split := h.split
  nonempty := h.nonempty
  old := fun hd => by
    rcases h.old hd with h0 | ⟨a, ha, t, ht, hle⟩
    · exact Or.inl h0
    · have hmem : a ∈ chain := by
        rw [h.split]
        exact List.mem_append_left _ ha
      exact Or.inr ⟨a, ha, t, by rw [← hheap a hmem, ht], hle⟩

theorem pruneTabs_spec (keepId : Nat) (heap : Heap TabVer) : ∀ (ents : List TabEnt) (db : Db),
    (ents.flatMap TabEnt.chain).Nodup →
    (∀ a ∈ ents.flatMap TabEnt.chain, db.heap.get a = heap.get a ∧ ∃ t, heap.get a = some t) →
      ∃ ents' heap', pruneTabs keepId db ents = .ok (ents', heap') ∧
        heap'.next = db.heap.next ∧ List.Forall₂ (Pruned heap keepId) ents ents' ∧
        (∀ b, b ∉ ents.flatMap TabEnt.chain → heap'.get b = db.heap.get b) ∧
        (∀ b ∈ ents'.flatMap TabEnt.chain, heap'.get b = heap.get b)
  | [], db, _, _ => ⟨[], db.heap, rfl, rfl, .nil, fun _ _ => rfl, by simp⟩
  | e :: ents, db, hnodup, hlive => by
      rw [List.flatMap_cons] at hnodup hlive
      obtain ⟨hne, hnents, hdisj⟩ := List.nodup_append.1 hnodup
      have hchain : ∀ a ∈ e.chain, db.heap.get a = heap.get a ∧ ∃ t, heap.get a = some t :=
        fun a ha => hlive a (List.mem_append_left _ ha)
      obtain ⟨kept, dropped, hprune, hcut⟩ := pruneAt_spec db keepId e.chain fun a ha => by
        rw [(hchain a ha).1]
        exact (hchain a ha).2
      have hcut' := hcut.congr fun a ha => (hchain a ha).1
      have hsub : ∀ a ∈ dropped, a ∈ e.chain := fun a ha => by
        rw [hcut.split]
        exact List.mem_append_right _ ha
      rw [hcut.split] at hne
      obtain ⟨-, hndrop, hkd⟩ := List.nodup_append.1 hne
      obtain ⟨heap₁, hfree, hnext₁, -, hout⟩ := freeAll_spec dropped db.heap hndrop fun a ha => by
        rw [(hchain a (hsub a ha)).1]
        exact (hchain a (hsub a ha)).2
      obtain ⟨ents', heap', hrest, hnext', hpruned, hout', hkept'⟩ :=
        pruneTabs_spec keepId heap ents { db with heap := heap₁ } hnents fun a ha => by
          have hne' : a ∉ dropped := fun hd => absurd rfl (hdisj a (hsub a hd) a ha)
          have := hlive a (List.mem_append_right _ ha)
          exact ⟨(hout a hne').trans this.1, this.2⟩
      refine ⟨⟨e.name, kept⟩ :: ents', heap', ?_, hnext'.trans hnext₁,
        .cons ⟨rfl, dropped, hcut'⟩ hpruned, ?_, ?_⟩
      · rw [pruneTabs, hprune]
        change (do let heap ← freeAll db.heap dropped; _) = _
        rw [hfree]
        change (do let r ← pruneTabs keepId { db with heap := heap₁ } ents; _) = _
        rw [hrest]
        rfl
      · intro b hb
        rw [List.flatMap_cons, List.mem_append, not_or] at hb
        rw [hout' b hb.2]
        exact hout b fun hd => hb.1 (hsub b hd)
      · intro b hb
        rw [List.flatMap_cons] at hb
        rcases List.mem_append.1 hb with hb | hb
        · have hbe : b ∈ e.chain := by
            rw [hcut.split]
            exact List.mem_append_left _ hb
          rw [hout' b fun hm => absurd rfl (hdisj b hbe b hm), ← (hchain b hbe).1]
          exact hout b fun hd => absurd rfl (hkd b hb b hd)
        · exact hkept' b hb

/-- What the pruning section does to the store. -/
structure PrunedDb (db db' : Db) (keepId : Nat) : Prop where
  frame : db' = { db with tabs := db'.tabs, heap := db'.heap }
  next : db'.heap.next = db.heap.next
  ents : List.Forall₂ (Pruned db.heap keepId) db.tabs db'.tabs
  out : ∀ b, b ∉ db.chains → db'.heap.get b = db.heap.get b
  kept : ∀ b ∈ db'.chains, db'.heap.get b = db.heap.get b

theorem Pruned.chain_prefix {heap : Heap TabVer} {keepId : Nat} {e e' : TabEnt}
    (h : Pruned heap keepId e e') : e'.chain <+: e.chain := by
  obtain ⟨dropped, hcut⟩ := h.cut
  exact ⟨dropped, hcut.split.symm⟩

theorem forall₂_flatMap_sublist {heap : Heap TabVer} {keepId : Nat} {ents ents' : List TabEnt}
    (h : List.Forall₂ (Pruned heap keepId) ents ents') :
    (ents'.flatMap TabEnt.chain).Sublist (ents.flatMap TabEnt.chain) := by
  induction h with
  | nil => exact List.Sublist.refl _
  | cons he _ ih =>
      rw [List.flatMap_cons, List.flatMap_cons]
      exact he.chain_prefix.sublist.append ih

theorem forall₂_names {heap : Heap TabVer} {keepId : Nat} {ents ents' : List TabEnt}
    (h : List.Forall₂ (Pruned heap keepId) ents ents') :
    ents'.map TabEnt.name = ents.map TabEnt.name := by
  induction h with
  | nil => rfl
  | cons he _ ih => rw [List.map_cons, List.map_cons, he.name, ih]

theorem forall₂_mem {heap : Heap TabVer} {keepId : Nat} {ents ents' : List TabEnt}
    (h : List.Forall₂ (Pruned heap keepId) ents ents') :
    ∀ e' ∈ ents', ∃ e ∈ ents, Pruned heap keepId e e' := by
  induction h with
  | nil => simp
  | cons he _ ih =>
      intro x hx
      rcases List.mem_cons.1 hx with rfl | hx
      · exact ⟨_, List.mem_cons_self, he⟩
      · obtain ⟨e, hmem, hp⟩ := ih x hx
        exact ⟨e, List.mem_cons_of_mem _ hmem, hp⟩

/-- **Pruning** succeeds and keeps the store in order. -/
theorem Wf.gcPrune {db : Db} {ws : List Nat} (h : db.Wf ws) (keepId : Nat) :
    ∃ db', db.gcPrune keepId = .ok db' ∧ PrunedDb db db' keepId ∧ db'.Wf ws := by
  obtain ⟨hnc, -, hcw⟩ := List.nodup_append.1 h.owned
  obtain ⟨ents', heap', hrun, hnext, hpruned, hout, hkept⟩ :=
    pruneTabs_spec keepId db.heap db.tabs db hnc fun a ha => by
      obtain ⟨t, ht, -⟩ := h.live (List.mem_append_left ws ha)
      exact ⟨rfl, t, ht⟩
  have hsub := forall₂_flatMap_sublist hpruned
  refine ⟨{ db with tabs := ents', heap := heap' }, ?_, ⟨rfl, hnext, hpruned, hout, hkept⟩, ?_⟩
  · unfold Db.gcPrune
    rw [hrun]
    rfl
  · refine ⟨?_, ?_, ?_, ?_, h.curVer_pos⟩
    · change (ents'.map TabEnt.name).Nodup
      rw [forall₂_names hpruned]
      exact h.names
    · exact h.owned.sublist (hsub.append (List.Sublist.refl ws))
    · intro e' he'
      obtain ⟨e, he, hp⟩ := forall₂_mem hpruned e' he'
      obtain ⟨dropped, hcut⟩ := hp.cut
      have hok := h.chain e he
      have hsame : ∀ a ∈ e'.chain, heap'.get a = db.heap.get a := fun a ha =>
        hkept a (List.mem_flatMap.2 ⟨e', he', ha⟩)
      refine ⟨hcut.nonempty hok.nonempty, ?_, ?_⟩
      · intro a ha
        obtain ⟨t, ht, hname, hrest⟩ := hok.live a (hp.chain_prefix.subset ha)
        exact ⟨t, by rw [← ht]; exact hsame a ha, by rw [hname, hp.name], hrest⟩
      · refine (hok.sorted.sublist hp.chain_prefix.sublist).imp_of_mem ?_
        intro a b ha hb hab s t hs ht
        exact hab s t (hsame a ha ▸ hs) (hsame b hb ▸ ht)
    · intro a ha
      obtain ⟨t, ht, hs⟩ := h.works a ha
      refine ⟨t, ?_, hs⟩
      rw [← ht]
      exact hout a fun hc => absurd rfl (hcw a hc a ha)

/-! ## Loading tables -/

/-- Everything `db` holds is still there in `db'`, which may have more tables. -/
structure Ext (db db' : Db) : Prop where
  mv : db'.mv = db.mv
  files : db'.files = db.files
  maxSql : db'.maxSql = db.maxSql
  maxQry : db'.maxQry = db.maxQry
  tabs : db.tabs <+: db'.tabs
  heap : ∀ a t, db.heap.get a = some t → db'.heap.get a = some t
  gen : db.tabsGen ≤ db'.tabsGen

theorem Ext.refl (db : Db) : Ext db db :=
  ⟨rfl, rfl, rfl, rfl, List.prefix_rfl, fun _ _ h => h, Nat.le_refl _⟩

theorem Ext.ent {db db' : Db} (h : Ext db db') {k : Nat} {e : TabEnt} (he : db.tabs[k]? = some e) :
    db'.tabs[k]? = some e := by
  obtain ⟨new, hnew⟩ := h.tabs
  rw [← hnew, List.getElem?_append_left (List.getElem?_eq_some_iff.1 he).1, he]

theorem addTab_frame (db : Db) (name : Bytes) (tab : TabVer) :
    db.addTab name tab = { db with
      tabs := db.tabs ++ [⟨name, [db.heap.next]⟩]
      tabCap := (db.addTab name tab).tabCap
      tabsGen := (db.addTab name tab).tabsGen
      heap := db.heap.alloc tab } ∧ db.tabsGen ≤ (db.addTab name tab).tabsGen := by
  unfold addTab addEnt
  dsimp only
  split
  · exact ⟨rfl, Nat.le_succ _⟩
  · exact ⟨rfl, Nat.le_refl _⟩

theorem addTab_tabs (db : Db) (name : Bytes) (tab : TabVer) :
    (db.addTab name tab).tabs = db.tabs ++ [⟨name, [db.heap.next]⟩] := by
  rw [(db.addTab_frame name tab).1]

theorem addTab_heap (db : Db) (name : Bytes) (tab : TabVer) :
    (db.addTab name tab).heap = db.heap.alloc tab := by
  rw [(db.addTab_frame name tab).1]

theorem tabLoad_error {name : Bytes} {file : Option Bytes} {f : Fault}
    (h : tabLoad name file = .error f) : f = .ukOverflow := by
  have hstep : ∀ {hdr : Hdr} {field : Bytes}, hdrStep hdr field = .error f → f = .ukOverflow := by
    intro hdr field hs
    unfold hdrStep at hs
    dsimp only at hs
    split at hs
    · cases hs
    · split at hs
      · split at hs
        · cases hs
          rfl
        · cases hs
      · split at hs <;> cases hs
  have hloop : ∀ (fields : List Bytes) (hdr : Hdr), hdrLoop hdr fields = .error f →
      f = .ukOverflow := by
    intro fields
    induction fields with
    | nil =>
        intro hdr hl
        cases hl
    | cons field fields ih =>
        intro hdr hl
        rw [hdrLoop] at hl
        cases hs : hdrStep hdr field with
        | error g =>
            rw [hs] at hl
            cases hl
            exact hstep hs
        | ok hdr' =>
            rw [hs] at hl
            exact ih hdr' hl
  unfold tabLoad at h
  split at h
  · cases h
  · split at h
    · cases h
    · rename_i header lines _
      cases hh : loadHdr header with
      | error g =>
          rw [hh] at h
          cases h
          exact hloop _ _ hh
      | ok hdr =>
          rw [hh] at h
          cases h

/-- The three ways `need_ent` can go. -/
inductive NeedEnt (db : Db) (name : Bytes) : Except Fault (Option Nat × Db) → Prop
  | there {k : Nat} (h : db.getEnt name = some k) : NeedEnt db name (.ok (some k, db))
  | missing (h : db.getEnt name = none) (hl : tabLoad name (db.files name) = .ok none) :
      NeedEnt db name (.ok (none, db))
  | fault (h : db.getEnt name = none) (hl : tabLoad name (db.files name) = .error .ukOverflow) :
      NeedEnt db name (.error .ukOverflow)
  | loaded {tab : TabVer} (h : db.getEnt name = none)
      (hl : tabLoad name (db.files name) = .ok (some tab)) :
      NeedEnt db name (.ok (some db.tabs.length, db.addTab name tab))

theorem needEnt_cases (db : Db) (name : Bytes) : NeedEnt db name (db.needEnt name) := by
  unfold needEnt
  cases hg : db.getEnt name with
  | some k => exact .there hg
  | none =>
      dsimp only
      cases hl : tabLoad name (db.files name) with
      | error f =>
          have hf := tabLoad_error hl
          subst hf
          exact .fault hg hl
      | ok r =>
          cases r with
          | none => exact .missing hg hl
          | some tab => exact .loaded hg hl

theorem Wf.addTab {db : Db} {ws : List Nat} (h : db.Wf ws) {name : Bytes} {tab : TabVer}
    (hnew : db.getEnt name = none) (hl : tabLoad name (db.files name) = .ok (some tab)) :
    (db.addTab name tab).Wf ws ∧ Ext db (db.addTab name tab) := by
  obtain ⟨hframe, hgen⟩ := db.addTab_frame name tab
  obtain ⟨hshape, hname, hver, -, -⟩ := TabVer.tabLoad_shape hl
  have hold : ∀ a ∈ db.chains ++ ws, (db.heap.alloc tab).get a = db.heap.get a := by
    intro a ha
    obtain ⟨t, ht, -⟩ := h.live ha
    rw [Heap.get_alloc_of_get tab ht, ht]
  have hchains : (db.addTab name tab).chains = db.chains ++ [db.heap.next] := by
    unfold chains
    rw [addTab_tabs]
    simp
  constructor
  · refine ⟨?_, ?_, ?_, ?_, ?_⟩
    · rw [addTab_tabs, List.map_append, List.map_singleton]
      refine List.nodup_append.2 ⟨h.names, by simp, ?_⟩
      intro x hx y hy hxy
      rw [List.mem_singleton] at hy
      obtain ⟨e, he, rfl⟩ := List.mem_map.1 hx
      exact getEnt_none hnew e he (hxy.trans hy)
    · rw [hchains]
      have hperm : (db.chains ++ [db.heap.next] ++ ws).Perm
          (db.heap.next :: (db.chains ++ ws)) := by
        rw [List.append_assoc]
        exact List.perm_middle
      rw [hperm.nodup_iff, List.nodup_cons]
      exact ⟨h.next_not_mem, h.owned⟩
    · intro e he
      rw [addTab_tabs] at he
      rw [hframe]
      rcases List.mem_append.1 he with he | he
      · exact (h.chain e he).congr (fun a ha =>
          hold a (List.mem_append_left _ (mem_chains.2 ⟨e, he, ha⟩))) (Nat.le_refl _)
      · rw [List.mem_singleton.1 he]
        refine ⟨by simp, ?_, by simp⟩
        intro a ha
        rw [List.mem_singleton.1 ha]
        exact ⟨tab, Heap.get_alloc_next _ _, hname, hshape, hver.ge, hver ▸ h.curVer_pos⟩
    · intro a ha
      rw [hframe]
      obtain ⟨t, ht, hs⟩ := h.works a ha
      exact ⟨t, Heap.get_alloc_of_get tab ht, hs⟩
    · rw [hframe]
      exact h.curVer_pos
  · rw [hframe]
    exact ⟨rfl, rfl, rfl, rfl, List.prefix_append _ _,
      fun a t ht => Heap.get_alloc_of_get tab ht, hgen⟩

end Db

end MiniDbms
