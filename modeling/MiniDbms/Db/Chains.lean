import MiniDbms.Db.Commit
import MiniDbms.Lib.Versions

/-!
# The committed versions of a table

`vers` is what the chain of a table holds, newest version first.  Loading, commits
and pruning change the chains as `Versions.Change` says, and nothing else does.
-/

namespace MiniDbms

open Versions

namespace Db

/-- The versions of a table, newest first; none when it is not loaded. -/
def vers (db : Db) (name : Bytes) : List TabVer :=
  match (db.getEnt name).bind fun k => db.tabs[k]? with
  | none => []
  | some e => e.chain.filterMap db.heap.get

variable {db db' : Db} {ws : List Nat} {name n : Bytes} {k : Nat} {e : TabEnt}

theorem vers_none (h : db.getEnt n = none) : db.vers n = [] := by
  unfold vers
  rw [h]
  rfl

theorem vers_getEnt (h : db.getEnt n = some k) (he : db.tabs[k]? = some e) :
    db.vers n = e.chain.filterMap db.heap.get := by
  unfold vers
  rw [h, Option.bind_some, he]

theorem Wf.vers_ent (h : db.Wf ws) (he : db.tabs[k]? = some e) :
    db.vers e.name = e.chain.filterMap db.heap.get := vers_getEnt (h.getEnt_eq he) he

theorem Wf.vers_ne_nil (h : db.Wf ws) (he : db.tabs[k]? = some e) : db.vers e.name ≠ [] := by
  have hok := h.chain e (List.mem_of_getElem? he)
  rw [h.vers_ent he]
  obtain ⟨a, rest, hc⟩ := List.exists_cons_of_ne_nil hok.nonempty
  obtain ⟨t, ht, -⟩ := hok.live a (hc ▸ List.mem_cons_self)
  rw [hc, List.filterMap_cons_some ht]
  exact List.cons_ne_nil _ _

theorem vers_of_ents (hnames : db'.tabs.map TabEnt.name = db.tabs.map TabEnt.name)
    (hent : ∀ (k : Nat) (e : TabEnt), db.tabs[k]? = some e → ∃ e', db'.tabs[k]? = some e' ∧
      e'.chain.filterMap db'.heap.get = e.chain.filterMap db.heap.get) (n : Bytes) :
    db'.vers n = db.vers n := by
  have hg : db'.getEnt n = db.getEnt n := getEnt_congr hnames
  cases hk : db.getEnt n with
  | none => rw [vers_none hk, vers_none (hg.trans hk)]
  | some k =>
      obtain ⟨e, he, -⟩ := getEnt_spec hk
      obtain ⟨e', he', hsame⟩ := hent k e he
      rw [vers_getEnt hk he, vers_getEnt (hg.trans hk) he', hsame]

theorem vers_heap {heap : Heap TabVer} (h : ∀ a ∈ db.chains, heap.get a = db.heap.get a)
    (n : Bytes) : ({ db with heap := heap } : Db).vers n = db.vers n := by
  have hnames : ({ db with heap := heap } : Db).tabs.map TabEnt.name = db.tabs.map TabEnt.name := rfl
  refine vers_of_ents hnames (fun k e he => ⟨e, he, ?_⟩) n
  exact List.filterMap_congr fun a ha => h a (mem_chains.2 ⟨e, List.mem_of_getElem? he, ha⟩)

theorem visible_chain {heap : Heap TabVer} {s : Nat} : ∀ {chain : List Nat},
    (∀ a ∈ chain, ∃ t, heap.get a = some t) →
      visible TabVer.verId s (chain.filterMap heap.get) = (visOf heap s chain).bind heap.get
  | [], _ => rfl
  | a :: chain, h => by
      obtain ⟨t, ht⟩ := h a List.mem_cons_self
      have ih := visible_chain (s := s) fun b hb => h b (List.mem_cons_of_mem _ hb)
      rw [List.filterMap_cons_some ht]
      by_cases hle : t.verId ≤ s
      · rw [visible_cons_of_le hle]
        unfold visOf
        rw [List.find?_cons_of_pos (by simp [ht, hle]), Option.bind_some, ht]
      · rw [visible_cons_of_lt (Nat.lt_of_not_le hle), ih]
        unfold visOf
        rw [List.find?_cons_of_neg (by simp [ht, hle])]

/-! ## Loading -/

theorem Wf.vers_addTab (h : db.Wf ws) {tab : TabVer} (hnew : db.getEnt name = none)
    (hl : tabLoad name (db.files name) = .ok (some tab)) (cur : Nat) (p : Option Nat) (n : Bytes) :
    Change TabVer.verId cur p (db.vers n) ((db.addTab name tab).vers n) := by
  obtain ⟨hwf, hext⟩ := h.addTab hnew hl
  have htabs := db.addTab_tabs name tab
  have hlast : (db.addTab name tab).tabs[db.tabs.length]? = some ⟨name, [db.heap.next]⟩ := by
    rw [htabs]
    simp
  by_cases hn : n = name
  · subst hn
    have hself : (db.addTab n tab).vers n = [tab] := by
      rw [hwf.vers_ent hlast, List.filterMap_cons_some (b := tab)]
      · rfl
      · rw [addTab_heap]
        exact Heap.get_alloc_next _ _
    rw [vers_none hnew, hself]
    exact .load tab (TabVer.tabLoad_shape hl).2.2.1
  · have hsame : (db.addTab name tab).vers n = db.vers n := by
      cases hg : db.getEnt n with
      | none =>
          rw [vers_none hg, vers_none]
          unfold getEnt at hg ⊢
          rw [htabs, List.findIdx?_append, hg]
          simp [Ne.symm hn]
      | some k =>
          obtain ⟨e, he, -⟩ := getEnt_spec hg
          rw [vers_getEnt hg he, vers_getEnt (getEnt_append htabs hg) (hext.ent he)]
          refine List.filterMap_congr fun a ha => ?_
          obtain ⟨t, ht, -⟩ := (h.chain e (List.mem_of_getElem? he)).live a ha
          rw [hext.heap a t ht, ht]
    rw [hsame]
    exact .same _

theorem Wf.vers_needEnt (h : db.Wf ws) {r : Option Nat} (hrun : db.needEnt name = .ok (r, db'))
    (cur : Nat) (p : Option Nat) (n : Bytes) :
    Change TabVer.verId cur p (db.vers n) (db'.vers n) := by
  have hc := db.needEnt_cases name
  rw [hrun] at hc
  cases hc with
  | there hg => exact .same _
  | missing hg hl => exact .same _
  | loaded hg hl => exact h.vers_addTab hg hl cur p n

/-! ## Commits -/

theorem Ready.vers_installed {a ver : Nat} {tab : TabVer} (h : Ready db ws k a e tab ver)
    (n : Bytes) : (db.installed k a e tab ver).vers n =
      if n = e.name then { tab with verId := ver } :: db.vers n else db.vers n := by
  have hnames : (db.installed k a e tab ver).tabs.map TabEnt.name = db.tabs.map TabEnt.name :=
    h.names
  have hg : (db.installed k a e tab ver).getEnt n = db.getEnt n := getEnt_congr hnames
  have hold : ∀ (j : Nat) (x : TabEnt), db.tabs[j]? = some x →
      x.chain.filterMap (db.installed k a e tab ver).heap.get = x.chain.filterMap db.heap.get :=
    fun j x hx => List.filterMap_congr fun b hb => h.get_other
      (List.mem_append_left _ (mem_chains.2 ⟨x, List.mem_of_getElem? hx, hb⟩))
  have hself : (db.installed k a e tab ver).tabs[k]? = some { e with chain := a :: e.chain } :=
    h.ent_self
  by_cases hn : n = e.name
  · rw [if_pos hn, hn, vers_getEnt (h.wf.getEnt_eq h.ent) h.ent,
      vers_getEnt ((getEnt_congr hnames).trans (h.wf.getEnt_eq h.ent)) hself,
      List.filterMap_cons_some (show (db.installed k a e tab ver).heap.get a = _ from h.get_self),
      hold k e h.ent]
  · rw [if_neg hn]
    cases hk : db.getEnt n with
    | none => rw [vers_none hk, vers_none (hg.trans hk)]
    | some j =>
        obtain ⟨x, hx, hname⟩ := getEnt_spec hk
        have hj : j ≠ k := by
          rintro rfl
          rw [h.ent] at hx
          cases hx
          exact hn hname.symm
        have hx' : (db.installed k a e tab ver).tabs[j]? = some x := by
          rw [← hx]
          change (db.publish k a e tab ver).tabs[j]? = _
          rw [publish_ent_other hj]
        rw [vers_getEnt hk hx, vers_getEnt (hg.trans hk) hx', hold j x hx]

theorem Ready.vers_change {a ver : Nat} {tab : TabVer} (h : Ready db ws k a e tab ver)
    (hcur : ver = db.mv.curVer) (p : Option Nat) (n : Bytes) :
    Change TabVer.verId db.mv.curVer p (db.vers n) ((db.installed k a e tab ver).vers n) := by
  rw [h.vers_installed n]
  split
  · rename_i hn
    rw [hn]
    refine .install _ (h.wf.vers_ne_nil h.ent) hcur ?_
    intro t ht
    rw [h.wf.vers_ent h.ent] at ht
    obtain ⟨b, hb, hget⟩ := List.mem_filterMap.1 ht
    exact h.newer b hb t hget
  · exact .same _

/-! ## Pruning -/

theorem freeAll_get : ∀ {l : List Nat} {heap heap' : Heap TabVer}, freeAll heap l = .ok heap' →
    ∀ b, heap'.get b = heap.get b ∨ heap'.get b = none
  | [], heap, heap', h, b => by
      cases h
      exact Or.inl rfl
  | a :: l, heap, heap', h, b => by
      rw [freeAll] at h
      split at h
      · rcases freeAll_get h b with hb | hb
        · by_cases hba : b = a
          · rw [hba, Heap.get_free_self] at hb
            exact Or.inr (hba ▸ hb)
          · rw [Heap.get_free_of_ne _ hba] at hb
            exact Or.inl hb
        · exact Or.inr hb
      · cases h

theorem pruneTabs_cons {keep : Nat} {ent : TabEnt} {ents ents' : List TabEnt} {heap : Heap TabVer}
    (h : pruneTabs keep db (ent :: ents) = .ok (ents', heap)) :
    ∃ kept dropped heap₁ rest, db.pruneAt keep ent.chain = .ok (kept, dropped) ∧
      freeAll db.heap dropped = .ok heap₁ ∧
      pruneTabs keep { db with heap := heap₁ } ents = .ok (rest, heap) ∧
      ents' = ⟨ent.name, kept⟩ :: rest := by
  rw [pruneTabs] at h
  cases hp : db.pruneAt keep ent.chain with
  | error f =>
      rw [hp] at h
      cases h
  | ok r =>
      obtain ⟨kept, dropped⟩ := r
      cases hf : freeAll db.heap dropped with
      | error f =>
          simp only [bind, Except.bind, hp, hf] at h
          cases h
      | ok heap₁ =>
          cases hr : pruneTabs keep { db with heap := heap₁ } ents with
          | error f =>
              simp only [bind, Except.bind, hp, hf, hr] at h
              cases h
          | ok r =>
              obtain ⟨rest, heap₂⟩ := r
              simp only [bind, Except.bind, hp, hf, hr] at h
              cases h
              exact ⟨kept, dropped, heap₁, rest, rfl, hf, hr, rfl⟩

theorem pruneTabs_get {keep : Nat} : ∀ {ents ents' : List TabEnt} {db : Db} {heap : Heap TabVer},
    pruneTabs keep db ents = .ok (ents', heap) →
      ∀ b, heap.get b = db.heap.get b ∨ heap.get b = none
  | [], _, _, _, h, b => by
      cases h
      exact Or.inl rfl
  | ent :: ents, ents', db, heap, h, b => by
      obtain ⟨kept, dropped, heap₁, rest, -, hf, hr, -⟩ := pruneTabs_cons h
      rcases pruneTabs_get hr b with hb | hb
      · rcases freeAll_get hf b with hb₁ | hb₁
        · exact Or.inl (hb.trans hb₁)
        · exact Or.inr (hb.trans hb₁)
      · exact Or.inr hb

theorem gcPrune_get {keep : Nat} (h : db.gcPrune keep = .ok db') (b : Nat) :
    db'.heap.get b = db.heap.get b ∨ db'.heap.get b = none := by
  unfold gcPrune at h
  cases hr : pruneTabs keep db db.tabs with
  | error f =>
      rw [hr] at h
      cases h
  | ok r =>
      obtain ⟨ents, heap⟩ := r
      rw [hr] at h
      cases h
      exact pruneTabs_get hr b

theorem pruneTabs_zero : ∀ {ents ents' : List TabEnt} {db : Db} {heap : Heap TabVer},
    pruneTabs 0 db ents = .ok (ents', heap) →
      ents' = ents.map fun e => ⟨e.name, e.chain.take 1⟩
  | [], _, _, _, h => by
      cases h
      rfl
  | ent :: ents, ents', db, heap, h => by
      obtain ⟨kept, dropped, heap₁, rest, hp, -, hr, rfl⟩ := pruneTabs_cons h
      rw [List.map_cons, ← pruneTabs_zero hr]
      cases hc : ent.chain with
      | nil =>
          rw [hc] at hp
          cases hp
          rfl
      | cons a chain =>
          rw [hc, pruneAt] at hp
          cases hv : db.ver a with
          | error f =>
              rw [hv] at hp
              cases hp
          | ok tab =>
              rw [hv] at hp
              simp only [bind, Except.bind, ne_eq, not_true_eq_false, false_and, if_false] at hp
              cases hp
              rfl

theorem gcPrune_zero (h : db.gcPrune 0 = .ok db') :
    db'.tabs = db.tabs.map fun e => ⟨e.name, e.chain.take 1⟩ := by
  unfold gcPrune at h
  cases hr : pruneTabs 0 db db.tabs with
  | error f =>
      rw [hr] at h
      cases h
  | ok r =>
      obtain ⟨ents, heap⟩ := r
      rw [hr] at h
      cases h
      exact pruneTabs_zero hr

/-- **Pruning**, table by table. -/
theorem Wf.vers_gcPrune (h : db.Wf ws) {keep : Nat} (hrun : db.gcPrune keep = .ok db') (n : Bytes) :
    Versions.Cut TabVer.verId keep (db.vers n) (db'.vers n) := by
  obtain ⟨db₁, hrun₁, hp, hwf⟩ := h.gcPrune keep
  rw [hrun] at hrun₁
  cases hrun₁
  have hnames := forall₂_names hp.ents
  have hg : db'.getEnt n = db.getEnt n := getEnt_congr hnames
  cases hk : db.getEnt n with
  | none =>
      rw [vers_none hk, vers_none (hg.trans hk)]
      exact ⟨List.prefix_rfl, fun h => h, fun _ _ _ => rfl, fun _ => rfl⟩
  | some k =>
      obtain ⟨e, he, -⟩ := getEnt_spec hk
      obtain ⟨e', he', hpr⟩ := forall₂_getElem? hp.ents k e he
      obtain ⟨dropped, hcut⟩ := hpr.cut
      have hok := h.chain e (List.mem_of_getElem? he)
      have hok' := hwf.chain e' (List.mem_of_getElem? he')
      have hkept : e'.chain.filterMap db'.heap.get = e'.chain.filterMap db.heap.get :=
        List.filterMap_congr fun a ha =>
          hp.kept a (mem_chains.2 ⟨e', List.mem_of_getElem? he', ha⟩)
      rw [vers_getEnt hk he, vers_getEnt (hg.trans hk) he', hkept]
      have hlive : ∀ a ∈ e.chain, ∃ t, db.heap.get a = some t := fun a ha => by
        obtain ⟨t, ht, -⟩ := hok.live a ha
        exact ⟨t, ht⟩
      refine ⟨hpr.chain_prefix.filterMap _, fun _ => ?_, fun h0 s hs => ?_, fun h0 => ?_⟩
      · obtain ⟨a, rest, hc⟩ := List.exists_cons_of_ne_nil hok'.nonempty
        obtain ⟨t, ht⟩ := hlive a (hpr.chain_prefix.subset (hc ▸ List.mem_cons_self))
        rw [hc, List.filterMap_cons_some ht]
        exact List.cons_ne_nil _ _
      · rw [visible_chain fun a ha => hlive a (hpr.chain_prefix.subset ha), visible_chain hlive,
          hcut.visOf_eq h0 hs]
      · subst h0
        have htake : e'.chain = e.chain.take 1 := by
          have hmap := gcPrune_zero hrun
          rw [hmap, List.getElem?_map, he] at he'
          cases he'
          rfl
        rw [htake]
        obtain ⟨a, rest, hc⟩ := List.exists_cons_of_ne_nil hok.nonempty
        obtain ⟨t, ht⟩ := hlive a (hc ▸ List.mem_cons_self)
        rw [hc, List.filterMap_cons_some ht]
        simp [ht]

end Db

end MiniDbms
