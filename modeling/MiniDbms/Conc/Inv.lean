import MiniDbms.Conc.Steps

/-!
# The invariant of the threads

The working copies of all threads and the version chains are distinct objects, the
registered snapshots are those the threads hold, and the thread inside a commit
section is the owner of `db->mu`.  Every step keeps this.
-/

namespace MiniDbms

open Versions

namespace Conc

/-- The working copies of a thread. -/
def Thread.works : Thread → List Nat
  | .tx t => t.tx.works
  | .req _ _ _ => []

/-- The snapshot a thread has registered. -/
def Thread.held : Thread → List Nat
  | .tx t =>
    match t.pc with
    | .stat _ => []
    | .prune _ _ => []
    | .over _ => []
    | _ => [t.tx.snapId]
  | .req _ _ pc =>
    match pc with
    | .read _ snap => [snap]
    | .gc _ snap _ => [snap]
    | _ => []

/-- Down to where a thread is about to prune. -/
def Thread.keepId? : Thread → Option Nat
  | .tx t =>
    match t.pc with
    | .prune keep _ => some keep
    | _ => none
  | .req _ _ pc =>
    match pc with
    | .prune _ keep _ => some keep
    | _ => none

def worksOf (ts : List Thread) : List Nat := ts.flatMap Thread.works

def heldOf (ts : List Thread) : List Nat := ts.flatMap Thread.held

/-- A transaction where it is in its calls; `ws` are the working copies of all threads. -/
def SafeAt (db : Db) (owner : Option Nat) (ws : List Nat) (i : Nat) (tx : DbTx) : Pc → Prop
  | .ready => db.Rest ws tx
  | .run _ _ => db.Rest ws tx
  | .commit => db.Rest ws tx
  | .abort => db.Rest ws tx
  | .install ver k => owner = some i ∧ db.Inst tx ver k
  | .gc _ => tx.works = []
  | .stat _ => tx.works = []
  | .prune _ _ => tx.works = []
  | .over _ => tx.works = []

def Safe (db : Db) (owner : Option Nat) (ws : List Nat) (i : Nat) : Thread → Prop
  | .req _ _ _ => True
  | .tx t => SafeAt db owner ws i t.tx t.pc

/-- The thread is in its commit section. -/
def Commits (t : Thread) : Prop := ∃ t' ver k, t = .tx t' ∧ t'.pc = .install ver k

/-- No registered snapshot is older than what the thread is about to keep, unless it was
told that there is none. -/
def KeepOk (mv : Mvcc) (t : Thread) : Prop :=
  ∀ keep, t.keepId? = some keep → keep ≤ mv.curVer ∧ (keep ≠ 0 → ∀ s ∈ mv.snaps, keep ≤ s)

structure Inv (m : Conc) : Prop where
  wf : m.db.Wf (worksOf m.threads)
  reg : m.db.mv.snaps.Perm (heldOf m.threads)
  live : m.db.Live
  safe : ∀ i t, m.threads[i]? = some t → Safe m.db m.owner (worksOf m.threads) i t
  keep : ∀ t ∈ m.threads, KeepOk m.db.mv t
  owner : ∀ i, m.owner = some i → ∃ t, m.threads[i]? = some t ∧ Commits t

variable {m m' : Conc} {A B : List Thread} {t t' : Thread} {p : Option Nat} {db' : Db}

/-! ## One thread and the others -/

theorem worksOf_split (A B : List Thread) (t : Thread) :
    (worksOf (A ++ t :: B)).Perm (t.works ++ worksOf (A ++ B)) := by
  unfold worksOf
  rw [List.flatMap_append, List.flatMap_append, List.flatMap_cons]
  exact List.perm_append_comm_assoc _ _ _

theorem heldOf_split (A B : List Thread) (t : Thread) :
    (heldOf (A ++ t :: B)).Perm (t.held ++ heldOf (A ++ B)) := by
  unfold heldOf
  rw [List.flatMap_append, List.flatMap_append, List.flatMap_cons]
  exact List.perm_append_comm_assoc _ _ _

theorem mem_worksOf {ts : List Thread} (ht : t ∈ ts) {a : Nat} (ha : a ∈ t.works) :
    a ∈ worksOf ts := List.mem_flatMap.2 ⟨t, ht, ha⟩

theorem getElem?_other {j : Nat} (hj : j ≠ A.length) (t t' : Thread) :
    (A ++ t' :: B)[j]? = (A ++ t :: B)[j]? := by
  rcases Nat.lt_or_ge j A.length with hlt | hge
  · rw [List.getElem?_append_left hlt, List.getElem?_append_left hlt]
  · rw [List.getElem?_append_right hge, List.getElem?_append_right hge]
    obtain ⟨d, hd⟩ : ∃ d, j - A.length = d + 1 := ⟨j - A.length - 1, by omega⟩
    rw [hd, List.getElem?_cons_succ, List.getElem?_cons_succ]

theorem mem_other {j : Nat} (hj : j ≠ A.length) {x : Thread}
    (hx : (A ++ t :: B)[j]? = some x) : x ∈ A ++ B := by
  rcases Nat.lt_or_ge j A.length with hlt | hge
  · rw [List.getElem?_append_left hlt] at hx
    exact List.mem_append_left _ (List.mem_of_getElem? hx)
  · rw [List.getElem?_append_right hge] at hx
    obtain ⟨d, hd⟩ : ∃ d, j - A.length = d + 1 := ⟨j - A.length - 1, by omega⟩
    rw [hd, List.getElem?_cons_succ] at hx
    exact List.mem_append_right _ (List.mem_of_getElem? hx)

theorem rest_mono {db : Db} {ws ws' : List Nat} {tx : DbTx} (h : db.Rest ws tx)
    (hsub : ∀ a ∈ ws', a ∈ ws) : db.Rest ws' tx :=
  ⟨h.ok, fun it hit => ⟨(h.base it hit).1, fun hm => (h.base it hit).2.1 (hsub _ hm),
    (h.base it hit).2.2⟩⟩

theorem SafeAt.mono {db : Db} {owner : Option Nat} {ws ws' : List Nat} {i : Nat} {tx : DbTx} {pc : Pc}
    (h : SafeAt db owner ws i tx pc) (hsub : ∀ a ∈ ws', a ∈ ws) : SafeAt db owner ws' i tx pc := by
  cases pc with
  | ready => exact rest_mono h hsub
  | run item? stmt => exact rest_mono h hsub
  | commit => exact rest_mono h hsub
  | abort => exact rest_mono h hsub
  | install ver k => exact h
  | gc ok => exact h
  | stat ok => exact h
  | prune keep ok => exact h
  | «over» ok => exact h

theorem Safe.mono {db : Db} {owner : Option Nat} {ws ws' : List Nat} {i : Nat}
    (h : Safe db owner ws i t) (hsub : ∀ a ∈ ws', a ∈ ws) : Safe db owner ws' i t := by
  cases t with
  | req sql stmt pc => trivial
  | tx t => exact SafeAt.mono h hsub

theorem SafeAt.other {owner owner' : Option Nat} {db db' : Db} {mine mine' others : List Nat}
    {j : Nat} {tx : DbTx} {pc : Pc} (h : SafeAt db owner (mine ++ others) j tx pc)
    (hs : Db.Section db db' mine mine' others p) (hquiet : owner = some j → Db.Quiet db db')
    (howner : owner = some j → owner' = some j) (hsub : ∀ a ∈ tx.works, a ∈ others) :
    SafeAt db' owner' (mine' ++ others) j tx pc := by
  have hrest : db.Rest (mine ++ others) tx → db'.Rest (mine' ++ others) tx :=
    fun hr => hr.other hs hsub
  cases pc with
  | ready => exact hrest h
  | run item? stmt => exact hrest h
  | commit => exact hrest h
  | abort => exact hrest h
  | install ver k => exact ⟨howner h.1, h.2.other hs (hquiet h.1) hsub⟩
  | gc ok => exact h
  | stat ok => exact h
  | prune keep ok => exact h
  | «over» ok => exact h

theorem Safe.other {owner owner' : Option Nat} {db db' : Db} {mine mine' others : List Nat} {j : Nat}
    (h : Safe db owner (mine ++ others) j t) (hs : Db.Section db db' mine mine' others p)
    (hquiet : owner = some j → Db.Quiet db db') (howner : owner = some j → owner' = some j)
    (hsub : ∀ a ∈ t.works, a ∈ others) : Safe db' owner' (mine' ++ others) j t := by
  cases t with
  | req sql stmt pc => trivial
  | tx t => exact SafeAt.other h hs hquiet howner hsub

theorem KeepOk.other {mv mv' : Mvcc} (h : KeepOk mv t) (hcur : mv.curVer ≤ mv'.curVer)
    (hsnaps : ∀ s ∈ mv'.snaps, s ∈ mv.snaps ∨ s = mv.curVer) : KeepOk mv' t := by
  intro keep hk
  obtain ⟨hle, hall⟩ := h keep hk
  refine ⟨hle.trans hcur, fun h0 s hs => ?_⟩
  rcases hsnaps s hs with hs | rfl
  · exact hall h0 s hs
  · exact hle

theorem live_of_snaps {db : Db} {ws : List Nat} (h : db.Live) (hwf : db.Wf ws)
    (hcur : db.mv.curVer ≤ db'.mv.curVer)
    (hsnaps : ∀ s ∈ db'.mv.snaps, s ∈ db.mv.snaps ∨ s = db.mv.curVer) : db'.Live := by
  intro s hs
  rcases hsnaps s hs with hs | rfl
  · exact ⟨(h s hs).1, (h s hs).2.trans hcur⟩
  · exact ⟨hwf.curVer_pos, hcur⟩

/-- What the records of the versions need to know about a step. -/
structure Next (m m' : Conc) (p : Option Nat) : Prop where
  inv : Inv m'
  change : ∀ n, Change TabVer.verId m.db.mv.curVer p (m.db.vers n) (m'.db.vers n)
  cur : m.db.mv.curVer ≤ m'.db.mv.curVer
  snaps : ∀ s ∈ m'.db.mv.snaps, s ∈ m.db.mv.snaps ∨ s = m.db.mv.curVer
  names : m.db.tabs.map TabEnt.name <+: m'.db.tabs.map TabEnt.name

theorem Inv.wf_split (h : Inv m) (hm : m.threads = A ++ t :: B) :
    m.db.Wf (t.works ++ worksOf (A ++ B)) :=
  h.wf.perm (by rw [hm]; exact worksOf_split A B t)

theorem Inv.safe_split (h : Inv m) (hm : m.threads = A ++ t :: B) :
    Safe m.db m.owner (t.works ++ worksOf (A ++ B)) A.length t := by
  refine (h.safe A.length t (by rw [hm]; simp)).mono fun a ha => ?_
  rw [hm]
  exact (worksOf_split A B t).mem_iff.2 ha

/-- **A section of one thread.** -/
theorem Inv.go (h : Inv m) (hm : m.threads = A ++ t :: B) (hm' : m'.threads = A ++ t' :: B)
    (hsec : Db.Section m.db m'.db t.works t'.works (worksOf (A ++ B)) p)
    (hquiet : ∀ j, j ≠ A.length → m.owner = some j → Db.Quiet m.db m'.db)
    (howner : ∀ j, j ≠ A.length → (m'.owner = some j ↔ m.owner = some j))
    (hself : m'.owner = some A.length → Commits t')
    (hsafe : Safe m'.db m'.owner (t'.works ++ worksOf (A ++ B)) A.length t')
    (hreg : ∀ l, m.db.mv.snaps.Perm (t.held ++ l) → m'.db.mv.snaps.Perm (t'.held ++ l))
    (hkeep : KeepOk m'.db.mv t') : Next m m' p := by
  have hperm : ∀ a, a ∈ worksOf m'.threads → a ∈ t'.works ++ worksOf (A ++ B) := by
    intro a ha
    rw [hm'] at ha
    exact (worksOf_split A B t').mem_iff.1 ha
  have hself? : (A ++ t' :: B)[A.length]? = some t' := by simp
  refine ⟨⟨?_, ?_, live_of_snaps h.live h.wf hsec.cur hsec.snaps, ?_, ?_, ?_⟩, hsec.change,
    hsec.cur, hsec.snaps, hsec.names⟩
  · rw [hm']
    exact hsec.wf.perm (worksOf_split A B t').symm
  · rw [hm']
    refine (hreg _ (h.reg.trans ?_)).trans (heldOf_split A B t').symm
    rw [hm]
    exact heldOf_split A B t
  · intro j x hx
    rw [hm'] at hx
    by_cases hj : j = A.length
    · subst hj
      rw [hself?] at hx
      cases hx
      exact hsafe.mono hperm
    · rw [getElem?_other hj t t'] at hx
      have hmem := mem_other hj hx
      have hold := h.safe j x (by rw [hm]; exact hx)
      refine Safe.mono ((hold.mono fun a ha => ?_).other hsec (hquiet j hj) (howner j hj).2
        fun a ha => mem_worksOf hmem ha) hperm
      rw [hm]
      exact (worksOf_split A B t).mem_iff.2 ha
  · intro x hx
    rw [hm'] at hx
    have hcases : x = t' ∨ x ∈ m.threads := by
      rw [hm]
      rcases List.mem_append.1 hx with hx | hx
      · exact Or.inr (List.mem_append_left _ hx)
      · rcases List.mem_cons.1 hx with hx | hx
        · exact Or.inl hx
        · exact Or.inr (List.mem_append_right _ (List.mem_cons_of_mem _ hx))
    rcases hcases with rfl | hx
    · exact hkeep
    · exact (h.keep x hx).other hsec.cur hsec.snaps
  · intro j hj
    rw [hm']
    by_cases hji : j = A.length
    · subst hji
      exact ⟨t', hself?, hself hj⟩
    · obtain ⟨x, hx, hc⟩ := h.owner j ((howner j hji).1 hj)
      rw [hm] at hx
      exact ⟨x, by rw [getElem?_other hji t t', hx], hc⟩

/-- **A new thread.** -/
theorem Inv.add (h : Inv m) (hm' : m'.threads = m.threads ++ [t']) (hown : m'.owner = m.owner)
    (hworks : t'.works = []) (hsec : Db.Section m.db m'.db [] [] (worksOf m.threads) p)
    (hquiet : Db.Quiet m.db m'.db)
    (hsafe : Safe m'.db m'.owner (worksOf m.threads) m.threads.length t')
    (hreg : ∀ l, m.db.mv.snaps.Perm l → m'.db.mv.snaps.Perm (l ++ t'.held))
    (hkeep : t'.keepId? = none) : Next m m' p := by
  have hw : worksOf m'.threads = worksOf m.threads := by
    unfold worksOf
    rw [hm', List.flatMap_append, List.flatMap_singleton, hworks, List.append_nil]
  refine ⟨⟨?_, ?_, live_of_snaps h.live h.wf hsec.cur hsec.snaps, ?_, ?_, ?_⟩, hsec.change,
    hsec.cur, hsec.snaps, hsec.names⟩
  · rw [hw]
    exact hsec.wf
  · have := hreg _ h.reg
    unfold heldOf at this ⊢
    rw [hm', List.flatMap_append, List.flatMap_singleton]
    exact this
  · intro j x hx
    rw [hw]
    rw [hm'] at hx
    rcases Nat.lt_or_ge j m.threads.length with hlt | hge
    · rw [List.getElem?_append_left hlt] at hx
      have hold := h.safe j x hx
      rw [hown]
      exact Safe.other hold hsec (fun _ => hquiet) (fun ho => ho)
        fun a ha => mem_worksOf (List.mem_of_getElem? hx) ha
    · rw [List.getElem?_append_right hge] at hx
      obtain ⟨hj, rfl⟩ : j - m.threads.length = 0 ∧ t' = x := by
        have := (List.getElem?_eq_some_iff.1 hx).1
        rw [List.length_singleton] at this
        have h0 : j - m.threads.length = 0 := by omega
        rw [h0] at hx
        exact ⟨h0, Option.some.inj hx⟩
      rw [show j = m.threads.length by omega]
      exact hsafe
  · intro x hx
    rw [hm'] at hx
    rcases List.mem_append.1 hx with hx | hx
    · exact (h.keep x hx).other hsec.cur hsec.snaps
    · rw [List.mem_singleton.1 hx]
      intro keep hk
      rw [hkeep] at hk
      cases hk
  · intro j hj
    rw [hown] at hj
    obtain ⟨x, hx, hc⟩ := h.owner j hj
    refine ⟨x, ?_, hc⟩
    rw [hm', List.getElem?_append_left (List.getElem?_eq_some_iff.1 hx).1, hx]

end Conc

end MiniDbms
