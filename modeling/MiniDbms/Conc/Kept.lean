import MiniDbms.Conc.Inv

/-!
# Every step keeps the invariant

One section of one thread at a time: what it does to the store is known from
`Sections`, and `Inv.go` and `Inv.add` do the rest.
-/

namespace MiniDbms

open Versions

namespace Conc

variable {m m' : Conc} {A B : List Thread} {t t' : Thread} {p : Option Nat} {i : Nat}

/-- Down to where the step prunes, if it does. -/
def prunes (m : Conc) : Label → Option Nat
  | .move i => if m.owner = none then (m.threads[i]?).bind Thread.keepId? else none
  | _ => none

theorem split_thread (ht : m.threads[i]? = some t) :
    ∃ A B, m.threads = A ++ t :: B ∧ A.length = i := by
  obtain ⟨hlt, rfl⟩ := List.getElem?_eq_some_iff.1 ht
  refine ⟨m.threads.take i, m.threads.drop (i + 1), ?_, ?_⟩
  · rw [← List.drop_eq_getElem_cons hlt, List.take_append_drop]
  · rw [List.length_take]
    omega

theorem set_threads (hm : m.threads = A ++ t :: B) (t' : Thread) :
    (m.set A.length t').threads = A ++ t' :: B := by
  unfold set
  simp [hm]

theorem Next.refl (h : Inv m) : Next m m p :=
  ⟨h, fun _ => .same _, Nat.le_refl _, fun _ hs => Or.inl hs, List.prefix_rfl⟩

/-! ## Snapshots -/

theorem mem_mvSnap {mv : Mvcc} {s : Nat} (h : s ∈ mv.mvSnap.snaps) :
    s ∈ mv.snaps ∨ s = mv.curVer := by
  rcases List.mem_append.1 h with h | h
  · exact Or.inl h
  · exact Or.inr (List.mem_singleton.1 h)

theorem mem_mvGc {mv : Mvcc} {s snap : Nat} (h : s ∈ (mv.mvGc snap).snaps) : s ∈ mv.snaps := by
  unfold Mvcc.mvGc at h
  split at h
  · exact h
  · exact List.mem_of_mem_erase h

theorem curVer_mvGc (mv : Mvcc) (snap : Nat) : (mv.mvGc snap).curVer = mv.curVer := by
  unfold Mvcc.mvGc
  split
  · rfl
  · rfl

theorem perm_mvGc {mv : Mvcc} {snap : Nat} {l : List Nat} (h : mv.snaps.Perm (snap :: l))
    (hpos : 1 ≤ snap) : (mv.mvGc snap).snaps.Perm l := by
  unfold Mvcc.mvGc
  rw [if_neg (by omega)]
  have := h.erase snap
  rwa [List.erase_cons_head] at this

theorem foldl_min_le : ∀ (ss : List Nat) (s : Nat),
    ss.foldl min s ≤ s ∧ ∀ x ∈ ss, ss.foldl min s ≤ x
  | [], s => ⟨Nat.le_refl s, by simp⟩
  | x :: ss, s => by
      obtain ⟨hle, hall⟩ := foldl_min_le ss (min s x)
      rw [List.foldl_cons]
      refine ⟨hle.trans (Nat.min_le_left s x), fun y hy => ?_⟩
      rcases List.mem_cons.1 hy with rfl | hy
      · exact hle.trans (Nat.min_le_right s y)
      · exact hall y hy

/-- What the statistics say is kept for every registered snapshot. -/
theorem gcKeepId_spec {db : Db} (h : db.Live) : db.gcKeepId ≤ db.mv.curVer ∧
    (db.gcKeepId ≠ 0 → ∀ s ∈ db.mv.snaps, db.gcKeepId ≤ s) := by
  unfold Db.gcKeepId Mvcc.mvStat Mvcc.snapMin
  cases hs : db.mv.snaps with
  | nil => simp
  | cons s ss =>
      dsimp only
      rw [if_pos (by simp)]
      obtain ⟨hle, hall⟩ := foldl_min_le ss s
      refine ⟨hle.trans (h s (by rw [hs]; exact List.mem_cons_self)).2, fun _ x hx => ?_⟩
      rcases List.mem_cons.1 hx with rfl | hx
      · exact hle
      · exact hall x hx

/-! ## Transactions -/

variable {tx : TxThread}

theorem commits_tx : Commits (.tx tx) ↔ ∃ ver k, tx.pc = .install ver k := by
  constructor
  · rintro ⟨t', ver, k, heq, hpc⟩
    cases heq
    exact ⟨ver, k, hpc⟩
  · rintro ⟨ver, k, hpc⟩
    exact ⟨tx, ver, k, rfl, hpc⟩

theorem Inv.go_free (h : Inv m) (hm : m.threads = A ++ t :: B) (hm' : m'.threads = A ++ t' :: B)
    (hsec : Db.Section m.db m'.db t.works t'.works (worksOf (A ++ B)) p)
    (hquiet : m.owner ≠ none → Db.Quiet m.db m'.db) (howner : m'.owner = m.owner)
    (hnot : ¬ Commits t)
    (hsafe : Safe m'.db m'.owner (t'.works ++ worksOf (A ++ B)) A.length t')
    (hreg : ∀ l, m.db.mv.snaps.Perm (t.held ++ l) → m'.db.mv.snaps.Perm (t'.held ++ l))
    (hkeep : KeepOk m'.db.mv t') : Next m m' p := by
  refine h.go hm hm' hsec (fun j _ hj => hquiet (by simp [hj])) (fun j _ => by rw [howner])
    (fun ho => ?_) hsafe hreg hkeep
  rw [howner] at ho
  obtain ⟨x, hx, hc⟩ := h.owner _ ho
  rw [hm] at hx
  have hself : (A ++ t :: B)[A.length]? = some t := by simp
  rw [hself] at hx
  cases hx
  exact absurd hc hnot

theorem keepOk_none {mv : Mvcc} (h : t.keepId? = none) : KeepOk mv t := by
  intro keep hk
  rw [h] at hk
  cases hk

/-- Where a thread is whose transaction is at rest. -/
def AtRest (pc : Pc) : Prop := pc = .ready ∨ pc = .commit ∨ pc = .abort

theorem AtRest.safe {db : Db} {owner : Option Nat} {ws : List Nat} {dtx : DbTx} {pc : Pc}
    (hpc : AtRest pc) : SafeAt db owner ws i dtx pc ↔ db.Rest ws dtx := by
  rcases hpc with rfl | rfl | rfl
  · exact Iff.rfl
  · exact Iff.rfl
  · exact Iff.rfl

theorem AtRest.held (hpc : AtRest tx.pc) : Thread.held (.tx tx) = [tx.tx.snapId] := by
  rcases hpc with h | h | h
  · simp [Thread.held, h]
  · simp [Thread.held, h]
  · simp [Thread.held, h]

theorem AtRest.keepId? (hpc : AtRest tx.pc) : Thread.keepId? (.tx tx) = none := by
  rcases hpc with h | h | h
  · simp [Thread.keepId?, h]
  · simp [Thread.keepId?, h]
  · simp [Thread.keepId?, h]

theorem AtRest.not_commits (hpc : AtRest tx.pc) : ¬ Commits (.tx tx) := by
  rw [commits_tx]
  rintro ⟨ver, k, heq⟩
  rcases hpc with h | h | h
  · rw [h] at heq
    cases heq
  · rw [h] at heq
    cases heq
  · rw [h] at heq
    cases heq

theorem MayCommit.atRest (h : MayCommit tx) : AtRest tx.pc := by
  rcases h with h | ⟨h, -⟩
  · exact Or.inr (Or.inl h)
  · exact Or.inl h

theorem MayAbort.atRest (h : MayAbort tx) : AtRest tx.pc := by
  rcases h with h | ⟨h, -⟩
  · exact Or.inr (Or.inr h)
  · exact Or.inl h

theorem ran_tx (res : DbRes) (ok : Bool) : (ran tx res ok).tx = tx.tx := by
  unfold ran
  split
  · rfl
  · rfl
  · rfl

theorem ran_atRest (res : DbRes) (ok : Bool) : AtRest (ran tx res ok).pc := by
  unfold ran AtRest
  cases ok with
  | true => split <;> simp
  | false => split <;> simp

theorem refused_tx : (refused tx).tx = tx.tx := by
  unfold refused
  split
  · rfl
  · rfl

theorem refused_atRest : AtRest (refused tx).pc := by
  unfold refused AtRest
  split
  · simp
  · simp

theorem rest_fresh (db : Db) (ws : List Nat) (s : Nat) : db.Rest ws ⟨s, []⟩ :=
  ⟨(Db.txOk_nil db s).1, by simp⟩

theorem not_commits_of_pc (h : ∀ ver k, tx.pc ≠ .install ver k) : ¬ Commits (.tx tx) := by
  rw [commits_tx]
  rintro ⟨ver, k, hpc⟩
  exact h ver k hpc

theorem held_installing {ver k : Nat} (hpc : tx.pc = .install ver k) :
    Thread.held (.tx tx) = [tx.tx.snapId] := by
  simp [Thread.held, hpc]

/-! ## The sections of a transaction -/

theorem Inv.wf_tx (h : Inv m) (hm : m.threads = A ++ .tx tx :: B) :
    m.db.Wf (tx.tx.works ++ worksOf (A ++ B)) := h.wf_split hm

theorem Inv.safe_tx (h : Inv m) (hm : m.threads = A ++ .tx tx :: B) :
    SafeAt m.db m.owner (tx.tx.works ++ worksOf (A ++ B)) A.length tx.tx tx.pc := h.safe_split hm

theorem next_view (h : Inv m) (hm : m.threads = A ++ .tx tx :: B)
    {stmt : Statement} {item? : Option Nat} {db' : Db} {tx' : DbTx}
    (t₀ : TxThread) (hpc : tx.pc = .ready) (howner : m.owner = none)
    (hrun : m.db.txView tx.tx stmt.tableName.bytes = .ok (item?, db', tx')) :
    Next m ({ m with db := db' }.set A.length
      (.tx { t₀ with tx := tx', pc := .run item? stmt })) p := by
  have hwf := h.wf_tx hm
  have hrest : AtRest tx.pc := Or.inl hpc
  obtain ⟨hsec, hrest', hsnap⟩ := Db.Rest.view (hrest.safe.1 (h.safe_tx hm)) hwf hrun
  refine h.go_free hm (set_threads hm _) hsec (fun ho => absurd howner ho) rfl hrest.not_commits
    hrest' ?_ (keepOk_none rfl)
  intro l hl
  change db'.mv.snaps.Perm ([tx'.snapId] ++ l)
  rw [Db.txView_mv hwf hrun, hsnap]
  rwa [hrest.held] at hl

theorem next_look (h : Inv m) (hm : m.threads = A ++ .tx tx :: B)
    {sql : Bytes} {db' : Db} {res : DbRes} {ok : Bool} (hpc : tx.pc = .ready)
    (howner : m.owner = none) (hrun : m.db.doRead tx.tx.snapId sql = .ok (db', res, ok)) :
    Next m { m with db := db' } p := by
  have hwf := h.wf_tx hm
  have hrest : AtRest tx.pc := Or.inl hpc
  have hsafe := hrest.safe.1 (h.safe_tx hm)
  obtain ⟨hsec, hmv, -⟩ := Db.doRead_section (p := p) hwf hrun
  -- a read leaves the working copies of the transaction itself alone, too
  have hwf₀ : m.db.Wf ([] ++ (tx.tx.works ++ worksOf (A ++ B))) := hwf
  have hall := (Db.doRead_section (p := p) hwf₀ hrun).1
  have hok := (hsafe.ok.stable (Db.Stable.of_names hsec.names)
    fun a ha => hall.works a (List.mem_append_left _ ha)).1
  refine h.go_free hm hm hsec (fun ho => absurd howner ho) rfl hrest.not_commits
    (hrest.safe.2 (hsafe.own hsec hok fun x hx => ⟨x, hx, rfl, rfl⟩)) (fun l hl => ?_)
    (keepOk_none hrest.keepId?)
  change db'.mv.snaps.Perm _
  rwa [hmv]

theorem next_run (h : Inv m) (hm : m.threads = A ++ .tx tx :: B)
    {item? : Option Nat} {stmt : Statement} {db' : Db} {tx' : DbTx} {res : DbRes}
    {ok : Bool} (log : List Statement) (hpc : tx.pc = .run item? stmt)
    (hcase : Db.RunCase m.db tx.tx item? stmt db' tx' ok) :
    Next m ({ m with db := db' }.set A.length
      (.tx (ran { tx with tx := tx', log := log } res ok))) p := by
  have hsafe := h.safe_tx hm
  rw [hpc] at hsafe
  obtain ⟨hsec, hquiet, hrest', hsnap⟩ := hcase.section hsafe (h.wf_tx hm)
  refine h.go_free hm (set_threads hm _) ?_ (fun _ => hquiet) rfl (not_commits_of_pc (by simp [hpc]))
    ?_ (fun l hl => ?_) (keepOk_none (ran_atRest _ _).keepId?)
  · change Db.Section m.db db' _ (ran _ res ok).tx.works _ p
    rw [ran_tx]
    exact hsec
  · refine (ran_atRest _ _).safe.2 ?_
    change db'.Rest ((ran _ res ok).tx.works ++ _) (ran _ res ok).tx
    rw [ran_tx]
    exact hrest'
  · rw [(ran_atRest _ _).held, ran_tx]
    change db'.mv.snaps.Perm ([tx'.snapId] ++ l)
    rw [hcase.mv, hsnap]
    simpa [Thread.held, hpc] using hl

theorem next_commit (h : Inv m) (hm : m.threads = A ++ .tx tx :: B)
    (hmay : MayCommit tx) (howner : m.owner = none)
    (hrun : m.db.commitCheck tx.tx.tabs = .ok true) :
    Next m ({ m with
      db := { m.db with mv := m.db.mv.mvBump }
      owner := some A.length }.set A.length
        (.tx { tx with pc := .install m.db.mv.mvBump.curVer 0 })) p := by
  have hwf := h.wf_tx hm
  have hrest := hmay.atRest
  refine h.go hm (set_threads hm _)
    (Db.Section.with_mv hwf (Nat.le_succ _) fun _ hs => Or.inl hs) (fun j _ hj => ?_)
    (fun j hj => ?_) (fun _ => commits_tx.2 ⟨_, _, rfl⟩)
    ⟨rfl, (hrest.safe.1 (h.safe_tx hm)).start hwf hrun⟩ (fun l hl => ?_) (keepOk_none rfl)
  · rw [howner] at hj
    cases hj
  · rw [howner]
    constructor
    · intro heq
      exact absurd (Option.some.inj heq).symm hj
    · intro heq
      cases heq
  · rwa [hrest.held] at hl

theorem next_conflict (h : Inv m) (hm : m.threads = A ++ .tx tx :: B)
    (hmay : MayCommit tx) :
    Next m (m.set A.length (.tx (refused tx))) p := by
  have hrest := hmay.atRest
  refine h.go_free hm (set_threads hm _) ?_ (fun _ => Db.Quiet.refl _) rfl hrest.not_commits ?_
    (fun l hl => ?_) (keepOk_none refused_atRest.keepId?)
  · change Db.Section m.db m.db _ (refused tx).tx.works _ p
    rw [refused_tx]
    exact Db.Section.refl (h.wf_tx hm)
  · refine refused_atRest.safe.2 ?_
    change m.db.Rest ((refused tx).tx.works ++ _) (refused tx).tx
    rw [refused_tx]
    exact hrest.safe.1 (h.safe_tx hm)
  · rw [refused_atRest.held, refused_tx]
    rwa [hrest.held] at hl

theorem next_skip (h : Inv m) (hm : m.threads = A ++ .tx tx :: B)
    {ver k : Nat} {it : TxTab} (hpc : tx.pc = .install ver k)
    (hk : tx.tx.tabs[k]? = some it) (hd : it.dirty = false) :
    Next m (m.set A.length (.tx { tx with pc := .install ver (k + 1) })) p := by
  have hwf := h.wf_tx hm
  have hsafe := h.safe_tx hm
  rw [hpc] at hsafe
  obtain ⟨howner, hinst⟩ := hsafe
  refine h.go hm (set_threads hm _) (Db.Section.refl hwf) (fun _ _ _ => Db.Quiet.refl _)
    (fun _ _ => Iff.rfl) (fun _ => commits_tx.2 ⟨_, _, rfl⟩) ⟨howner, hinst.skip hwf hk hd⟩
    (fun l hl => ?_) (keepOk_none rfl)
  rw [held_installing hpc] at hl
  exact hl

theorem next_install (h : Inv m) (hm : m.threads = A ++ .tx tx :: B)
    {ver k : Nat} {it it' : TxTab} {db' : Db} {saved : Bool}
    (hpc : tx.pc = .install ver k) (hk : tx.tx.tabs[k]? = some it) (hd : it.dirty = true)
    (hrun : m.db.commitInstall it ver .ok = .ok (db', it', saved)) :
    Next m ({ m with db := db' }.set A.length (.tx { tx with
      tx := { tx.tx with tabs := tx.tx.tabs.set k it' }
      pc := .install ver (k + 1) })) p := by
  have hsafe := h.safe_tx hm
  rw [hpc] at hsafe
  obtain ⟨howner, hinst⟩ := hsafe
  obtain ⟨a, e, tab, -, -, -, rfl, -, hsec, hnew⟩ :=
    hinst.install (p := p) (h.wf_tx hm) hk hd hrun
  refine h.go hm (set_threads hm _) hsec (fun j hj ho => ?_) (fun _ _ => Iff.rfl)
    (fun _ => commits_tx.2 ⟨_, _, rfl⟩) ⟨howner, hnew⟩ (fun l hl => ?_) (keepOk_none rfl)
  · rw [howner] at ho
    exact absurd (Option.some.inj ho).symm hj
  · rw [held_installing hpc] at hl
    exact hl

theorem next_finish (h : Inv m) (hm : m.threads = A ++ .tx tx :: B)
    {ver k : Nat} (hist : List Commit) (hpc : tx.pc = .install ver k)
    (hk : tx.tx.tabs[k]? = none) :
    Next m ({ m with owner := none, hist := hist }.set A.length
      (.tx { tx with pc := .gc true })) p := by
  have hsafe := h.safe_tx hm
  rw [hpc] at hsafe
  obtain ⟨howner, hinst⟩ := hsafe
  refine h.go hm (set_threads hm _) (Db.Section.refl (h.wf_tx hm)) (fun _ _ _ => Db.Quiet.refl _)
    (fun j hj => ?_) (fun ho => by cases ho) (hinst.works_nil hk) (fun l hl => ?_)
    (keepOk_none rfl)
  · rw [howner]
    constructor
    · intro heq
      cases heq
    · intro heq
      exact absurd (Option.some.inj heq).symm hj
  · rw [held_installing hpc] at hl
    exact hl

theorem next_gc (h : Inv m) (hm : m.threads = A ++ .tx tx :: B)
    {ok : Bool} (hpc : tx.pc = .gc ok) :
    Next m (m.gc A.length tx.tx.snapId (.tx { tx with pc := .stat ok })) p := by
  have hsafe := h.safe_tx hm
  rw [hpc] at hsafe
  have hcur : (m.db.mv.mvGc tx.tx.snapId).curVer = m.db.mv.curVer := curVer_mvGc _ _
  refine h.go_free hm (set_threads hm _)
    (Db.Section.with_mv (h.wf_tx hm) hcur.ge fun s hs => Or.inl (mem_mvGc hs))
    (fun _ => ⟨rfl, hcur, fun _ _ => rfl⟩) rfl (not_commits_of_pc (by simp [hpc])) hsafe
    (fun l hl => ?_) (keepOk_none rfl)
  have hl' : m.db.mv.snaps.Perm (tx.tx.snapId :: l) := by simpa [Thread.held, hpc] using hl
  exact perm_mvGc hl' (h.live _ (hl'.mem_iff.2 List.mem_cons_self)).1

theorem next_stat (h : Inv m) (hm : m.threads = A ++ .tx tx :: B)
    {ok : Bool} (hpc : tx.pc = .stat ok) :
    Next m (m.set A.length (.tx { tx with pc := .prune m.db.gcKeepId ok })) p := by
  have hsafe := h.safe_tx hm
  rw [hpc] at hsafe
  refine h.go_free hm (set_threads hm _) (Db.Section.refl (h.wf_tx hm)) (fun _ => Db.Quiet.refl _)
    rfl (not_commits_of_pc (by simp [hpc])) hsafe (fun l hl => ?_) ?_
  · have hl' : m.db.mv.snaps.Perm l := by simpa [Thread.held, hpc] using hl
    exact hl'
  · intro keep hk
    cases hk
    exact gcKeepId_spec h.live

theorem next_prune (h : Inv m) (hm : m.threads = A ++ .tx tx :: B)
    {keep : Nat} {ok : Bool} {db' : Db} (hpc : tx.pc = .prune keep ok)
    (howner : m.owner = none) (hrun : m.db.gcPrune keep = .ok db') :
    Next m ({ m with db := db' }.set A.length (.tx { tx with pc := .over ok })) (some keep) := by
  have hsafe := h.safe_tx hm
  rw [hpc] at hsafe
  refine h.go_free hm (set_threads hm _) (Db.Section.prune (h.wf_tx hm) hrun)
    (fun ho => absurd howner ho) rfl (not_commits_of_pc (by simp [hpc])) hsafe (fun l hl => ?_)
    (keepOk_none rfl)
  change db'.mv.snaps.Perm _
  rw [Db.gcPrune_mv hrun]
  simpa [Thread.held, hpc] using hl

theorem next_retry (h : Inv m) (hm : m.threads = A ++ .tx tx :: B)
    {stmt : Statement} {res : DbRes} {left : Nat} (hpc : tx.pc = .over false) :
    Next m ({ m with db := { m.db with mv := m.db.mv.mvSnap } }.set A.length
      (m.fresh (.exec stmt res left))) p := by
  have hwf := h.wf_tx hm
  have hsafe := h.safe_tx hm
  rw [hpc] at hsafe
  have hworks : tx.tx.works = [] := hsafe
  have hsec : Db.Section m.db { m.db with mv := m.db.mv.mvSnap } tx.tx.works []
      (worksOf (A ++ B)) p := by
    rw [hworks] at hwf ⊢
    exact Db.Section.with_mv hwf (Nat.le_refl _) fun _ hs => mem_mvSnap hs
  refine h.go_free hm (set_threads hm _) hsec (fun _ => ⟨rfl, rfl, fun _ _ => rfl⟩) rfl
    (not_commits_of_pc (by simp [hpc])) (rest_fresh _ _ _) (fun l hl => ?_) (keepOk_none rfl)
  have hl' : m.db.mv.snaps.Perm l := by simpa [Thread.held, hpc] using hl
  exact (hl'.append_right _).trans List.perm_append_comm

/-- **A step of a transaction.** -/
theorem TxStep.next (h : Inv m) (ht : m.threads[i]? = some (.tx tx)) (hs : TxStep m i tx m')
    (hp : ∀ keep ok, tx.pc = .prune keep ok → m.owner = none → p = some keep) :
    Next m m' p := by
  obtain ⟨A, B, hm, rfl⟩ := split_thread ht
  cases hs with
  | @view _ _ _ _ t₀ hpc _ howner hrun => exact next_view h hm t₀ hpc howner hrun
  | unparsed hpc =>
      have hrest : AtRest tx.pc := Or.inl hpc
      refine h.go_free hm (set_threads hm _) (Db.Section.refl (h.wf_tx hm))
        (fun _ => Db.Quiet.refl _) rfl hrest.not_commits (hrest.safe.1 (h.safe_tx hm))
        (fun l hl => ?_) (keepOk_none rfl)
      rwa [hrest.held] at hl
  | look hpc _ howner hrun => exact next_look h hm hpc howner hrun
  | run hpc hrun =>
      refine next_run h hm _ hpc ?_
      have hsafe := h.safe_tx hm
      rw [hpc] at hsafe
      rcases hrun with ⟨stmt', res₀, left, -, hrun⟩ | ⟨-, hrun⟩
      · exact Db.execRun_cases hsafe.ok hrun
      · exact Db.txRun_cases hsafe.ok hrun
  | commit hmay howner hrun => exact next_commit h hm hmay howner hrun
  | conflict hmay => exact next_conflict h hm hmay
  | skip hpc hk hd => exact next_skip h hm hpc hk hd
  | install hpc hk hd hrun => exact next_install h hm hpc hk hd hrun
  | finish hpc hk => exact next_finish h hm _ hpc hk
  | abort hmay hrun =>
      have hrest := hmay.atRest
      obtain ⟨hsec, hquiet⟩ := (hrest.safe.1 (h.safe_tx hm)).abort (p := p) (h.wf_tx hm) hrun
      refine h.go_free hm (set_threads hm _) hsec (fun _ => hquiet) rfl hrest.not_commits rfl
        (fun l hl => ?_) (keepOk_none rfl)
      rwa [hrest.held] at hl
  | gc hpc => exact next_gc h hm hpc
  | stat hpc => exact next_stat h hm hpc
  | @prune keep ok _ hpc howner hrun =>
      rw [hp keep ok hpc howner]
      exact next_prune h hm hpc howner hrun
  | retry hpc => exact next_retry h hm hpc

/-! ## Requests -/

variable {sql : Bytes} {stmt : Statement} {pc : ReqPc}

theorem req_not_commits : ¬ Commits (.req sql stmt pc) := by
  rintro ⟨t', ver, k, heq, -⟩
  cases heq

/-- **A step of a request.** -/
theorem ReqStep.next (h : Inv m) (ht : m.threads[i]? = some (.req sql stmt pc))
    (hs : ReqStep m i sql stmt pc m')
    (hp : ∀ ver keep out, pc = .prune ver keep out → m.owner = none → p = some keep) :
    Next m m' p := by
  obtain ⟨A, B, hm, rfl⟩ := split_thread ht
  have hwf : m.db.Wf ([] ++ worksOf (A ++ B)) := h.wf_split hm
  have hset := fun t' : Thread => set_threads hm t'
  cases hs with
  | @start ver db' howner hrun =>
      obtain ⟨hsec, hmv, -⟩ := Db.dbTabVer_section (p := p) hwf hrun
      refine h.go_free hm (hset _) hsec (fun ho => absurd howner ho) rfl req_not_commits trivial
        (fun l hl => ?_) (keepOk_none ?_)
      · change db'.mv.snaps.Perm _
        rw [hmv]
        split
        · exact hl
        · exact hl
      · split
        · rfl
        · rfl
  | hit hrun =>
      exact h.go_free hm (hset _) (Db.Section.refl hwf) (fun _ => Db.Quiet.refl _) rfl
        req_not_commits trivial (fun _ hl => hl) (keepOk_none rfl)
  | miss hrun =>
      exact h.go_free hm (hset _) (Db.Section.refl hwf) (fun _ => Db.Quiet.refl _) rfl
        req_not_commits trivial (fun _ hl => hl) (keepOk_none rfl)
  | snap =>
      refine h.go_free hm (hset _)
        (Db.Section.with_mv hwf (Nat.le_refl _) fun _ hs => mem_mvSnap hs)
        (fun _ => ⟨rfl, rfl, fun _ _ => rfl⟩) rfl req_not_commits trivial (fun l hl => ?_)
        (keepOk_none rfl)
      have hl' : m.db.mv.snaps.Perm l := hl
      exact (hl'.append_right _).trans List.perm_append_comm
  | @read ver snap db' res ok howner hrun =>
      obtain ⟨hsec, hmv, -⟩ := Db.doRead_section (p := p) hwf hrun
      refine h.go_free hm (hset _) hsec (fun ho => absurd howner ho) rfl req_not_commits trivial
        (fun l hl => ?_) (keepOk_none rfl)
      change db'.mv.snaps.Perm _
      rw [hmv]
      exact hl
  | @gc ver snap out =>
      have hcur : (m.db.mv.mvGc snap).curVer = m.db.mv.curVer := curVer_mvGc _ _
      refine h.go_free hm (hset _) (Db.Section.with_mv hwf hcur.ge fun s hs => Or.inl (mem_mvGc hs))
        (fun _ => ⟨rfl, hcur, fun _ _ => rfl⟩) rfl req_not_commits trivial (fun l hl => ?_)
        (keepOk_none rfl)
      have hl' : m.db.mv.snaps.Perm (snap :: l) := hl
      exact perm_mvGc hl' (h.live _ (hl'.mem_iff.2 List.mem_cons_self)).1
  | stat =>
      refine h.go_free hm (hset _) (Db.Section.refl hwf) (fun _ => Db.Quiet.refl _) rfl
        req_not_commits trivial (fun _ hl => hl) ?_
      intro keep hk
      cases hk
      exact gcKeepId_spec h.live
  | @stored ver keep data db' howner hver hrun =>
      have hkeep := hp _ _ _ rfl howner
      subst hkeep
      refine h.go_free hm (hset _) (Db.Section.prune hwf hrun) (fun ho => absurd howner ho) rfl
        req_not_commits trivial (fun l hl => ?_) (keepOk_none rfl)
      change db'.mv.snaps.Perm _
      rw [Db.gcPrune_mv hrun]
      exact hl
  | @ended ver keep out db' howner hrun =>
      have hkeep := hp _ _ _ rfl howner
      subst hkeep
      refine h.go_free hm (hset _) (Db.Section.prune hwf hrun) (fun ho => absurd howner ho) rfl
        req_not_commits trivial (fun l hl => ?_) (keepOk_none rfl)
      change db'.mv.snaps.Perm _
      rw [Db.gcPrune_mv hrun]
      exact hl
  | store =>
      exact h.go_free hm (hset _) (Db.Section.refl hwf) (fun _ => Db.Quiet.refl _) rfl
        req_not_commits trivial (fun _ hl => hl) (keepOk_none rfl)

/-- **One step of the machine**, before the heads go on record. -/
theorem Turn.next {l : Label} (h : Inv m) (ht : Turn m l m') : Next m m' (m.prunes l) := by
  cases ht with
  | idle => exact Next.refl h
  | tick ns => exact ⟨⟨h.wf, h.reg, h.live, h.safe, h.keep, h.owner⟩, fun _ => .same _,
      Nat.le_refl _, fun _ hs => Or.inl hs, List.prefix_rfl⟩
  | @spawn _ job hjob =>
      exact h.add rfl rfl rfl (Db.Section.with_mv h.wf (Nat.le_refl _) fun _ hs => mem_mvSnap hs)
        ⟨rfl, rfl, fun _ _ => rfl⟩ (rest_fresh _ _ _) (fun l hl => hl.append_right _) rfl
  | @request text stmt hparse hsel =>
      refine h.add rfl rfl rfl (Db.Section.refl h.wf) (Db.Quiet.refl _) trivial (fun l hl => ?_) rfl
      rw [show Thread.held (.req (cstr text) stmt .start) = [] from rfl, List.append_nil]
      exact hl
  | @tx _ i t _ ht hl hstep =>
      refine hstep.next h ht fun keep ok hpc howner => ?_
      rcases hl with rfl | ⟨-, hready⟩
      · simp [prunes, howner, ht, Thread.keepId?, hpc]
      · rw [hready] at hpc
        cases hpc
  | @req i sql stmt pc _ ht hstep =>
      refine hstep.next h ht fun ver keep out hpc howner => ?_
      subst hpc
      simp [prunes, howner, ht, Thread.keepId?]

/-! ## The record of the heads -/

theorem headOf_eq {db : Db} {ws : List Nat} (h : db.Wf ws) (n : Bytes) :
    db.headOf n = (db.vers n).head? := by
  unfold Db.headOf
  cases hk : db.getEnt n with
  | none =>
      rw [Db.vers_none hk]
      rfl
  | some k =>
      obtain ⟨e, he, -⟩ := Db.getEnt_spec hk
      obtain ⟨a, rest, hc⟩ := List.exists_cons_of_ne_nil
        (h.chain e (List.mem_of_getElem? he)).nonempty
      obtain ⟨t, ht, -⟩ := (h.chain e (List.mem_of_getElem? he)).live a (hc ▸ List.mem_cons_self)
      rw [Db.vers_getEnt hk he, Option.bind_some, hc, List.filterMap_cons_some ht, List.head?_cons]
      unfold Db.headAddr
      rw [he, Option.bind_some, hc, List.head?_cons, Option.bind_some, ht]

theorem watch_past (h : Inv m) (n : Bytes) :
    m.watch.past n = record TabVer.verId (m.past n) (m.db.vers n).head? := by
  unfold watch
  dsimp only
  rw [headOf_eq h.wf]
  cases (m.db.vers n).head? with
  | none => rfl
  | some tab => rfl

theorem Inv.watch (h : Inv m) : Inv m.watch :=
  ⟨h.wf, h.reg, h.live, h.safe, h.keep, h.owner⟩

/-- Only the watcher writes the record. -/
theorem Turn.past {l : Label} (ht : Turn m l m') : m'.past = m.past := by
  cases ht with
  | idle => rfl
  | tick ns => rfl
  | spawn hjob => rfl
  | request hparse hsel => rfl
  | tx ht hl hstep => cases hstep <;> rfl
  | req ht hstep => cases hstep <;> rfl

/-- The invariant, with the version chains and their records in order. -/
structure Ok (m : Conc) : Prop where
  inv : Inv m
  past : ∀ n, Recorded TabVer.verId m.db.mv.curVer (m.db.vers n) (m.past n)

theorem init_ok (files : Bytes → Option Bytes) (maxSql maxQry : Int) (ttlNs : Nat) :
    Ok (init files maxSql maxQry ttlNs) where
  inv :=
    { wf := ⟨by simp [init, dbOpen], by simp [init, dbOpen, Db.chains, worksOf],
        by simp [init, dbOpen], by simp [init, worksOf], Nat.le_refl 1⟩
      reg := List.Perm.refl _
      live := by simp [init, dbOpen, Db.Live, Mvcc.mvNew]
      safe := by simp [init]
      keep := by simp [init]
      owner := by simp [init] }
  past := fun n => ⟨List.prefix_rfl, fun h => h, List.Pairwise.nil, by simp [init], by simp [init]⟩

/-- What one step of the machine does. -/
structure Stepped (m : Conc) (l : Label) (m' : Conc) : Prop where
  turn : ∃ m₁, Turn m l m₁ ∧ m' = m₁.watch
  change : ∀ n, Change TabVer.verId m.db.mv.curVer (m.prunes l) (m.db.vers n) (m'.db.vers n)
  past : ∀ n, m'.past n = record TabVer.verId (m.past n) (m'.db.vers n).head?
  cur : m.db.mv.curVer ≤ m'.db.mv.curVer
  snaps : ∀ s ∈ m'.db.mv.snaps, s ∈ m.db.mv.snaps ∨ s = m.db.mv.curVer
  names : m.db.tabs.map TabEnt.name <+: m'.db.tabs.map TabEnt.name

/-- **One step.** -/
theorem Ok.step (h : Ok m) {l : Label} (hs : m.step l = .ok m') : Ok m' ∧ Stepped m l m' := by
  obtain ⟨m₁, hturn, rfl⟩ := step_cases hs
  obtain ⟨hinv, hchange, hcur, hsnaps, hnames⟩ := hturn.next h.inv
  have hpast : ∀ n, m₁.watch.past n = record TabVer.verId (m.past n) (m₁.db.vers n).head? := by
    intro n
    rw [watch_past hinv, hturn.past]
  refine ⟨⟨hinv.watch, fun n => ?_⟩, ⟨⟨m₁, hturn, rfl⟩, hchange, hpast, hcur, hsnaps, hnames⟩⟩
  rw [hpast]
  exact ((h.past n).change (hchange n) h.inv.wf.curVer_pos).mono hcur

/-- **All along a run.** -/
theorem Ok.run {ls : List Label} (h : Ok m) (hrun : Run.exec Conc.step m ls = .ok m') : Ok m' :=
  Run.kept (fun h hs => (Ok.step h hs).1) h hrun

/-- **Every reachable state is in order.** -/
theorem ok_of_run {files : Bytes → Option Bytes} {maxSql maxQry : Int} {ttlNs : Nat}
    {ls : List Label} (hrun : Run.exec step (init files maxSql maxQry ttlNs) ls = .ok m) : Ok m :=
  (init_ok files maxSql maxQry ttlNs).run hrun

end Conc

end MiniDbms
