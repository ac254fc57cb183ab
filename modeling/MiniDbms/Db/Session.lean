import MiniDbms.Db.Calls

/-!
# Whole calls

`db_commit` against the abstract commit, and `db_exec` and `db_batch`, which open
a transaction, use it and close it again.
-/

namespace MiniDbms

namespace TabVer

/-! ## Statements on a working copy -/

/-- The slot INSERT clears lies behind the allocated rows. -/
def Overruns (tab : TabVer) : Prop :=
  tab.rows.length < MAX_RECORDS ∧ tab.rows.length < tab.rowCap ∧ tab.slots ≤ tab.rows.length

instance (tab : TabVer) : Decidable tab.Overruns := inferInstanceAs (Decidable (_ ∧ _ ∧ _))

theorem growCap_le : ∀ {fuel cap need c : Nat}, growCap fuel cap need = some c → need ≤ c
  | 0, _, _, _, h => by cases h
  | fuel + 1, cap, need, c, h => by
      rw [growCap] at h
      split at h
      · cases h
        assumption
      · split at h
        · cases h
        · exact growCap_le h

/-- A statement is defined unless it is an INSERT that overruns the rows. -/
theorem execStmt_error_iff {tab : TabVer} {stmt : Statement} {res : DbRes} {f : Fault} :
    tab.execStmt stmt res = .error f ↔
      stmt.type = .insert ∧ tab.Overruns ∧ f = .rowOverflow := by
  unfold execStmt
  cases htype : stmt.type with
  | insert =>
      unfold insDo Overruns
      dsimp only
      by_cases hmax : MAX_RECORDS ≤ tab.rows.length
      · rw [if_pos hmax]
        simp only [reduceCtorEq, true_and, false_iff, not_and]
        intro h
        omega
      · rw [if_neg hmax]
        unfold ensureRowCap
        by_cases hroom : tab.rows.length + 1 ≤ tab.rowCap
        · rw [if_pos hroom]
          dsimp only
          by_cases hslots : tab.slots ≤ tab.rows.length
          · rw [if_pos hslots]
            have h₁ : tab.rows.length < MAX_RECORDS := by omega
            have h₂ : tab.rows.length < tab.rowCap := by omega
            simp [h₁, h₂, hslots, eq_comm]
          · rw [if_neg hslots]
            have h₁ : ¬ (tab.rows.length < MAX_RECORDS ∧ tab.rows.length < tab.rowCap ∧
                tab.slots ≤ tab.rows.length) := fun h => hslots h.2.2
            simp only [h₁, false_and, and_false, iff_false]
            split <;> simp
        · rw [if_neg hroom]
          have h₁ : ¬ (tab.rows.length < MAX_RECORDS ∧ tab.rows.length < tab.rowCap ∧
              tab.slots ≤ tab.rows.length) := fun h => by omega
          simp only [h₁, false_and, and_false, iff_false]
          cases hg : growCap 33 (if 0 < tab.rowCap then tab.rowCap else 16)
              (tab.rows.length + 1) with
          | none => simp
          | some cap =>
              have hcap := growCap_le hg
              rw [Option.map_some]
              dsimp only
              rw [if_neg (by omega)]
              split <;> simp
  | select => simp
  | delete => simp
  | update => simp
  | unrecognized => simp

/-- A clone has no room to overrun. -/
theorem tabClone_execStmt {src dst : TabVer} (h : src.tabClone = some dst) (stmt : Statement)
    (res : DbRes) : ∃ r, dst.execStmt stmt res = .ok r := by
  cases hrun : dst.execStmt stmt res with
  | ok r => exact ⟨r, rfl⟩
  | error f =>
      obtain ⟨-, hover, -⟩ := execStmt_error_iff.1 hrun
      obtain ⟨hframe, -⟩ := tabClone_spec h
      rw [hframe] at hover
      exact absurd hover.2.1 (Nat.lt_irrefl _)

theorem rebuild_failed {tab tab' : TabVer} {res res' : DbRes}
    (h : tab.rebuild res = (tab', res', false)) : res'.err.isSome := by
  unfold rebuild at h
  split at h
  · cases h
  · cases h
    rfl

theorem insRow_failed {tab tab' : TabVer} {row : Row} {newId : Int} {res res' : DbRes}
    (h : tab.insRow row newId res = (tab', res', false)) : res'.err.isSome := by
  unfold insRow at h
  dsimp only at h
  split at h
  · cases h
    rfl
  · split at h
    · cases h
      rfl
    · split at h
      · cases h
        rfl
      · split at h
        · cases h
        · cases h
          rfl

theorem updDo_failed {tab tab' : TabVer} {stmt : Statement} {res res' : DbRes}
    (h : tab.updDo stmt res = (tab', res', false)) : res'.err.isSome := by
  unfold updDo at h
  dsimp only at h
  split at h
  · cases h
    rfl
  · split at h
    · cases h
      rfl
    · split at h
      · cases h
        rfl
      · split at h
        · cases h
          rfl
        · split at h
          · cases h
            rfl
          · split at h
            · cases h
            · exact rebuild_failed h

theorem execStmt_failed {tab tab' : TabVer} {stmt : Statement} {res res' : DbRes}
    (hwr : stmt.isWr = true) (h : tab.execStmt stmt res = .ok (tab', res', false)) :
    res'.err.isSome := by
  unfold execStmt at h
  split at h
  · rename_i htype
    simp [Statement.isWr, htype] at hwr
  · unfold insDo at h
    dsimp only at h
    split at h
    · cases h
      rfl
    · split at h
      · cases h
        rfl
      · split at h
        · cases h
        · split at h
          · cases h
            rfl
          · exact insRow_failed (Except.ok.inj h)
  · exact updDo_failed (Except.ok.inj h)
  · have h := Except.ok.inj h
    unfold delDo at h
    split at h
    · cases h
      rfl
    · exact rebuild_failed h
  · rename_i htype
    simp [Statement.isWr, htype] at hwr

end TabVer

namespace Db

variable {db db' : Db} {ws others : List Nat} {tx tx' : DbTx} {name : Bytes}

/-! ## The newest snapshot -/

theorem Wf.visAddr_now (h : db.Wf ws) (k : Nat) :
    db.visAddr db.mv.curVer k = db.headAddr k := by
  unfold visAddr headAddr
  cases he : db.tabs[k]? with
  | none => rfl
  | some e =>
      rw [Option.bind_some, Option.bind_some]
      have hok := h.chain e (List.mem_of_getElem? he)
      cases hc : e.chain with
      | nil => exact absurd hc hok.nonempty
      | cons a rest =>
          obtain ⟨t, ht, -, -, -, hle⟩ := hok.live a (hc ▸ List.mem_cons_self)
          unfold visOf
          rw [List.find?_cons_of_pos (by simp [ht, hle])]
          rfl

theorem Wf.seen_now (h : db.Wf ws) : db.seen db.mv.curVer = db.com := by
  funext n
  unfold seen com
  cases db.getEnt n with
  | none => rfl
  | some k =>
      dsimp only
      rw [h.visAddr_now k]

theorem Wf.sees_now (h : db.Wf ws) : db.Sees db.mv.curVer := by
  intro k e he
  rw [h.visAddr_now k]
  unfold headAddr
  rw [he, Option.bind_some]
  cases hc : e.chain with
  | nil => exact absurd hc (h.chain e (List.mem_of_getElem? he)).nonempty
  | cons a rest => exact ⟨a, rfl⟩

theorem Wf.begin_open (h : db.Wf ws) :
    OpenTx { db with mv := db.mv.mvSnap } ⟨db.mv.curVer, []⟩ ws ∧
      ({ db with mv := db.mv.mvSnap } : Db).absTx ⟨db.mv.curVer, []⟩ = db.abs.begin := by
  obtain ⟨hok, hbase⟩ := ({ db with mv := db.mv.mvSnap } : Db).txOk_nil db.mv.curVer
  have hwf : ({ db with mv := db.mv.mvSnap } : Db).Wf ws := h.with_mv (Nat.le_refl _)
  refine ⟨⟨⟨hwf, hok⟩, hbase, h.curVer_pos, hwf.sees_now⟩, ?_⟩
  unfold absTx abs Ideal.begin
  rw [← h.seen_now]
  rfl

/-! ## Commit -/

/-- No registry pointer that `db_commit` follows is dangling. -/
def FreshDirty (db : Db) (tx : DbTx) : Prop :=
  ∀ it ∈ tx.tabs, it.dirty = true → it.ent.gen = db.tabsGen

instance (db : Db) (tx : DbTx) : Decidable (db.FreshDirty tx) :=
  inferInstanceAs (Decidable (∀ it ∈ tx.tabs, _))

theorem Fresh.dirty (h : db.Fresh tx) : db.FreshDirty tx := fun it hit _ => h it hit

theorem OpenTx.item_com (h : OpenTx db tx others) {it : TxTab} (hit : it ∈ tx.tabs) :
    ∃ e base head t a, db.tabs[it.ent.idx]? = some e ∧ (db.absTx tx).seen e.name = some base ∧
      db.heap.get it.base = some base ∧ db.headAddr it.ent.idx = some a ∧
      e.chain = a :: head ∧ db.heap.get a = some t ∧ db.com e.name = some t ∧
      it.base ∈ e.chain := by
  obtain ⟨e, he, -⟩ := h.txwf.ok.ents it hit
  obtain ⟨i, hi⟩ := List.mem_iff_getElem?.1 hit
  obtain ⟨it', e', base, hat⟩ := Viewed.itemAt ⟨it, e, hi, he, rfl⟩ h
  have hit' : it' = it := Option.some.inj (hat.item.symm.trans hi)
  subst hit'
  have hok := h.txwf.wf.chain e (List.mem_of_getElem? he)
  cases hc : e.chain with
  | nil => exact absurd hc hok.nonempty
  | cons a rest =>
      obtain ⟨t, ht, -⟩ := hok.live a (hc ▸ List.mem_cons_self)
      have hhead : db.headAddr it'.ent.idx = some a := by
        unfold headAddr
        rw [he, Option.bind_some, hc]
        rfl
      refine ⟨e, base, rest, t, a, he, hat.seen, hat.get, hhead, hc, ht, ?_, ?_⟩
      · unfold com
        rw [h.txwf.wf.getEnt_eq he]
        dsimp only
        rw [hhead, Option.bind_some, ht]
      · obtain ⟨x, hx, hv⟩ := Option.bind_eq_some_iff.1 (h.base it' hit)
        rw [he] at hx
        cases hx
        exact hc ▸ (visOf_mem hv).1

theorem OpenTx.dirty_work (h : OpenTx db tx others) {it : TxTab} {e : TabEnt}
    (hit : it ∈ tx.tabs) (he : db.tabs[it.ent.idx]? = some e) :
    (db.absTx tx).work e.name ≠ none ↔ it.dirty = true := by
  obtain ⟨i, hi⟩ := List.mem_iff_getElem?.1 hit
  obtain ⟨it', e', base, hat⟩ := Viewed.itemAt ⟨it, e, hi, he, rfl⟩ h
  have hit' : it' = it := Option.some.inj (hat.item.symm.trans hi)
  subst hit'
  rw [hat.work, h.txwf.ok.dirty it' hit]
  cases hw : it'.work with
  | none => simp
  | some a =>
      obtain ⟨t, ht, -⟩ := h.txwf.wf.works a (List.mem_append_left _ (mem_works hit hw))
      simp [ht]

theorem OpenTx.no_conflict (h : OpenTx db tx others)
    (hcur : ∀ it ∈ tx.tabs, it.dirty = true → db.Current it) :
    ¬ db.abs.Conflict (db.absTx tx) := by
  rintro ⟨n, hw, hne⟩
  have hfind : ∃ it, tx.tabs.find? (db.named n) = some it := by
    cases hf : tx.tabs.find? (db.named n) with
    | some it => exact ⟨it, rfl⟩
    | none =>
        refine absurd ?_ hw
        change db.txWork tx n = none
        unfold txWork
        rw [hf]
        rfl
  obtain ⟨it, hf⟩ := hfind
  have hit := List.mem_of_find?_eq_some hf
  obtain ⟨e, he, rfl⟩ := named_iff.1 (List.find?_some hf)
  obtain ⟨e', base, rest, t, a, he', hseen, hbase, hhead, -, ht, hcom, -⟩ := h.item_com hit
  rw [he] at he'
  cases he'
  have hc := (hcur it hit ((h.dirty_work hit he).1 hw)).2
  rw [hhead] at hc
  cases hc
  rw [hbase] at ht
  cases ht
  refine hne ?_
  change (db.com e.name).map _ = _
  rw [hcom, hseen]

theorem OpenTx.conflict (h : OpenTx db tx others) {it : TxTab} (hit : it ∈ tx.tabs)
    (hd : it.dirty = true) (hout : db.Outdated it) : db.abs.Conflict (db.absTx tx) := by
  obtain ⟨e, base, rest, t, a, he, hseen, hbase, hhead, hchain, ht, hcom, hmem⟩ := h.item_com hit
  refine ⟨e.name, (h.dirty_work hit he).2 hd, ?_⟩
  change (db.com e.name).map _ ≠ _
  rw [hcom, hseen]
  have hne : it.base ≠ a := fun heq => hout.2 (heq ▸ hhead)
  rw [hchain] at hmem
  have hrest := (List.mem_cons.1 hmem).resolve_left hne
  have hsorted := (h.txwf.wf.chain e (List.mem_of_getElem? he)).sorted
  rw [hchain] at hsorted
  have hlt := (List.pairwise_cons.1 hsorted).1 it.base hrest t base ht hbase
  simp only [Option.map_some, ne_eq, Option.some.injEq]
  omega

/-- The live snapshots of a store. -/
def Live (db : Db) : Prop := ∀ s ∈ db.mv.snaps, 1 ≤ s ∧ s ≤ db.mv.curVer

theorem Live.begin (h : db.Live) (hwf : db.Wf ws) : ({ db with mv := db.mv.mvSnap } : Db).Live := by
  intro s hs
  rcases List.mem_append.1 hs with hs | hs
  · exact h s hs
  · rw [List.mem_singleton.1 hs]
    exact ⟨hwf.curVer_pos, Nat.le_refl _⟩

/-- What a successful commit leaves behind. -/
structure Committed (db db' : Db) (tx : DbTx) (others : List Nat) : Prop where
  wf : db'.Wf others
  mv : db'.mv = db.mv.mvBump.mvGc tx.snapId
  abs : db'.abs = db.abs.install (db.absTx tx)
  stable : Stable (· ∈ db'.mv.snaps) db db'
  works : ∀ a ∈ others, db'.heap.get a = db.heap.get a

inductive DbCommitCase (db : Db) (tx : DbTx) (others : List Nat) :
    Except Fault (Db × DbTx × Bool) → Prop
  | stale (h : ¬ db.FreshDirty tx) : DbCommitCase db tx others (.error .staleEnt)
  | conflict (h : db.abs.Conflict (db.absTx tx)) : DbCommitCase db tx others (.ok (db, tx, false))
  | done {db' : Db} {tx' : DbTx} (hno : ¬ db.abs.Conflict (db.absTx tx))
      (h : Committed db db' tx others) : DbCommitCase db tx others (.ok (db', tx', true))

/-- **`db_commit`** installs everything or reports a conflict. -/
theorem dbCommit_spec (h : OpenTx db tx others) (hlive : db.Live) :
    DbCommitCase db tx others (db.dbCommit tx saveOk) := by
  unfold dbCommit
  have hc := commitSection_cases h.txwf
  generalize db.commitSection tx saveOk = r at hc
  cases hc with
  | @stale it hit hd hs =>
      refine .stale fun hf => ?_
      obtain ⟨e, he, -⟩ := h.txwf.ok.ents it hit
      rw [entAt_fresh (hf it hit hd) he] at hs
      cases hs
  | conflict hit hd hout => exact .conflict (h.conflict hit hd hout)
  | @done db₁ items hcur hinst =>
      have hsnaps : db₁.mv.snaps = db.mv.snaps := by rw [hinst.mv]; rfl
      obtain ⟨db', hrel, hr⟩ := release_spec hinst.wf
        (fun s hs => (hlive s (hsnaps ▸ hs)).1) tx.snapId
      simp only [bind, Except.bind, if_true, hrel]
      have hmv : db'.mv = db.mv.mvBump.mvGc tx.snapId := by rw [hr.mv, hinst.mv]
      refine .done (h.no_conflict hcur) ⟨hr.wf, hmv, ?_, ?_, ?_⟩
      · have hcom : db'.com = override (db.txWork tx) db.com (db.mv.curVer + 1) := by
          rw [hr.com, hinst.com]
          rfl
        have hmaxSql : db'.maxSql = db.maxSql := hr.maxSql.trans hinst.maxSql
        have hmaxQry : db'.maxQry = db.maxQry := hr.maxQry.trans hinst.maxQry
        unfold Db.abs Ideal.install
        rw [hcom, hmaxSql, hmaxQry, hmv, mvGc_curVer]
        rfl
      · have hold : ∀ s ∈ db'.mv.snaps, s < db.mv.curVer + 1 := by
          intro s hs
          rw [hmv] at hs
          have hs' : s ∈ db.mv.mvBump.snaps := mem_mvGc hs
          exact Nat.lt_succ_of_le (hlive s hs').2
        have h₁ : Stable (· ∈ db'.mv.snaps) db { db with mv := db.mv.mvBump } :=
          (mv_invisible _).1
        exact (h₁.trans (hinst.stable.mono hold)).trans hr.stable
      · intro a ha
        rw [hr.works a ha, hinst.works a ha]

/-! ## Calls with a transaction of their own -/

/-- What a call did that is over: `d` is the abstract content it left. -/
structure Settled (db db' : Db) (ws : List Nat) (d : Ideal) : Prop where
  wf : db'.Wf ws
  abs : db'.abs = d
  snaps : db'.mv.snaps.Perm db.mv.snaps
  cur : db.mv.curVer ≤ db'.mv.curVer
  stable : Stable (· ∈ db.mv.snaps) db db'
  works : ∀ a ∈ ws, db'.heap.get a = db.heap.get a

theorem Settled.refl (h : db.Wf ws) : Settled db db ws db.abs :=
  ⟨h, rfl, List.Perm.refl _, Nat.le_refl _, Stable.refl _ _, fun _ _ => rfl⟩

theorem Settled.trans {db'' : Db} {d d' : Ideal} (h : Settled db db' ws d)
    (h' : Settled db' db'' ws d') : Settled db db'' ws d' where
  wf := h'.wf
  abs := h'.abs
  snaps := h'.snaps.trans h.snaps
  cur := h.cur.trans h'.cur
  stable := h.stable.trans (h'.stable.mono fun _ hs => h.snaps.mem_iff.2 hs)
  works := fun a ha => (h'.works a ha).trans (h.works a ha)

theorem Settled.live {d : Ideal} (h : Settled db db' ws d) (hlive : db.Live) : db'.Live :=
  fun s hs => ⟨(hlive s (h.snaps.mem_iff.1 hs)).1,
    (hlive s (h.snaps.mem_iff.1 hs)).2.trans h.cur⟩

theorem mvSnap_mvGc {mv : Mvcc} (h : 1 ≤ mv.curVer) : (mv.mvSnap.mvGc mv.curVer).snaps.Perm mv.snaps := by
  unfold Mvcc.mvGc
  rw [if_neg (by omega)]
  change ((mv.snaps ++ [mv.curVer]).erase mv.curVer).Perm mv.snaps
  have hp : (mv.snaps ++ [mv.curVer]).Perm (mv.curVer :: mv.snaps) :=
    List.perm_append_singleton _ _
  have he := hp.erase mv.curVer
  rwa [List.erase_cons_head] at he

/-- A transaction that was begun on `db` and has run some statements. -/
structure Begun (db db₁ : Db) (tx₁ : DbTx) (ws : List Nat) (abs : IdealTx) : Prop where
  wf : db.Wf ws
  live : db.Live
  ran : Ran { db with mv := db.mv.mvSnap } db₁ ⟨db.mv.curVer, []⟩ ws abs tx₁

namespace Begun

variable {db₁ : Db} {tx₁ : DbTx} {abs : IdealTx}

theorem mv (h : Begun db db₁ tx₁ ws abs) : db₁.mv = db.mv.mvSnap := h.ran.priv.mv

theorem snapId (h : Begun db db₁ tx₁ ws abs) : tx₁.snapId = db.mv.curVer := h.ran.snapId

theorem absDb (h : Begun db db₁ tx₁ ws abs) : db₁.abs = db.abs := by
  unfold Db.abs
  rw [h.ran.priv.com, h.ran.priv.maxSql, h.ran.priv.maxQry, h.mv]
  rfl

theorem live₁ (h : Begun db db₁ tx₁ ws abs) : db₁.Live := by
  have := h.live.begin h.wf
  intro s hs
  rw [h.mv] at hs ⊢
  exact this s hs

theorem stable (h : Begun db db₁ tx₁ ws abs) : Stable (· ∈ db.mv.snaps) db db₁ := by
  have h₁ : Stable (· ∈ db.mv.snaps) db { db with mv := db.mv.mvSnap } := (mv_invisible _).1
  exact h₁.trans (h.ran.priv.stable.mono fun s hs => (h.live s hs).1)

theorem no_conflict (h : Begun db db₁ tx₁ ws abs) : ¬ db₁.abs.Conflict (db₁.absTx tx₁) := by
  rintro ⟨n, -, hne⟩
  refine hne ?_
  change (db₁.com n).map _ = (db₁.seen tx₁.snapId n).map _
  have hseen : db₁.seen tx₁.snapId = db₁.com := by
    rw [h.snapId, h.ran.priv.stable.seen _ h.wf.curVer_pos, h.ran.priv.com]
    exact h.wf.seen_now
  rw [hseen]

theorem abort (h : Begun db db₁ tx₁ ws abs) :
    ∃ db', db₁.dbAbort tx₁ = .ok db' ∧ Settled db db' ws db.abs := by
  obtain ⟨db', hrun, hr⟩ := dbAbort_spec h.ran.opened.txwf fun s hs => (h.live₁ s hs).1
  have hmv : db'.mv = db.mv.mvSnap.mvGc db.mv.curVer := by rw [hr.mv, h.mv, h.snapId]
  have hperm : db'.mv.snaps.Perm db.mv.snaps := by
    rw [hmv]
    exact mvSnap_mvGc h.wf.curVer_pos
  refine ⟨db', hrun, hr.wf, ?_, hperm, ?_, ?_, ?_⟩
  · rw [← h.absDb]
    unfold Db.abs
    rw [hr.com, hr.maxSql, hr.maxQry, hr.mv, mvGc_curVer]
  · rw [hmv, mvGc_curVer]
    exact Nat.le_refl _
  · exact h.stable.trans (hr.stable.mono fun s hs => hperm.mem_iff.2 hs)
  · intro a ha
    rw [hr.works a ha]
    exact h.ran.priv.works a ha

theorem commit (h : Begun db db₁ tx₁ ws abs) :
    (db₁.dbCommit tx₁ saveOk = .error .staleEnt ∧ ¬ db₁.FreshDirty tx₁) ∨
      ∃ db' tx', db₁.dbCommit tx₁ saveOk = .ok (db', tx', true) ∧
        Settled db db' ws (db.abs.install abs) := by
  have hc := dbCommit_spec h.ran.opened h.live₁
  generalize db₁.dbCommit tx₁ saveOk = r at hc
  cases hc with
  | stale hs => exact Or.inl ⟨rfl, hs⟩
  | conflict hcon => exact absurd hcon h.no_conflict
  | @done db' tx' _ hc =>
      have hmv : db'.mv = (db.mv.mvSnap.mvBump).mvGc db.mv.curVer := by rw [hc.mv, h.mv, h.snapId]
      have hperm : db'.mv.snaps.Perm db.mv.snaps := by
        have : db'.mv.snaps = (db.mv.mvSnap.mvGc db.mv.curVer).snaps := by
          rw [hmv]
          unfold Mvcc.mvGc
          split <;> rfl
        rw [this]
        exact mvSnap_mvGc h.wf.curVer_pos
      refine Or.inr ⟨db', tx', rfl, hc.wf, ?_, hperm, ?_, ?_, ?_⟩
      · rw [hc.abs, h.absDb, h.ran.abs]
      · rw [hmv, mvGc_curVer]
        exact Nat.le_succ _
      · exact h.stable.trans (hc.stable.mono fun s hs => hperm.mem_iff.2 hs)
      · intro a ha
        rw [hc.works a ha]
        exact h.ran.priv.works a ha

end Begun

/-! ## `db_exec` -/

/-- A whole call and its abstract counterpart, or the fault of a file with too
many UK columns. -/
inductive ExecCase (db : Db) (ws : List Nat) (loads : Prop)
    (ideal : Except Fault (Ideal × DbRes × Bool)) : Except Fault (Db × DbRes × Bool) → Prop
  | fault (h : ¬ loads) : ExecCase db ws loads ideal (.error .ukOverflow)
  | done {db' : Db} {d : Ideal} {res : DbRes} {ok : Bool} (h : ideal = .ok (d, res, ok))
      (hs : Settled db db' ws d) : ExecCase db ws loads ideal (.ok (db', res, ok))

theorem Begun.start (hwf : db.Wf ws) (hlive : db.Live) :
    Begun db { db with mv := db.mv.mvSnap } ⟨db.mv.curVer, []⟩ ws db.abs.begin := by
  obtain ⟨hopen, habs⟩ := hwf.begin_open
  exact ⟨hwf, hlive, hopen, Private.refl _ _, habs, rfl⟩

theorem Begun.write {db₁ db₂ : Db} {tx₁ tx₂ : DbTx} {i a : Nat} {tab : TabVer} {stmt : Statement}
    (hb : Begun db db₁ tx₁ ws db.abs.begin) (hfresh : db₁.Fresh tx₁)
    (hm : Made db₁ db₂ tx₁ tx₂ stmt.tableName.bytes i ws a tab) {r : TabVer × DbRes × Bool}
    (hrun : tab.execStmt stmt {} = .ok r) :
    ∃ db₃ abs, db₂.execAt a stmt {} = .ok (db₃, r.2.1, r.2.2) ∧ Begun db db₃ tx₂ ws abs ∧
      (r.2.2 = true → abs = db.abs.begin.put stmt.tableName.bytes r.1 ∧ db₃.FreshDirty tx₂) := by
  obtain ⟨tab', res', ok⟩ := r
  have hfresh₂ : ∀ db₃ : Db, db₃.tabsGen = db₁.tabsGen → db₃.FreshDirty tx₂ := by
    intro db₃ hgen x hx _
    obtain ⟨y, hy, hxy⟩ := hm.ents x hx
    rw [hxy, hgen]
    exact hfresh y hy
  cases hwr : stmt.isWr with
  | true =>
      obtain ⟨db₃, hexec, hran, hgen⟩ := hm.exec hwr hrun
      rw [hb.ran.abs] at hran
      exact ⟨db₃, _, hexec, ⟨hb.wf, hb.live, hran.after hb.ran.priv hb.ran.snapId⟩,
        fun _ => ⟨rfl, hfresh₂ db₃ hgen⟩⟩
  | false =>
      have hver : db₂.ver a = .ok tab := by simp [Db.ver, hm.get]
      have hran : Ran db₁ db₂ tx₁ ws (db₂.absTx tx₂) tx₂ :=
        ⟨hm.opened, hm.priv, rfl, congrArg IdealTx.snapId hm.abs⟩
      refine ⟨db₂, _, ?_, ⟨hb.wf, hb.live, hran.after hb.ran.priv hb.ran.snapId⟩, ?_⟩
      · unfold execAt
        simp only [bind, Except.bind, hver, hrun, hwr, Bool.false_eq_true, if_false]
        rfl
      · intro hok
        refine ⟨?_, hfresh₂ db₂ (by rw [hm.frame])⟩
        -- only a SELECT succeeds without writing, and it changes nothing
        have htab : tab' = tab := by
          cases htype : stmt.type with
          | select =>
              unfold TabVer.execStmt at hrun
              rw [htype] at hrun
              exact (congrArg Prod.fst (Except.ok.inj hrun)).symm
          | unrecognized =>
              unfold TabVer.execStmt at hrun
              rw [htype] at hrun
              exact (congrArg Prod.fst (Except.ok.inj hrun)).symm
          | insert => simp [Statement.isWr, htype] at hwr
          | update => simp [Statement.isWr, htype] at hwr
          | delete => simp [Statement.isWr, htype] at hwr
        rw [hm.abs, hb.ran.abs, htab]

theorem execStmt_failed' {tab : TabVer} {stmt : Statement} {r : TabVer × DbRes × Bool}
    (hsel : stmt.type ≠ .select) (h : tab.execStmt stmt {} = .ok r) (hok : r.2.2 = false) :
    r.2.1.err.isSome := by
  obtain ⟨tab', res', ok⟩ := r
  dsimp only at hok
  subst hok
  cases hwr : stmt.isWr with
  | true => exact TabVer.execStmt_failed hwr h
  | false =>
      have htype : stmt.type = .unrecognized := by
        cases htype : stmt.type <;> simp_all [Statement.isWr]
      unfold TabVer.execStmt at h
      rw [htype] at h
      cases h
      rfl

theorem execWrite_spec (hwf : db.Wf ws) (hlive : db.Live) (stmt : Statement)
    (hsel : stmt.type ≠ .select) (left : Nat) :
    ExecCase db ws (db.Loads stmt.tableName.bytes) (db.abs.write stmt)
      (execWrite stmt (left + 1) db {}) := by
  have hb := Begun.start hwf hlive
  have hseen : ({ db with mv := db.mv.mvSnap } : Db).absTx ⟨db.mv.curVer, []⟩ = db.abs.begin :=
    hb.ran.abs
  rw [execWrite]
  simp only [dbBegin, Mvcc.snapId]
  have hc := txView_spec hb.ran.opened stmt.tableName.bytes
  generalize Db.txView { db with mv := db.mv.mvSnap } ⟨db.mv.curVer, []⟩ stmt.tableName.bytes = r
    at hc
  cases hc with
  | stale hf => exact absurd (by simp [Fresh]) hf
  | fault hl => exact .fault hl
  | missing hmiss hw =>
      obtain ⟨db', habort, hset⟩ := hb.abort
      simp only [bind, Except.bind, Option.bind_none, habort]
      refine .done ?_ hset
      unfold Ideal.write
      rw [hseen] at hmiss
      dsimp only
      rw [show db.abs.com stmt.tableName.bytes = none from hmiss]
  | @viewed i db₁ tx₁ hopen hp hext habs hv hnew =>
      rw [hseen] at habs
      have hfresh : db₁.Fresh tx₁ := fun it hit => (hnew it hit).resolve_left (by simp)
      have hb₁ : Begun db db₁ tx₁ ws db.abs.begin :=
        ⟨hwf, hlive, hopen, hp, habs, congrArg IdealTx.snapId habs⟩
      obtain ⟨it, e, base, hat⟩ := hv.itemAt hopen
      have hbase : db.abs.com stmt.tableName.bytes = some base := by
        have := hat.seen
        rw [habs] at this
        exact this
      have hown : (db₁.absTx tx₁).own stmt.tableName.bytes = base.tabClone := by
        rw [habs]
        change (db.abs.com stmt.tableName.bytes).bind TabVer.tabClone = _
        rw [hbase, Option.bind_some]
      simp only [bind, Except.bind, Option.bind_some, hat.item, Option.map_some]
      have hc := txMakeWork_spec hopen hat
      generalize db₁.txMakeWork tx₁ i it = r at hc
      cases hc with
      | oom hnone =>
          obtain ⟨db', habort, hset⟩ := hb₁.abort
          simp only [Bool.not_false, if_true, habort]
          refine .done ?_ hset
          unfold Ideal.write
          dsimp only
          rw [hbase]
          dsimp only
          rw [← hown, hnone]
      | @made db₂ tx₂ a tab hm =>
          have hclone : base.tabClone = some tab := hown.symm.trans hm.own
          obtain ⟨r, hrun⟩ := TabVer.tabClone_execStmt hclone stmt {}
          obtain ⟨db₃, abs, hexec, hb₃, hdone⟩ := hb₁.write hfresh hm hrun
          simp only [Bool.not_true, Bool.false_eq_true, if_false, hm.itemTab, hexec]
          have hideal : db.abs.write stmt = if r.2.2 then
              .ok (db.abs.install (db.abs.begin.put stmt.tableName.bytes r.1), r.2.1, true)
              else .ok (db.abs, r.2.1, false) := by
            unfold Ideal.write
            dsimp only
            rw [hbase]
            dsimp only
            rw [hclone]
            simp only [bind, Except.bind, hrun]
            rfl
          cases hok : r.2.2 with
          | true =>
              obtain ⟨rfl, hf⟩ := hdone hok
              obtain ⟨db', tx', hcommit, hset⟩ := hb₃.commit.resolve_left fun h => h.2 hf
              simp only [if_true, hcommit]
              refine .done ?_ hset
              rw [hideal, if_pos hok]
          | false =>
              obtain ⟨db', habort, hset⟩ := hb₃.abort
              have herr := execStmt_failed' hsel hrun hok
              simp only [Bool.false_eq_true, if_false, pure, Except.pure, habort, herr, if_true]
              refine .done ?_ hset
              rw [hideal, hok]
              rfl

/-- The tables a statement names can be loaded. -/
def SqlLoads (db : Db) (sql : Bytes) : Prop :=
  ∀ stmt, db.parseOk sql = .ok stmt → db.Loads stmt.tableName.bytes

/-- The table of a SELECT can be loaded; `do_read` refuses any other statement before it
looks a table up. -/
def ReadLoads (db : Db) (sql : Bytes) : Prop :=
  ∀ stmt, db.parseOk sql = .ok stmt → stmt.type = .select → db.Loads stmt.tableName.bytes

/-- **`db_exec`** is one abstract step. -/
theorem dbExec_spec (hwf : db.Wf ws) (hlive : db.Live) (sql : Bytes) :
    ExecCase db ws (db.SqlLoads sql) (db.abs.exec sql) (db.dbExec sql) := by
  unfold dbExec
  cases hparse : db.parseOk sql with
  | error err =>
      refine .done ?_ (Settled.refl hwf)
      unfold Ideal.exec
      rw [show parseSql db.abs.maxSql sql = .error err from hparse]
  | ok stmt =>
      unfold Ideal.exec
      rw [show parseSql db.abs.maxSql sql = .ok stmt from hparse]
      dsimp only
      by_cases hsel : stmt.type = .select
      · rw [if_pos hsel, if_pos hsel]
        simp only [dbSnap, Mvcc.snapId]
        have hb := Begun.start hwf hlive
        have hc := doRead_spec hb.ran.opened.txwf.wf hwf.curVer_pos hb.ran.opened.sees sql
        generalize Db.doRead { db with mv := db.mv.mvSnap } db.mv.curVer sql = r at hc
        cases hc with
        | fault hp _ hl => exact .fault fun hsafe => hl (hsafe _ hp)
        | @read db₁ res ok hwf₁ hp hread =>
            obtain ⟨hopen, habs⟩ := hb.ran.opened.private hwf₁ hp
            have hb₁ : Begun db db₁ ⟨db.mv.curVer, []⟩ ws db.abs.begin :=
              ⟨hwf, hlive, hopen, hp, habs.trans hb.ran.abs, rfl⟩
            obtain ⟨db', habort, hset⟩ := hb₁.abort
            have hdone : db₁.dbDone db.mv.curVer = .ok db' := habort
            simp only [bind, Except.bind, hdone]
            refine .done ?_ hset
            have hnow : Db.seen { db with mv := db.mv.mvSnap } db.mv.curVer = db.abs.com :=
              hwf.seen_now
            rw [hnow] at hread
            have hread' : db.abs.read db.abs.ver db.abs.com sql = .ok (res, ok) := hread
            simp only [hread']
            rfl
      · rw [if_neg hsel, if_neg hsel]
        have hc := execWrite_spec hwf hlive stmt hsel 5
        change ExecCase db ws _ _ (execWrite stmt (5 + 1) db {})
        generalize execWrite stmt (5 + 1) db {} = r at hc
        cases hc with
        | fault hl => exact .fault fun hsafe => hl (hsafe stmt hparse)
        | done h hs => exact .done h hs

/-! ## `db_batch` -/

/-- A statement of a transaction follows no dangling pointer and writes inside
the rows. -/
def TxdoSafe (db : Db) (tx : DbTx) (sql : Bytes) : Prop :=
  ∀ stmt, db.parseOk sql = .ok stmt →
    db.Fresh tx ∧ db.Loads stmt.tableName.bytes ∧
      (stmt.type = .insert → ∀ tab, (db.absTx tx).own stmt.tableName.bytes = some tab →
        ¬ tab.Overruns)

/-- Every statement of a batch is safe where it starts, and so is its commit. -/
def BatchSafe : Db → DbTx → List Bytes → Prop
  | db, tx, [] => db.FreshDirty tx
  | db, tx, sql :: sqls => db.TxdoSafe tx sql ∧
    ∀ r, db.dbTxdo tx sql = .ok r → r.2.2.2 = true → BatchSafe r.1 r.2.1 sqls

instance (db : Db) (sql : Bytes) : Decidable (db.SqlLoads sql) :=
  inferInstanceAs (Decidable (∀ stmt, _ = Except.ok stmt → _))

instance (db : Db) (sql : Bytes) : Decidable (db.ReadLoads sql) :=
  inferInstanceAs (Decidable (∀ stmt, _ = Except.ok stmt → _ → _))

instance (db : Db) (tx : DbTx) (sql : Bytes) : Decidable (db.TxdoSafe tx sql) :=
  inferInstanceAs (Decidable (∀ stmt, _ = Except.ok stmt →
    _ ∧ _ ∧ (_ → ∀ tab : TabVer, _ = some tab → ¬ tab.Overruns)))

instance decidableBatchSafe : (db : Db) → (tx : DbTx) → (sqls : List Bytes) →
    Decidable (BatchSafe db tx sqls)
  | db, tx, [] => inferInstanceAs (Decidable (db.FreshDirty tx))
  | db, tx, sql :: sqls =>
    have : ∀ r : Db × DbTx × DbRes × Bool, Decidable (BatchSafe r.1 r.2.1 sqls) :=
      fun r => decidableBatchSafe r.1 r.2.1 sqls
    inferInstanceAs (Decidable (db.TxdoSafe tx sql ∧
      ∀ r, db.dbTxdo tx sql = .ok r → r.2.2.2 = true → BatchSafe r.1 r.2.1 sqls))

theorem IdealTx.run_error {abs : IdealTx} {stmt : Statement} {f : Fault}
    (h : abs.run stmt = .error f) : stmt.type = .insert ∧
      ∃ tab, abs.own stmt.tableName.bytes = some tab ∧ tab.Overruns := by
  unfold IdealTx.run at h
  dsimp only at h
  have key : ∀ {tab : TabVer} {g : Fault}, runOn tab stmt abs.snapId = .error g →
      stmt.type = .insert ∧ tab.Overruns := by
    intro tab g hrun
    obtain ⟨htype, hover, -⟩ := TabVer.execStmt_error_iff.1 hrun
    exact ⟨htype, hover⟩
  split at h
  · split at h
    · cases h
    · rename_i tab hown
      cases hrun : runOn tab stmt abs.snapId with
      | ok r =>
          simp only [bind, Except.bind, hrun] at h
          cases h
      | error g => exact ⟨(key hrun).1, tab, hown, (key hrun).2⟩
  · rename_i hwr
    split at h
    · cases h
    · rename_i tab hview
      cases hrun : runOn tab stmt abs.snapId with
      | ok r =>
          simp only [bind, Except.bind, hrun] at h
          cases h
      | error g =>
          refine absurd ?_ hwr
          simp [Statement.isWr, (key hrun).1]

theorem dbTxdo_error {sql : Bytes} (h : OpenTx db tx others) {f : Fault}
    (hrun : db.dbTxdo tx sql = .error f) : ¬ db.TxdoSafe tx sql := by
  have hc := dbTxdo_spec h sql
  rw [hrun] at hc
  cases hc with
  | stale hp hf => exact fun hs => hf (hs _ hp).1
  | fault hp hl => exact fun hs => hl (hs _ hp).2.1
  | simulates hsim =>
      intro hs
      generalize hi : (db.absTx tx).txdo db.maxSql sql = r at hsim
      cases hsim
      unfold IdealTx.txdo at hi
      cases hparse : parseSql db.maxSql sql with
      | error err =>
          rw [hparse] at hi
          cases hi
      | ok stmt =>
          rw [hparse] at hi
          obtain ⟨htype, tab, hown, hover⟩ := IdealTx.run_error hi
          exact (hs stmt hparse).2.2 htype tab hown hover

theorem dbTxdo_ok {sql : Bytes} {res : DbRes} {ok : Bool} (h : OpenTx db tx others)
    (hrun : db.dbTxdo tx sql = .ok (db', tx', res, ok)) :
    ∃ abs, (db.absTx tx).txdo db.maxSql sql = .ok (abs, res, ok) ∧
      Ran db db' tx others abs tx' := by
  have hc := dbTxdo_spec h sql
  rw [hrun] at hc
  cases hc with
  | simulates hsim =>
      generalize (db.absTx tx).txdo db.maxSql sql = r at hsim
      cases hsim with
      | ran hran => exact ⟨_, rfl, hran⟩

inductive BatchCase (db : Db) (ws : List Nat) (db₁ : Db) (tx₁ : DbTx) (sqls : List Bytes)
    (ideal : Except Fault (IdealTx × List DbRes × Bool)) :
    Except Fault (Db × DbTx × List DbRes × Bool) → Prop
  | fault {f : Fault} (h : ¬ BatchSafe db₁ tx₁ sqls) :
      BatchCase db ws db₁ tx₁ sqls ideal (.error f)
  | ran {db₂ : Db} {tx₂ : DbTx} {abs : IdealTx} {out : List DbRes} {ok : Bool}
      (hi : ideal = .ok (abs, out, ok)) (hb : Begun db db₂ tx₂ ws abs)
      (hf : BatchSafe db₁ tx₁ sqls → ok = true → db₂.FreshDirty tx₂) :
      BatchCase db ws db₁ tx₁ sqls ideal (.ok (db₂, tx₂, out, ok))

theorem batchLoop_spec : ∀ (sqls : List Bytes) {db₁ : Db} {tx₁ : DbTx} {abs : IdealTx},
    Begun db db₁ tx₁ ws abs →
      BatchCase db ws db₁ tx₁ sqls (Ideal.batchLoop db.maxSql abs sqls) (batchLoop db₁ tx₁ sqls)
  | [], db₁, tx₁, abs, hb => .ran rfl hb fun h _ => h
  | sql :: sqls, db₁, tx₁, abs, hb => by
      have hmax : db₁.maxSql = db.maxSql := hb.ran.priv.maxSql
      rw [batchLoop, Ideal.batchLoop]
      cases hrun : db₁.dbTxdo tx₁ sql with
      | error f => exact .fault fun hs => dbTxdo_error hb.ran.opened hrun hs.1
      | ok r =>
          obtain ⟨db₂, tx₂, res, ok⟩ := r
          obtain ⟨abs₂, hi, hran⟩ := dbTxdo_ok hb.ran.opened hrun
          rw [hb.ran.abs, hmax] at hi
          have hb₂ : Begun db db₂ tx₂ ws abs₂ :=
            ⟨hb.wf, hb.live, hran.after hb.ran.priv hb.ran.snapId⟩
          simp only [bind, Except.bind, hi]
          cases ok with
          | false =>
              refine .ran rfl hb₂ ?_
              intro _ hok
              cases hok
          | true =>
              have hc := batchLoop_spec sqls hb₂
              simp only [if_true]
              generalize batchLoop db₂ tx₂ sqls = r at hc
              generalize Ideal.batchLoop db.maxSql abs₂ sqls = r' at hc
              cases hc with
              | fault hs => exact .fault fun h => hs (h.2 _ hrun rfl)
              | ran hi hb hf =>
                  subst hi
                  exact .ran rfl hb fun h => hf (h.2 _ hrun rfl)

/-- Every statement of a batch can load its table when its turn comes. -/
def EachSafe : Db → List Bytes → Prop
  | _, [] => True
  | db, sql :: sqls => db.SqlLoads sql ∧
    ∀ r, db.dbExec sql = .ok r → EachSafe r.1 sqls

def BatchCallSafe (db : Db) (sqls : List Bytes) (tx : Bool) : Prop :=
  if sqls = [] ∨ db.maxQry < sqls.length then True
  else if tx then BatchSafe { db with mv := db.mv.mvSnap } ⟨db.mv.curVer, []⟩ sqls
  else db.EachSafe sqls

instance decidableEachSafe : (db : Db) → (sqls : List Bytes) → Decidable (EachSafe db sqls)
  | _, [] => isTrue trivial
  | db, sql :: sqls =>
    have : ∀ r : Db × DbRes × Bool, Decidable (EachSafe r.1 sqls) :=
      fun r => decidableEachSafe r.1 sqls
    inferInstanceAs (Decidable (db.SqlLoads sql ∧ ∀ r, db.dbExec sql = .ok r → EachSafe r.1 sqls))

instance (db : Db) (sqls : List Bytes) (tx : Bool) : Decidable (db.BatchCallSafe sqls tx) :=
  inferInstanceAs (Decidable (if sqls = [] ∨ db.maxQry < sqls.length then True
    else if tx then BatchSafe { db with mv := db.mv.mvSnap } ⟨db.mv.curVer, []⟩ sqls
    else db.EachSafe sqls))

inductive BatchCallCase (db : Db) (ws : List Nat) (safe : Prop)
    (ideal : Except Fault (Ideal × List DbRes × Bool)) :
    Except Fault (Db × List DbRes × Bool) → Prop
  | fault {f : Fault} (h : ¬ safe) : BatchCallCase db ws safe ideal (.error f)
  | done {db' : Db} {d : Ideal} {out : List DbRes} {ok : Bool} (hi : ideal = .ok (d, out, ok))
      (hs : Settled db db' ws d) : BatchCallCase db ws safe ideal (.ok (db', out, ok))

theorem batchEach_spec : ∀ (sqls : List Bytes) {db : Db}, db.Wf ws → db.Live →
    (∃ f, batchEach db sqls = .error f ∧ ¬ db.EachSafe sqls) ∨
      ∃ db' d out, batchEach db sqls = .ok (db', out) ∧
        db.abs.batchEach sqls = .ok (d, out) ∧ Settled db db' ws d
  | [], db, hwf, _ => Or.inr ⟨db, db.abs, [], rfl, rfl, Settled.refl hwf⟩
  | sql :: sqls, db, hwf, hlive => by
      rw [batchEach, Ideal.batchEach]
      have hc := dbExec_spec hwf hlive sql
      cases hrun : db.dbExec sql with
      | error f =>
          rw [hrun] at hc
          cases hc with
          | fault hl => exact Or.inl ⟨_, rfl, fun h => hl h.1⟩
      | ok r =>
          obtain ⟨db₁, res, ok⟩ := r
          rw [hrun] at hc
          cases hc with
          | @done _ d _ _ hi hs =>
              simp only [bind, Except.bind, hi]
              rcases batchEach_spec sqls hs.wf (hs.live hlive) with
                ⟨f, hf, hsafe⟩ | ⟨db', d', out, hrest, hi', hs'⟩
              · rw [hf]
                exact Or.inl ⟨f, rfl, fun h => hsafe (h.2 _ hrun)⟩
              · rw [hs.abs] at hi'
                rw [hrest, hi']
                exact Or.inr ⟨db', d', _, rfl, rfl, hs.trans hs'⟩

/-- **`db_batch`** is one abstract step. -/
theorem dbBatch_spec (hwf : db.Wf ws) (hlive : db.Live) (sqls : List Bytes) (tx : Bool) :
    BatchCallCase db ws (db.BatchCallSafe sqls tx) (db.abs.batch sqls tx)
      (db.dbBatch sqls tx) := by
  unfold dbBatch dbBatchTx Ideal.batch BatchCallSafe
  by_cases hnil : sqls = []
  · simp only [hnil, if_true, ite_self]
    exact .done rfl (Settled.refl hwf)
  · by_cases hlong : db.maxQry < sqls.length
    · have hlong' : db.abs.maxQry < sqls.length := hlong
      simp only [hnil, if_false, hlong, hlong', if_true, ite_self]
      exact .done rfl (Settled.refl hwf)
    · have hlong' : ¬ db.abs.maxQry < sqls.length := hlong
      simp only [hnil, hlong, hlong', or_self, if_false]
      cases tx with
      | true =>
          simp only [if_true, dbBegin, Mvcc.snapId]
          have hc := batchLoop_spec sqls (Begun.start hwf hlive)
          rw [show Ideal.batchLoop db.abs.maxSql = Ideal.batchLoop db.maxSql from rfl]
          generalize batchLoop { db with mv := db.mv.mvSnap } ⟨db.mv.curVer, []⟩ sqls = r at hc
          generalize Ideal.batchLoop db.maxSql db.abs.begin sqls = r' at hc
          cases hc with
          | fault hs => exact .fault hs
          | @ran db₂ tx₂ abs out ok hi hb hf =>
              subst hi
              simp only [bind, Except.bind]
              cases ok with
              | false =>
                  obtain ⟨db', habort, hset⟩ := hb.abort
                  simp only [Bool.not_false, if_true, habort]
                  exact .done rfl hset
              | true =>
                  simp only [Bool.not_true, Bool.false_eq_true, if_false]
                  rcases hb.commit with ⟨hstale, hnf⟩ | ⟨db', tx', hcommit, hset⟩
                  · rw [hstale]
                    exact .fault fun hs => hnf (hf hs rfl)
                  · rw [hcommit]
                    exact .done rfl hset
      | false =>
          simp only [Bool.false_eq_true, if_false]
          rcases batchEach_spec sqls hwf hlive with ⟨f, hf, hsafe⟩ | ⟨db', d, out, hrun, hi, hs⟩
          · rw [hf]
            exact .fault hsafe
          · rw [hrun, hi]
            exact .done rfl hs

end Db

end MiniDbms
