import MiniDbms.Db.World

/-!
# Failed commits

`db_commit` installs the head of a table before it saves the table.  A conflict is
found before anything is installed, but a failed save comes too late.
-/

namespace MiniDbms

namespace Db

variable {db db' : Db} {others : List Nat} {tx : DbTx} {snap ver : Nat} {it : TxTab}
  {items : List TxTab}

/-! ## Any choice of failing saves -/

theorem tabSave_frame (db : Db) (tab : TabVer) (io : SaveIo) :
    ∃ files, db.tabSave tab io = ({ db with files := files }, decide (io = .ok)) := by
  cases io with
  | ok => exact ⟨_, rfl⟩
  | openFails => exact ⟨db.files, rfl⟩
  | closeFails => exact ⟨db.files, rfl⟩
  | renameFails => exact ⟨db.files, rfl⟩

theorem Installing.commitInstall (h : Installing db snap (it :: items) others ver)
    (hd : it.dirty = true) (io : SaveIo) :
    ∃ db₁ it₁ a, db.commitInstall it ver io = .ok (db₁, it₁, decide (io = .ok)) ∧
      Installing db₁ snap items others ver ∧
      db₁.headAddr it.ent.idx = some a ∧ db.headAddr it.ent.idx ≠ some a ∧
      ∀ j, j ≠ it.ent.idx → db₁.tabs[j]? = db.tabs[j]? := by
  obtain ⟨a, e, tab, hw, hent, hr⟩ := h.ready hd
  obtain ⟨hnext, -, -⟩ := h.publish hr hw
  have hver : db.ver a = .ok tab := by simp [Db.ver, hr.work]
  obtain ⟨files, hsave⟩ := tabSave_frame (db.publish it.ent.idx a e tab ver)
    { tab with verId := ver } io
  have hrun : db.commitInstall it ver io =
      .ok ({ db.publish it.ent.idx a e tab ver with files := files },
        if decide (io = .ok) then { it with work := none } else it, decide (io = .ok)) := by
    unfold Db.commitInstall
    simp only [hw, bind, Except.bind, hver, hent]
    split
    · rename_i db' heq
      obtain ⟨rfl, hok⟩ := Prod.mk.inj (heq.symm.trans hsave)
      rw [← hok]
      rfl
    · rename_i db' heq
      obtain ⟨rfl, hok⟩ := Prod.mk.inj (heq.symm.trans hsave)
      rw [← hok]
      rfl
  refine ⟨_, _, a, hrun, hnext.with_files _, ?_, ?_, ?_⟩
  · unfold headAddr
    change ((db.publish it.ent.idx a e tab ver).tabs[it.ent.idx]?).bind _ = _
    rw [hr.ent_self]
    rfl
  · intro hold
    unfold headAddr at hold
    rw [hr.ent, Option.bind_some] at hold
    have hmem : a ∈ db.chains := mem_chains.2 ⟨e, hr.mem, List.mem_of_mem_head? hold⟩
    exact hr.not_mem_chains (List.mem_append_left _ hmem)
  · intro j hj
    change (db.publish it.ent.idx a e tab ver).tabs[j]? = _
    exact publish_ent_other hj

theorem commitLoop_total (io : Nat → SaveIo) : ∀ (items : List TxTab) (db : Db) (i : Nat),
    Installing db snap items others ver →
      ∃ db' items' ok, commitLoop ver io i db items = .ok (db', items', ok) ∧
        (ok = true → ∀ j it, items[j]? = some it → it.dirty = true → io (i + j) = .ok) ∧
        (∀ j, (∀ x ∈ items, x.ent.idx ≠ j) → db'.tabs[j]? = db.tabs[j]?) ∧
        ((∃ it ∈ items, it.dirty = true) → ∃ k, db'.headAddr k ≠ db.headAddr k)
  | [], db, i, h => ⟨db, [], true, rfl, by simp, fun _ _ => rfl, by simp⟩
  | it :: items, db, i, h => by
      rw [commitLoop]
      cases hd : it.dirty with
      | false =>
          obtain ⟨db', items', ok, hrun, hio, hframe, hhead⟩ :=
            commitLoop_total io items db (i + 1) (h.skip hd).1
          simp only [Bool.false_eq_true, if_false, bind, Except.bind, hrun]
          refine ⟨db', it :: items', ok, rfl, ?_, ?_, ?_⟩
          · intro hok j x hx hxd
            cases j with
            | zero =>
                cases hx
                rw [hd] at hxd
                cases hxd
            | succ j =>
                have := hio hok j x (by simpa using hx) hxd
                rwa [Nat.add_assoc, Nat.add_comm 1 j] at this
          · exact fun j hj => hframe j fun x hx => hj x (List.mem_cons_of_mem _ hx)
          · rintro ⟨x, hx, hxd⟩
            rcases List.mem_cons.1 hx with rfl | hx
            · rw [hd] at hxd
              cases hxd
            · exact hhead ⟨x, hx, hxd⟩
      | true =>
          obtain ⟨db₁, it₁, a, hone, hnext, hhead₁, hhead₀, hframe₁⟩ := h.commitInstall hd (io i)
          simp only [if_true, bind, Except.bind, hone]
          cases hio₀ : decide (io i = .ok) with
          | false =>
              refine ⟨db₁, it₁ :: items, false, rfl, by simp, ?_, ?_⟩
              · exact fun j hj => hframe₁ j (Ne.symm (hj it List.mem_cons_self))
              · exact fun _ => ⟨it.ent.idx, by rw [hhead₁]; exact Ne.symm hhead₀⟩
          | true =>
              obtain ⟨db', items', ok, hrun, hio, hframe, -⟩ :=
                commitLoop_total io items db₁ (i + 1) hnext
              simp only [if_true, hrun]
              refine ⟨db', it₁ :: items', ok, rfl, ?_, ?_, ?_⟩
              · intro hok j x hx hxd
                cases j with
                | zero => simpa using hio₀
                | succ j =>
                    have := hio hok j x (by simpa using hx) hxd
                    rwa [Nat.add_assoc, Nat.add_comm 1 j] at this
              · intro j hj
                rw [hframe j fun x hx => hj x (List.mem_cons_of_mem _ hx)]
                exact hframe₁ j (Ne.symm (hj it List.mem_cons_self))
              · -- the other tables of the commit leave this head alone
                intro _
                refine ⟨it.ent.idx, ?_⟩
                have hnd := h.txwf.ok.nodup
                rw [List.map_cons] at hnd
                have hother : ∀ x ∈ items, x.ent.idx ≠ it.ent.idx := by
                  intro x hx heq
                  refine (List.nodup_cons.1 hnd).1 ?_
                  rw [← heq]
                  exact List.mem_map_of_mem hx
                have hsame : db'.headAddr it.ent.idx = db₁.headAddr it.ent.idx := by
                  unfold headAddr
                  rw [hframe _ hother]
                rw [hsame, hhead₁]
                exact Ne.symm hhead₀

theorem commitLoop_congr {io io' : Nat → SaveIo} : ∀ (items : List TxTab) (db : Db) (i : Nat),
    (∀ j it, items[j]? = some it → it.dirty = true → io (i + j) = io' (i + j)) →
      commitLoop ver io i db items = commitLoop ver io' i db items
  | [], _, _, _ => rfl
  | it :: items, db, i, h => by
      have hrest : ∀ j x, items[j]? = some x → x.dirty = true →
          io (i + 1 + j) = io' (i + 1 + j) := by
        intro j x hx hd
        have := h (j + 1) x (by simpa using hx) hd
        rwa [← Nat.add_assoc, Nat.add_right_comm] at this
      rw [commitLoop, commitLoop]
      cases hd : it.dirty with
      | false =>
          simp only [Bool.false_eq_true, if_false]
          rw [commitLoop_congr items db (i + 1) hrest]
      | true =>
          have h₀ : io i = io' i := h 0 it rfl hd
          simp only [if_true, h₀, bind, Except.bind]
          cases hone : db.commitInstall it ver (io' i) with
          | error f => rfl
          | ok r =>
              obtain ⟨db₁, it₁, ok⟩ := r
              dsimp only
              rw [commitLoop_congr items db₁ (i + 1) hrest]

/-! ## The conflict test -/

theorem commitCheck_append {A : List TxTab} (hok : ∀ x ∈ A, x.dirty = true →
      ∃ e, db.tabs[x.ent.idx]? = some e) (hcur : ∀ x ∈ A, x.dirty = true → db.Current x)
    (B : List TxTab) : db.commitCheck (A ++ B) = db.commitCheck B := by
  induction A with
  | nil => rfl
  | cons x A ih =>
      have ih := ih (fun y hy => hok y (List.mem_cons_of_mem _ hy))
        fun y hy => hcur y (List.mem_cons_of_mem _ hy)
      rw [List.cons_append, commitCheck]
      cases hd : x.dirty with
      | false =>
          simp only [Bool.false_eq_true, if_false]
          exact ih
      | true =>
          obtain ⟨e, he⟩ := hok x List.mem_cons_self hd
          obtain ⟨hgen, hhead⟩ := hcur x List.mem_cons_self hd
          have hhead' : e.chain.head? = some x.base := by
            unfold headAddr at hhead
            rwa [he] at hhead
          simp only [if_true, bind, Except.bind, entAt_fresh hgen he, hhead']
          exact ih

/-- A newer head is found before anything is done. -/
def ConflictFirst (db : Db) (tx : DbTx) : Prop :=
  ∃ A it B, tx.tabs = A ++ it :: B ∧ it.dirty = true ∧ db.Outdated it ∧
    ∀ x ∈ A, x.dirty = true → db.Current x

/-- Every changed table still has its base as head, and can be saved. -/
def SavesAll (db : Db) (tx : DbTx) (io : Nat → SaveIo) : Prop :=
  ∀ i it, tx.tabs[i]? = some it → it.dirty = true → db.Current it ∧ io i = .ok

theorem OpenTx.conflictFirst_iff (h : OpenTx db tx others) :
    db.ConflictFirst tx ↔ db.commitCheck tx.tabs = .ok false := by
  constructor
  · rintro ⟨A, it, B, htabs, hd, ⟨hgen, hout⟩, hcur⟩
    have hent : ∀ x ∈ tx.tabs, ∃ e, db.tabs[x.ent.idx]? = some e := by
      intro x hx
      obtain ⟨e, he, -⟩ := h.txwf.ok.ents x hx
      exact ⟨e, he⟩
    rw [htabs] at hent
    rw [htabs, commitCheck_append (fun x hx _ => hent x (List.mem_append_left _ hx)) hcur,
      commitCheck]
    obtain ⟨e, he⟩ := hent it (List.mem_append_right _ List.mem_cons_self)
    have hne : e.chain.head? ≠ some it.base := by
      unfold headAddr at hout
      rwa [he] at hout
    simp only [hd, if_true, bind, Except.bind, entAt_fresh hgen he, hne, if_false]
    rfl
  · intro hcheck
    rcases commitCheck_cases db tx.tabs with ⟨hc, -⟩ | ⟨-, A, it, B, htabs, hd, hout, hcur⟩ | ⟨hc, -⟩
    · rw [hcheck] at hc
      cases hc
    · exact ⟨A, it, B, htabs, hd, hout, hcur⟩
    · rw [hcheck] at hc
      cases hc

theorem OpenTx.commitCheck_true (h : OpenTx db tx others)
    (hcur : ∀ it ∈ tx.tabs, it.dirty = true → db.Current it) :
    db.commitCheck tx.tabs = .ok true := by
  have hent : ∀ x ∈ tx.tabs, x.dirty = true → ∃ e, db.tabs[x.ent.idx]? = some e := by
    intro x hx _
    obtain ⟨e, he, -⟩ := h.txwf.ok.ents x hx
    exact ⟨e, he⟩
  have happ := commitCheck_append hent hcur []
  rwa [List.append_nil] at happ

/-! ## No effect -/

/-- The commit returns, and if it reports a failure then nothing has changed for
anybody and the abort that follows leaves every chain alive. -/
def FailsClean (db : Db) (tx : DbTx) (io : Nat → SaveIo) : Prop :=
  ∃ db' tx' ok, db.dbCommit tx io = .ok (db', tx', ok) ∧ (ok = false →
    (∀ k, db'.headAddr k = db.headAddr k) ∧ db'.files = db.files ∧ db'.com = db.com ∧
    (∀ s, db'.seen s = db.seen s) ∧
    ∃ db'', db'.dbAbort tx' = .ok db'' ∧
      ∀ e ∈ db''.tabs, ∀ a ∈ e.chain, ∃ t, db''.heap.get a = some t)

theorem OpenTx.dbCommit_conflict (h : OpenTx db tx others) (hlive : db.Live) {io : Nat → SaveIo}
    (hcheck : db.commitCheck tx.tabs = .ok false) : db.FailsClean tx io := by
  refine ⟨db, tx, false, ?_, fun _ => ⟨fun _ => rfl, rfl, rfl, fun _ => rfl, ?_⟩⟩
  · unfold dbCommit commitSection
    simp only [bind, Except.bind, hcheck]
    rfl
  · obtain ⟨db', hrun, hr⟩ := dbAbort_spec h.txwf fun s hs => (hlive s hs).1
    refine ⟨db', hrun, ?_⟩
    intro e he a ha
    obtain ⟨t, ht, -⟩ := (hr.wf.chain e he).live a ha
    exact ⟨t, ht⟩

theorem OpenTx.dbCommit_saved (h : OpenTx db tx others) (hlive : db.Live) {io : Nat → SaveIo}
    (hs : db.SavesAll tx io) : db.FailsClean tx io := by
  have hcur : ∀ it ∈ tx.tabs, it.dirty = true → db.Current it := by
    intro it hit hd
    obtain ⟨i, hi⟩ := List.mem_iff_getElem?.1 hit
    exact (hs i it hi hd).1
  have hio : ∀ j it, tx.tabs[j]? = some it → it.dirty = true → io (0 + j) = saveOk (0 + j) := by
    intro j it hj hd
    rw [Nat.zero_add]
    exact (hs j it hj hd).2
  have heq : db.dbCommit tx io = db.dbCommit tx saveOk := by
    unfold dbCommit commitSection
    simp only [bind, Except.bind, h.commitCheck_true hcur, if_true]
    rw [commitLoop_congr tx.tabs { db with mv := db.mv.mvBump } 0 hio]
  have hc := dbCommit_spec h hlive
  rw [← heq] at hc
  generalize hr : db.dbCommit tx io = r at hc
  cases hc with
  | stale hf => exact absurd (fun it hit hd => (hcur it hit hd).1) hf
  | conflict hcon => exact absurd hcon (h.no_conflict hcur)
  | done hno hd => exact ⟨_, _, true, hr, by simp⟩

theorem OpenTx.dbCommit_unsaved (h : OpenTx db tx others) {io : Nat → SaveIo}
    (hcur : ∀ it ∈ tx.tabs, it.dirty = true → db.Current it) (hs : ¬ db.SavesAll tx io) :
    ¬ db.FailsClean tx io := by
  obtain ⟨i, it, hi, hd, hio⟩ : ∃ i it, tx.tabs[i]? = some it ∧ it.dirty = true ∧ io i ≠ .ok := by
    by_contra hno
    refine hs fun i it hi hd => ⟨hcur it (List.mem_of_getElem? hi) hd, ?_⟩
    by_contra hbad
    exact hno ⟨i, it, hi, hd, hbad⟩
  obtain ⟨db', items, ok, hrun, hall, -, hhead⟩ :=
    commitLoop_total io tx.tabs _ 0 (Installing.start h.txwf hcur)
  have hok : ok = false := by
    cases ok with
    | false => rfl
    | true =>
        have := hall rfl i it hi hd
        rw [Nat.zero_add] at this
        exact absurd this hio
  subst hok
  have hcommit : db.dbCommit tx io = .ok (db', ⟨tx.snapId, items⟩, false) := by
    unfold dbCommit commitSection
    simp only [bind, Except.bind, h.commitCheck_true hcur, if_true]
    rw [show ({ db with mv := db.mv.mvBump } : Db).mv.curVer = db.mv.curVer + 1 from rfl, hrun]
    rfl
  rintro ⟨db'', tx'', ok, hrun', hclean⟩
  rw [hcommit] at hrun'
  cases hrun'
  obtain ⟨k, hk⟩ := hhead ⟨it, List.mem_of_getElem? hi, hd⟩
  exact hk ((hclean rfl).1 k)

/-- A commit fails cleanly exactly when a conflict stops it or every save succeeds. -/
theorem OpenTx.failsClean_iff (h : OpenTx db tx others) (hlive : db.Live) (io : Nat → SaveIo) :
    db.FailsClean tx io ↔ db.ConflictFirst tx ∨ db.SavesAll tx io := by
  rcases commitCheck_cases db tx.tabs with ⟨hcheck, hcur⟩ | ⟨hcheck, -⟩ | ⟨hcheck, -⟩
  · have hno : ¬ db.ConflictFirst tx := by
      rw [h.conflictFirst_iff, hcheck]
      simp
    constructor
    · intro hclean
      by_contra hs
      exact h.dbCommit_unsaved hcur (fun hall => hs (Or.inr hall)) hclean
    · exact fun hs => h.dbCommit_saved hlive (hs.resolve_left hno)
  · exact ⟨fun _ => Or.inl (h.conflictFirst_iff.2 hcheck), fun _ => h.dbCommit_conflict hlive hcheck⟩
  · constructor
    · rintro ⟨db', tx', ok, hrun, -⟩
      unfold dbCommit commitSection at hrun
      simp only [bind, Except.bind, hcheck] at hrun
      cases hrun
    · rintro (hc | hs)
      · rw [h.conflictFirst_iff, hcheck] at hc
        cases hc
      · have hcur : ∀ it ∈ tx.tabs, it.dirty = true → db.Current it := by
          intro it hit hd
          obtain ⟨i, hi⟩ := List.mem_iff_getElem?.1 hit
          exact (hs i it hi hd).1
        rw [h.commitCheck_true hcur] at hcheck
        cases hcheck

end Db

namespace World

variable {files : Bytes → Option Bytes} {maxSql maxQry : Int} {calls : List Call} {w : World}
  {outs : List Out} {h : Nat} {tx : DbTx}

theorem openTx_of_run (hrun : (init files maxSql maxQry).run calls = .ok (w, outs))
    (ht : w.tx? h = some tx) : ∃ others, w.db.OpenTx tx others ∧ w.db.Live := by
  obtain ⟨-, hinv⟩ := (init_inv files maxSql maxQry).run_ok calls hrun
  obtain ⟨A, B, htxs, -, -⟩ := split_at (tx?_some ht)
  exact ⟨_, hinv.openTx htxs, hinv.live⟩

/-- **Failed commits.**  Whatever saves fail, the commit of an open transaction has no
effect when it fails exactly if a conflict comes first or no save of a changed table
fails. -/
theorem failed_commit_clean_iff (hrun : (init files maxSql maxQry).run calls = .ok (w, outs))
    (ht : w.tx? h = some tx) (io : Nat → Db.SaveIo) :
    w.db.FailsClean tx io ↔ w.db.ConflictFirst tx ∨ w.db.SavesAll tx io := by
  obtain ⟨others, hopen, hlive⟩ := openTx_of_run hrun ht
  exact hopen.failsClean_iff hlive io

/-- One dirty table whose file cannot be renamed into place. -/
theorem failed_commit_clean_one_insert : ∃ w outs tx,
    (init (fun _ => some (str "id(PK),v\n1,a\n")) 0 8).run
      [.begin, .txdo 0 (str "INSERT INTO t VALUES (2,b)")] = .ok (w, outs) ∧
    w.tx? 0 = some tx ∧
    (w.db.FailsClean tx (fun _ => .renameFails) ↔
      w.db.ConflictFirst tx ∨ w.db.SavesAll tx fun _ => .renameFails) := by
  obtain ⟨w, outs, hrun, htest⟩ : ∃ w outs,
      (init (fun _ => some (str "id(PK),v\n1,a\n")) 0 8).run
        [.begin, .txdo 0 (str "INSERT INTO t VALUES (2,b)")] = .ok (w, outs) ∧
      (w.tx? 0).isSome = true := exists_of_reaches (by decide +kernel)
  obtain ⟨tx, ht⟩ := Option.isSome_iff_exists.1 htest
  exact ⟨w, outs, tx, hrun, ht, failed_commit_clean_iff hrun ht _⟩

/-- A commit that fails at the rename has moved the head of the first table. -/
def movesHead (w : World) (tx : DbTx) : Bool :=
  match w.db.dbCommit tx fun _ => .renameFails with
  | .ok (db', _, false) => db'.headAddr 0 != w.db.headAddr 0
  | _ => false

/-- The INSERT stays the head of its table although the commit reported a failure. -/
theorem failed_commit_leaves_head : ∃ w outs tx,
    (init (fun _ => some (str "id(PK),v\n1,a\n")) 0 8).run
      [.begin, .txdo 0 (str "INSERT INTO t VALUES (2,b)")] = .ok (w, outs) ∧
    w.tx? 0 = some tx ∧ ¬ w.db.FailsClean tx fun _ => .renameFails := by
  obtain ⟨w, outs, hrun, htest⟩ : ∃ w outs,
      (init (fun _ => some (str "id(PK),v\n1,a\n")) 0 8).run
        [.begin, .txdo 0 (str "INSERT INTO t VALUES (2,b)")] = .ok (w, outs) ∧
      ((w.tx? 0).any w.movesHead) = true := exists_of_reaches (by decide +kernel)
  obtain ⟨tx, ht, htest⟩ := (Option.any_eq_true _ _).1 htest
  refine ⟨w, outs, tx, hrun, ht, ?_⟩
  rintro ⟨db', tx', ok, hcommit, hclean⟩
  unfold movesHead at htest
  rw [hcommit] at htest
  cases ok with
  | true => cases htest
  | false =>
      dsimp only at htest
      rw [(hclean rfl).1 0] at htest
      simp at htest

end World

end MiniDbms
