import MiniDbms.Conc.Machine
import MiniDbms.Db.Effect
import MiniDbms.Db.World

/-!
# The attempts of `db_exec`

A write statement of `db_exec` is run on a fresh copy of the newest version until its
commit meets no conflict, six times at most.  All attempts share one result, and
`exec_stmt` assigns some of its fields and adds to others.
-/

namespace MiniDbms

open Bptree

/-- What other transactions make of one attempt: the version `tx_view` finds, and
whether somebody commits the table before the attempt does. -/
structure Attempt where
  base : Option TabVer
  conflict : Bool

/-- The loop of `db_exec`: the result, and for the return value 0 the version the
statement started from with the one it committed. -/
def execAttempts (stmt : Statement) :
    List Attempt → DbRes → Except Fault (DbRes × Option (TabVer × TabVer))
  | [], res => .ok (res.fail .txAbort "write conflict after retries", none)
  | attempt :: rest, res =>
    match attempt.base with
    | none => .ok (res.fail .badSql "unknown table", none)
    | some base =>
      match base.tabClone with
      | none => .ok (res.fail .oom "out of memory", none)
      | some work => do
        let (work, res, ok) ← work.execStmt stmt res
        if ok ∧ attempt.conflict = false then return (res, some (base, work))
        else if res.err.isSome then return (res, none)
        else execAttempts stmt rest res

/-- `db_exec` on a write statement, amid the others. -/
def execAmid (stmt : Statement) (attempts : Nat → Attempt) :
    Except Fault (DbRes × Option (TabVer × TabVer)) :=
  execAttempts stmt ((List.range Db.writeAttempts).map attempts) {}

/-- The new version holds at position `i` the row that the UPDATE makes of a row it matches. -/
def rewrittenAt (stmt : Statement) (base new : TabVer) (i : Nat) : Bool :=
  match base.rows[i]?, base.colIdx stmt.setCol.bytes with
  | some row, some setIdx =>
    base.rowMatch stmt row && new.rows[i]? == some (row.set setIdx (normV 256 stmt.setVal.bytes))
  | _, _ => false

/-- The rows the committed version has on top of its base, has rewritten, or has lost. -/
def rowsAffected (stmt : Statement) (base new : TabVer) : Nat :=
  match stmt.type with
  | .insert => new.rows.length - base.rows.length
  | .update => (List.range base.rows.length).countP (rewrittenAt stmt base new)
  | .delete => base.rows.length - new.rows.length
  | _ => 0

/-- The result tells what the committed version did: how many rows, and for an INSERT the id in
the PK cell of the new row, under which its PK tree files the row as well. -/
structure Reports (stmt : Statement) (base new : TabVer) (res : DbRes) : Prop where
  count : res.count = rowsAffected stmt base new
  lastId : stmt.type = .insert → ∀ p, base.pkIdx = some p →
    ∃ row, new.rows[base.rows.length]? = some row ∧ parseL (cell row p) = some res.lastId
  filed : stmt.type = .insert → search new.pkTree res.lastId = some base.rows.length

/-- The rows a lost attempt counted. -/
def Attempt.counted (stmt : Statement) (attempt : Attempt) : Nat :=
  if stmt.type = .update ∨ stmt.type = .delete then
    (attempt.base.map fun base => base.rows.countP (base.rowMatch stmt)).getD 0
  else 0

/-! ## One attempt -/

section Attempt

variable {stmt : Statement} {base work new : TabVer} {res res' : DbRes}

theorem rowMatch_of_tabClone (stmt : Statement) (h : base.tabClone = some work) :
    work.rows = base.rows ∧ work.rowMatch stmt = base.rowMatch stmt := by
  rw [(TabVer.tabClone_spec h).1]
  exact ⟨rfl, rfl⟩

theorem updDo_count (h : work.updDo stmt res = (new, res', true)) :
    res' = { res with count := res.count + work.rows.countP (work.rowMatch stmt) } := by
  unfold TabVer.updDo at h
  split at h
  · cases h
  · split at h
    · cases h
    · split at h
      · cases h
      · dsimp only at h
        split at h
        · cases h
        · split at h
          · cases h
          · split at h
            · cases h
              rfl
            · exact ((TabVer.rebuild_cases h).2 rfl).1

theorem delDo_count (h : work.delDo stmt res = (new, res', true)) :
    res' = { res with count := res.count + work.rows.countP (work.rowMatch stmt) } := by
  unfold TabVer.delDo at h
  split at h
  · cases h
  · exact ((TabVer.rebuild_cases h).2 rfl).1

/-- A lost attempt leaves its count behind, but no error. -/
theorem execStmt_lost (hwr : stmt.isWr = true) (hclone : base.tabClone = some work)
    (h : work.execStmt stmt res = .ok (new, res', true)) (hnone : res'.err = none) {conflict : Bool} :
    res.err = none ∧ (stmt.type = .insert ∨
      res'.count = res.count + (Attempt.mk (some base) conflict).counted stmt) := by
  obtain ⟨hrows, hmatch⟩ := rowMatch_of_tabClone stmt hclone
  unfold Attempt.counted
  unfold TabVer.execStmt at h
  split at h
  · rename_i htype
    simp [Statement.isWr, htype] at hwr
  · rename_i htype
    obtain ⟨row, newId, hres, -⟩ := TabVer.insDo_entered h
    rw [hres] at hnone
    exact ⟨hnone, Or.inl htype⟩
  · rename_i htype
    have hres := updDo_count (Except.ok.inj h)
    rw [hrows, hmatch] at hres
    rw [hres] at hnone ⊢
    rw [if_pos (Or.inl htype)]
    exact ⟨hnone, Or.inr rfl⟩
  · rename_i htype
    have hres := delDo_count (Except.ok.inj h)
    rw [hrows, hmatch] at hres
    rw [hres] at hnone ⊢
    rw [if_pos (Or.inr htype)]
    exact ⟨hnone, Or.inr rfl⟩
  · cases h

theorem insDo_reports (hs : base.Shape) (htype : stmt.type = .insert)
    (hclone : base.tabClone = some work) (h : work.insDo stmt res = .ok (new, res', true)) :
    Reports stmt base new res' ↔ base.PkTextKept stmt := by
  obtain ⟨hsame, -, hidx⟩ := TabVer.tabClone_spec hclone
  have hrows : work.rows = base.rows := by rw [hsame]
  have hpkIdx : work.pkIdx = base.pkIdx := by rw [hsame]
  have hcols : work.cols = base.cols := by rw [hsame]
  have hid : LONG_MIN ≤ work.nextId ∧ work.nextId ≤ LONG_MAX := by
    rw [hsame]
    exact hs.nextId
  have hkept : work.PkTextKept stmt ↔ base.PkTextKept stmt := by
    unfold TabVer.PkTextKept TabVer.pkText
    rw [hpkIdx, hcols]
  obtain ⟨row, newId, hres, he⟩ := TabVer.insDo_entered h
  have hnew : new.rows = base.rows ++ [row] := by rw [he.frame, hrows]
  have hat : new.rows[base.rows.length]? = some row := by simp [hnew]
  have hfiled : search new.pkTree newId = some base.rows.length := by
    have hins := bptreeInsert_indexes hidx.pk keyAt_length newId
    rw [he.pkTree] at hins
    rw [hins.2.search_eq_some, ← hrows, if_pos rfl]
  have hcount : res'.count = rowsAffected stmt base new := by
    rw [hres, rowsAffected, htype]
    dsimp only
    rw [hnew, List.length_append, List.length_singleton]
    omega
  rw [hres] at hcount ⊢
  constructor
  · intro hrep
    cases hp : base.pkIdx with
    | none =>
        intro src hsrc
        unfold TabVer.pkText at hsrc
        rw [hp] at hsrc
        simp at hsrc
    | some p =>
        obtain ⟨row', hrow', hcell⟩ := hrep.lastId htype p hp
        rw [hat] at hrow'
        cases hrow'
        rw [← hkept]
        exact ((TabVer.rowNew_some he.values).pk_iff hid (hpkIdx.trans hp)
          (hcols ▸ (hs.pk_lt hp).1)).1 hcell
  · refine fun hk => ⟨hcount, fun _ p hp => ⟨row, hat, ?_⟩, fun _ => hfiled⟩
    exact (TabVer.rowNew_some he.values).pk hid (hpkIdx.trans hp) (hcols ▸ (hs.pk_lt hp).1)
      (hkept.2 hk)

theorem updDo_affected (htype : stmt.type = .update) (hclone : base.tabClone = some work)
    (h : work.updDo stmt res = (new, res', true)) :
    rowsAffected stmt base new = base.rows.countP (base.rowMatch stmt) := by
  obtain ⟨hrows, hmatch⟩ := rowMatch_of_tabClone stmt hclone
  obtain ⟨hok, -⟩ | ⟨setIdx, hupd⟩ := TabVer.updDo_cases h
  · cases hok
  have hcol : base.colIdx stmt.setCol.bytes = some setIdx := by
    rw [← hupd.col, (TabVer.tabClone_spec hclone).1]
    rfl
  have hhit : rewrittenAt stmt base new = hitAt base.rows (base.rowMatch stmt) := by
    funext i
    unfold rewrittenAt hitAt
    rw [hcol, hupd.rows, TabVer.updRows_getElem?, hrows, hmatch]
    cases base.rows[i]? with
    | none => rfl
    | some row => cases hm : base.rowMatch stmt row <;> simp [Option.filter, hm]
  have hlen := congrArg List.length (hits_range base.rows (base.rowMatch stmt))
  rw [hits_eq, List.length_map, ← List.countP_eq_length_filter, ← List.countP_eq_length_filter]
    at hlen
  rw [rowsAffected, htype, hhit]
  exact hlen

theorem delDo_affected (htype : stmt.type = .delete) (hclone : base.tabClone = some work)
    (h : work.delDo stmt res = (new, res', true)) :
    rowsAffected stmt base new = base.rows.countP (base.rowMatch stmt) := by
  obtain ⟨hrows, hmatch⟩ := rowMatch_of_tabClone stmt hclone
  obtain ⟨hok, -⟩ | ⟨-, hnew, -, -⟩ := TabVer.delDo_cases h
  · cases hok
  have hsplit := List.length_eq_countP_add_countP (base.rowMatch stmt) (l := base.rows)
  have hneg : base.rows.countP (fun row => !base.rowMatch stmt row) =
      base.rows.countP (fun row => decide ¬ base.rowMatch stmt row = true) := by
    refine List.countP_congr fun row _ => ?_
    simp
  rw [rowsAffected, htype, hnew, hrows, hmatch]
  dsimp only
  rw [← List.countP_eq_length_filter]
  omega

theorem counted_reports (htype : stmt.type ≠ .insert)
    (hcount : res'.count = res.count + rowsAffected stmt base new) :
    Reports stmt base new res' ↔ res.count = 0 := by
  constructor
  · intro hrep
    have hrep := hrep.count
    omega
  · intro hzero
    exact ⟨by omega, fun hins => absurd hins htype, fun hins => absurd hins htype⟩

theorem execStmt_reports (hs : base.Shape) (hwr : stmt.isWr = true)
    (hclone : base.tabClone = some work) (h : work.execStmt stmt res = .ok (new, res', true)) :
    Reports stmt base new res' ↔
      (stmt.type ≠ .insert → res.count = 0) ∧ (stmt.type = .insert → base.PkTextKept stmt) := by
  obtain ⟨hrows, hmatch⟩ := rowMatch_of_tabClone stmt hclone
  unfold TabVer.execStmt at h
  split at h
  · rename_i htype
    simp [Statement.isWr, htype] at hwr
  · rename_i htype
    rw [insDo_reports hs htype hclone h]
    simp [htype]
  · rename_i htype
    have hcount := congrArg DbRes.count (updDo_count (Except.ok.inj h))
    rw [hrows, hmatch, ← updDo_affected htype hclone (Except.ok.inj h)] at hcount
    rw [counted_reports (by rw [htype]; simp) hcount]
    simp [htype]
  · rename_i htype
    have hcount := congrArg DbRes.count (delDo_count (Except.ok.inj h))
    rw [hrows, hmatch, ← delDo_affected htype hclone (Except.ok.inj h)] at hcount
    rw [counted_reports (by rw [htype]; simp) hcount]
    simp [htype]
  · cases h

end Attempt

/-- A `db_exec` attempt of the store runs the statement on a copy of the version its
transaction sees. -/
theorem Db.execRun_eq {db : Db} {tx : DbTx} {i : Nat} {item : TxTab} {base : TabVer}
    {stmt : Statement} {res : DbRes} (hi : tx.tabs[i]? = some item) (hnew : item.work = none)
    (hbase : db.heap.get item.base = some base) (hwr : stmt.isWr = true) :
    db.execRun tx (some i) stmt res =
      match base.tabClone with
      | none => .ok (db, tx, res.fail .oom "out of memory", false)
      | some work => (work.execStmt stmt res).map fun r =>
          let item := { item with work := some db.heap.next, dirty := true }
          ({ db with heap := (db.heap.alloc work).set db.heap.next r.1 },
            { tx with tabs := tx.tabs.set i item }, r.2.1, r.2.2) := by
  have hlt := (List.getElem?_eq_some_iff.1 hi).1
  have hver : db.ver item.base = .ok base := by
    unfold ver
    rw [hbase]
  have hmake : db.txMakeWork tx i item = match base.tabClone with
      | none => .ok (false, db, tx)
      | some work =>
          let item := { item with work := some db.heap.next, dirty := true }
          .ok (true, { db with heap := db.heap.alloc work },
            { tx with tabs := tx.tabs.set i item }) := by
    unfold txMakeWork
    rw [hnew]
    dsimp only
    rw [hver]
    simp only [bind, Except.bind]
    cases base.tabClone <;> rfl
  unfold execRun
  simp only [hi, Option.bind_some, Option.map_some]
  rw [hmake]
  cases base.tabClone with
  | none => rfl
  | some work =>
      have hget : ({ db with heap := db.heap.alloc work } : Db).ver db.heap.next = .ok work := by
        unfold ver
        rw [Heap.get_alloc_next]
      simp only [bind, Except.bind, itemTab, List.getElem?_set_self hlt, Option.map_some,
        Option.getD_some, Bool.not_true, Bool.false_eq_true, if_false, execAt, hget]
      cases work.execStmt stmt res with
      | error f => rfl
      | ok r =>
          simp only [hwr, if_true]
          rfl

/-! ## All attempts -/

/-- What the loop of `db_exec` reports when it returns 0. -/
theorem execAttempts_reports {stmt : Statement} (hwr : stmt.isWr = true) {base new : TabVer}
    {res' : DbRes} (attempts : List Attempt) (res : DbRes)
    (hs : ∀ a ∈ attempts, ∀ tab, a.base = some tab → tab.Shape)
    (h : execAttempts stmt attempts res = .ok (res', some (base, new))) :
    Reports stmt base new res' ↔
      (stmt.type ≠ .insert →
        res.count = 0 ∧ ∀ a ∈ attempts.takeWhile Attempt.conflict, a.counted stmt = 0) ∧
      (stmt.type = .insert → base.PkTextKept stmt) := by
  induction attempts generalizing res with
  | nil => cases h
  | cons attempt rest ih =>
      obtain ⟨base?, conflict⟩ := attempt
      unfold execAttempts at h
      cases base? with
      | none => cases h
      | some start =>
          dsimp only at h
          cases hclone : start.tabClone with
          | none =>
              rw [hclone] at h
              cases h
          | some work =>
              rw [hclone] at h
              dsimp only at h
              cases hrun : work.execStmt stmt res with
              | error f =>
                  rw [hrun] at h
                  cases h
              | ok r =>
                  obtain ⟨after, mid, ok⟩ := r
                  rw [hrun] at h
                  simp only [bind, Except.bind] at h
                  split at h
                  · rename_i hdone
                    obtain ⟨rfl, rfl⟩ := hdone
                    cases h
                    rw [execStmt_reports (hs _ List.mem_cons_self _ rfl) hwr hclone hrun]
                    simp
                  · rename_i hlost
                    split at h
                    · cases h
                    · rename_i herr
                      have hnone : mid.err = none := by
                        rwa [← Option.not_isSome_iff_eq_none]
                      have hok : ok = true := by
                        cases ok with
                        | true => rfl
                        | false => exact absurd (TabVer.execStmt_failed hwr hrun) (by rw [hnone]; simp)
                      subst hok
                      have hconf : conflict = true := by simpa using hlost
                      subst hconf
                      obtain ⟨-, hcount⟩ := @execStmt_lost _ _ _ _ _ _ hwr hclone hrun hnone true
                      rw [ih mid (fun a ha => hs a (List.mem_cons_of_mem _ ha)) h]
                      refine and_congr_left fun _ => imp_congr_right fun hins => ?_
                      obtain hins' | hcount := hcount
                      · exact absurd hins' hins
                      · simp only [List.takeWhile_cons, if_true, List.forall_mem_cons]
                        rw [hcount, Nat.add_eq_zero_iff, and_assoc]

/-- **The report of `db_exec`.**  A write statement that returns 0 reports the effect of
the attempt that committed exactly when the attempts it lost before had counted
nothing, and the PK text of an INSERT keeps its integer when it is trimmed. -/
theorem execAmid_reports_iff {stmt : Statement} (hwr : stmt.isWr = true) (attempts : Nat → Attempt)
    (hs : ∀ k tab, (attempts k).base = some tab → tab.Shape)
    {res : DbRes} {base new : TabVer} (h : execAmid stmt attempts = .ok (res, some (base, new))) :
    Reports stmt base new res ↔
      (∀ k < Db.writeAttempts, (∀ j ≤ k, (attempts j).conflict = true) →
        (attempts k).counted stmt = 0) ∧
      (stmt.type = .insert → base.PkTextKept stmt) := by
  have hs' : ∀ a ∈ (List.range Db.writeAttempts).map attempts, ∀ tab, a.base = some tab →
      tab.Shape := by
    intro a ha tab htab
    obtain ⟨k, -, rfl⟩ := List.mem_map.1 ha
    exact hs k tab htab
  rw [execAttempts_reports hwr _ _ hs' h]
  have hlost : (∀ a ∈ ((List.range Db.writeAttempts).map attempts).takeWhile Attempt.conflict,
      a.counted stmt = 0) ↔ ∀ k < Db.writeAttempts,
        (∀ j ≤ k, (attempts j).conflict = true) → (attempts k).counted stmt = 0 := by
    constructor
    · intro hall k hk hconf
      refine hall (attempts k) (mem_takeWhile_iff.2 ⟨k, by simp [hk], ?_⟩)
      intro j hj b hb
      obtain ⟨i, hi, rfl⟩ : ∃ i, i = j ∧ attempts i = b := by
        simpa [show j < Db.writeAttempts by omega] using hb
      rw [hi]
      exact hconf j hj
    · intro hall a ha
      obtain ⟨k, hk, hconf⟩ := mem_takeWhile_iff.1 ha
      obtain ⟨hlt, rfl⟩ : k < Db.writeAttempts ∧ attempts k = a := by
        obtain ⟨hlt, heq⟩ := List.getElem?_eq_some_iff.1 hk
        exact ⟨by simpa using hlt, by simpa using heq⟩
      refine hall k hlt fun j hj => hconf j hj (attempts j) ?_
      simp [show j < Db.writeAttempts by omega]
  rw [← hlost]
  refine and_congr_left fun _ => ?_
  constructor
  · intro hall
    by_cases hins : stmt.type = .insert
    · -- a lost INSERT counts nothing
      intro a _
      unfold Attempt.counted
      rw [if_neg (by rw [hins]; simp)]
    · exact (hall hins).2
  · exact fun hall _ => ⟨rfl, hall⟩

/-- The result of a run that commits, with the versions before and after it. -/
def landed : Except Fault (DbRes × Option (TabVer × TabVer)) → Option (DbRes × TabVer × TabVer)
  | .ok (res, some (base, new)) => some (res, base, new)
  | _ => none

theorem of_landed {run : Except Fault (DbRes × Option (TabVer × TabVer))} {res : DbRes}
    {base new : TabVer} (h : landed run = some (res, base, new)) :
    run = .ok (res, some (base, new)) := by
  unfold landed at h
  split at h
  · cases h
    rfl
  · cases h

/-- An INSERT that loses once. -/
theorem execAmid_reports_insert : ∃ tab stmt res base new,
    tabLoad (str "t") (some (str "id(PK),v\n1,a\n")) = .ok (some tab) ∧
    parseStatement (str "INSERT INTO t VALUES (NULL,b)") = some stmt ∧
    execAmid stmt (fun k => ⟨some tab, k == 0⟩) = .ok (res, some (base, new)) ∧
    Reports stmt base new res := by
  obtain ⟨tab, hload, htest⟩ := TabVer.exists_of_loadsAnd (str "t") (str "id(PK),v\n1,a\n")
    (fun tab => (parseStatement (str "INSERT INTO t VALUES (NULL,b)")).any fun (stmt : Statement) =>
      stmt.isWr && decide (stmt.type = .insert) &&
        (landed (execAmid stmt fun k => ⟨some tab, k == 0⟩)).any
          fun (r : DbRes × TabVer × TabVer) => (r.2.1.pkText stmt).isNone)
    (by decide +kernel)
  obtain ⟨stmt, hstmt, htest⟩ := (Option.any_eq_true _ _).1 htest
  obtain ⟨hkind, htest⟩ := Bool.and_eq_true_iff.1 htest
  obtain ⟨hwr, htype⟩ := Bool.and_eq_true_iff.1 hkind
  obtain ⟨⟨res, base, new⟩, hlanded, htext⟩ := (Option.any_eq_true _ _).1 htest
  have hshape : ∀ k : Nat, ∀ tab', (Attempt.mk (some tab) (k == 0)).base = some tab' →
      tab'.Shape := by
    rintro k tab' ⟨⟩
    exact (TabVer.tabLoad_shape hload).1
  refine ⟨tab, stmt, res, base, new, hload, hstmt, of_landed hlanded,
    (execAmid_reports_iff hwr _ hshape (of_landed hlanded)).2 ⟨fun k _ _ => ?_, fun _ => ?_⟩⟩
  · unfold Attempt.counted
    rw [if_neg (by rw [of_decide_eq_true htype]; simp)]
  · intro src hsrc
    rw [Option.isNone_iff_eq_none.1 htext] at hsrc
    cases hsrc

/-- The UPDATE of one row that loses once reports two. -/
theorem execAmid_counts_lost_attempt : ∃ tab stmt res base new,
    tabLoad (str "t") (some (str "id(PK),v\n1,a\n")) = .ok (some tab) ∧
    parseStatement (str "UPDATE t SET v = 'b' WHERE id = 1") = some stmt ∧
    execAmid stmt (fun k => ⟨some tab, k == 0⟩) = .ok (res, some (base, new)) ∧
    res.count = 2 ∧ base.rows.length = 1 ∧ ¬ Reports stmt base new res := by
  obtain ⟨tab, hload, htest⟩ := TabVer.exists_of_loadsAnd (str "t") (str "id(PK),v\n1,a\n")
    (fun tab => (parseStatement (str "UPDATE t SET v = 'b' WHERE id = 1")).any fun (stmt : Statement) =>
      (landed (execAmid stmt fun k => ⟨some tab, k == 0⟩)).any fun (r : DbRes × TabVer × TabVer) =>
        decide (r.1.count = 2 ∧ r.2.1.rows.length = 1 ∧ rowsAffected stmt r.2.1 r.2.2 = 1))
    (by decide +kernel)
  obtain ⟨stmt, hstmt, htest⟩ := (Option.any_eq_true _ _).1 htest
  obtain ⟨⟨res, base, new⟩, hlanded, htest⟩ := (Option.any_eq_true _ _).1 htest
  obtain ⟨hcount, hrows, haffected⟩ : res.count = 2 ∧ base.rows.length = 1 ∧
      rowsAffected stmt base new = 1 := of_decide_eq_true htest
  refine ⟨tab, stmt, res, base, new, hload, hstmt, of_landed hlanded, hcount, hrows,
    fun hrep => ?_⟩
  have := hrep.count
  omega

namespace Conc

/-- A client commits the row between the statement and the commit of a `db_exec`. -/
def lostOnce : List Label :=
  [.exec (str "UPDATE t SET v = 'b' WHERE id = 1"), .move 0, .move 0, .begin,
    .call 1 (.txdo (str "UPDATE t SET v = 'c' WHERE id = 1")), .move 1, .call 1 .commit] ++
    List.replicate 2 (.move 1) ++ List.replicate 14 (.move 0)

/-- The count with which thread `i` returned from `db_exec`. -/
def returned (m : Conc) (i : Nat) : Option Nat :=
  match m.threads[i]? with
  | some (.tx ⟨.exec _ res _, _, .over true, _⟩) => some res.count
  | _ => none

/-- Such a conflict does happen: the table has one row, and its UPDATE returns with the
count 2. -/
theorem lostOnce_returns_two :
    ((Run.exec step (init (World.oneFile (str "id(PK),v\n1,a\n")) 0 8 0) lostOnce).toOption.bind
      fun m => (m.returned 0).map fun n => (n, (m.past (str "t")).map fun tab => tab.rows.length)) =
      some (2, [1, 1, 1]) := by
  decide +kernel

end Conc

end MiniDbms
