import MiniDbms.Db.Session

/-!
# Statements once more

A transaction that ran beside others can be run again alone: its write statements, on the
versions they started from, leave the same tables.  What the attempts before it counted does
not matter.
-/

namespace MiniDbms

namespace TabVer

variable {tab tab' src : TabVer} {stmt : Statement} {res res' r : DbRes} {ok : Bool}

/-! ## The result so far -/

/-- Two outcomes that differ in the result document only. -/
def SameTables (o o' : TabVer × DbRes × Bool) : Prop := o.1 = o'.1 ∧ o.2.2 = o'.2.2

theorem rebuild_same (tab : TabVer) (res res' : DbRes) :
    SameTables (tab.rebuild res) (tab.rebuild res') := by
  unfold rebuild
  rcases tab.idxBuild with ⟨built, done⟩
  cases done with
  | true => exact ⟨rfl, rfl⟩
  | false => exact ⟨rfl, rfl⟩

theorem insRow_same (tab : TabVer) (row : Row) (newId : Int) (res res' : DbRes) :
    SameTables (tab.insRow row newId res) (tab.insRow row newId res') := by
  unfold insRow
  dsimp only
  split
  · exact ⟨rfl, rfl⟩
  · split
    · exact ⟨rfl, rfl⟩
    · cases bptreeInsert tab.pkTree newId tab.rows.length with
      | none => exact ⟨rfl, rfl⟩
      | some pkTree =>
          dsimp only
          split
          · exact ⟨rfl, rfl⟩
          · exact ⟨rfl, rfl⟩

theorem updDo_same (tab : TabVer) (stmt : Statement) (hcount : res.count = res'.count) :
    SameTables (tab.updDo stmt res) (tab.updDo stmt res') := by
  unfold updDo
  dsimp only
  rw [hcount]
  split
  · exact ⟨rfl, rfl⟩
  · cases tab.colIdx stmt.setCol.bytes with
    | none => exact ⟨rfl, rfl⟩
    | some setIdx =>
        dsimp only
        split
        · exact ⟨rfl, rfl⟩
        · split
          · exact ⟨rfl, rfl⟩
          · split
            · exact ⟨rfl, rfl⟩
            · split
              · exact ⟨rfl, rfl⟩
              · exact rebuild_same _ _ _

theorem delDo_same (tab : TabVer) (stmt : Statement) (res res' : DbRes) :
    SameTables (tab.delDo stmt res) (tab.delDo stmt res') := by
  unfold delDo
  dsimp only
  split
  · exact ⟨rfl, rfl⟩
  · exact rebuild_same _ _ _

theorem exists_of_same {o : TabVer × DbRes × Bool} (h : SameTables (tab', r, ok) o) :
    ∃ r', (Except.ok o : Except Fault (TabVer × DbRes × Bool)) = .ok (tab', r', ok) :=
  ⟨o.2.1, congrArg Except.ok (Prod.ext h.1.symm (Prod.ext rfl h.2.symm))⟩

theorem insDo_table (stmt : Statement) (res' : DbRes) (h : tab.insDo stmt res = .ok (tab', r, ok)) :
    ∃ r', tab.insDo stmt res' = .ok (tab', r', ok) := by
  unfold insDo at h ⊢
  dsimp only at h ⊢
  split at h
  · rename_i hmax
    cases h
    exact ⟨_, if_pos hmax⟩
  · rename_i hmax
    rw [if_neg hmax]
    cases hcap : tab.ensureRowCap (tab.rows.length + 1) with
    | none =>
        rw [hcap] at h
        cases h
        exact ⟨_, rfl⟩
    | some grown =>
        rw [hcap] at h
        dsimp only at h ⊢
        split at h
        · cases h
        · rename_i hslots
          rw [if_neg hslots]
          rcases hrow : grown.rowNew (splitCsv stmt.rowData.bytes) with ⟨nextId, made⟩
          rw [hrow] at h
          cases made with
          | none =>
              cases h
              exact ⟨_, rfl⟩
          | some made =>
              obtain ⟨row, newId⟩ := made
              dsimp only at h ⊢
              have hsame := insRow_same { grown with nextId := nextId } row newId res res'
              rw [Except.ok.inj h] at hsame
              exact exists_of_same hsame

/-- **A statement leaves the same table** after every result with the same count. -/
theorem execStmt_same (hcount : res.count = res'.count)
    (h : tab.execStmt stmt res = .ok (tab', r, ok)) (hwr : stmt.isWr = true) :
    ∃ r', tab.execStmt stmt res' = .ok (tab', r', ok) := by
  unfold execStmt at h ⊢
  cases htype : stmt.type with
  | select => simp [Statement.isWr, htype] at hwr
  | unrecognized => simp [Statement.isWr, htype] at hwr
  | insert =>
      rw [htype] at h
      exact insDo_table stmt res' h
  | update =>
      rw [htype] at h
      exact exists_of_same (Except.ok.inj h ▸ updDo_same tab stmt hcount)
  | delete =>
      rw [htype] at h
      exact exists_of_same (Except.ok.inj h ▸ delDo_same tab stmt res res')

/-! ## Fresh copies -/

/-- The indexes of a copy are what building them again gives. -/
theorem idxBuild_tabClone (h : src.tabClone = some tab) : tab.idxBuild = (tab, true) := by
  have hframe := (tabClone_spec h).1
  unfold tabClone at h
  split at h
  · rename_i dst hb
    cases h
    have hsame : idxBuild { tab with pkTree := src.pkTree, ukTree := src.ukTree } =
        idxBuild { src with rowCap := src.rows.length, slots := src.rows.length, verId := 0 } := by
      conv_lhs => rw [hframe]
    have hreset : tab.idxBuild =
        idxBuild { tab with pkTree := src.pkTree, ukTree := src.ukTree } := rfl
    rw [hreset, hsame, hb]
  · cases h

theorem updRows_none {setIdx : Nat} {setVal : Bytes} (h : tab.rows.countP (tab.rowMatch stmt) = 0) :
    tab.updRows stmt setIdx setVal = tab.rows := by
  unfold updRows
  conv_rhs => rw [← List.map_id tab.rows]
  refine List.map_congr_left fun row hrow => ?_
  rw [if_neg (List.countP_eq_zero.1 h row hrow)]
  rfl

theorem updDo_tabClone (hclone : src.tabClone = some tab) (stmt : Statement) (res res' : DbRes) :
    SameTables (tab.updDo stmt res) (tab.updDo stmt res') := by
  unfold updDo
  dsimp only
  split
  · exact ⟨rfl, rfl⟩
  · cases tab.colIdx stmt.setCol.bytes with
    | none => exact ⟨rfl, rfl⟩
    | some setIdx =>
        dsimp only
        split
        · exact ⟨rfl, rfl⟩
        · split
          · exact ⟨rfl, rfl⟩
          · split
            · exact ⟨rfl, rfl⟩
            · by_cases hnone : tab.rows.countP (tab.rowMatch stmt) = 0
              · -- nothing changes, and the indexes are as they were
                have hbuild : ∀ res : DbRes, tab.rebuild res = (tab, res, true) := fun res => by
                  unfold rebuild
                  rw [idxBuild_tabClone hclone]
                rw [updRows_none hnone, hbuild, hbuild]
                split
                · split
                  · exact ⟨rfl, rfl⟩
                  · exact ⟨rfl, rfl⟩
                · split
                  · exact ⟨rfl, rfl⟩
                  · exact ⟨rfl, rfl⟩
              · rw [if_neg (by omega), if_neg (by omega)]
                exact rebuild_same _ _ _

theorem execStmt_tabClone (hclone : src.tabClone = some tab) (res' : DbRes)
    (h : tab.execStmt stmt res = .ok (tab', r, ok)) (hwr : stmt.isWr = true) :
    ∃ r', tab.execStmt stmt res' = .ok (tab', r', ok) := by
  unfold execStmt at h ⊢
  cases htype : stmt.type with
  | select => simp [Statement.isWr, htype] at hwr
  | unrecognized => simp [Statement.isWr, htype] at hwr
  | insert =>
      rw [htype] at h
      exact insDo_table stmt res' h
  | delete =>
      rw [htype] at h
      exact exists_of_same (Except.ok.inj h ▸ delDo_same tab stmt res res')
  | update =>
      rw [htype] at h
      exact exists_of_same (Except.ok.inj h ▸ updDo_tabClone hclone stmt res res')

/-! ## Statements of a transaction -/

/-- The statements on one table, one after another. -/
def redo : TabVer → List Statement → Except Fault TabVer
  | tab, [] => .ok tab
  | tab, stmt :: stmts => do
    let (tab, _, _) ← tab.execStmt stmt {}
    redo tab stmts

theorem redo_append {stmts stmts' : List Statement} :
    tab.redo (stmts ++ stmts') = (tab.redo stmts).bind fun tab => tab.redo stmts' := by
  induction stmts generalizing tab with
  | nil => rfl
  | cons stmt stmts ih =>
      rw [List.cons_append, redo, redo]
      cases tab.execStmt stmt {} with
      | error f => rfl
      | ok o => exact ih

end TabVer

/-- The statements on a table. -/
def onTable (name : Bytes) (stmts : List Statement) : List Statement :=
  stmts.filter fun stmt => stmt.tableName.bytes == name

namespace IdealTx

/-- Write statements one after another, whatever each comes to. -/
def runEach : IdealTx → List Statement → Except Fault IdealTx
  | tx, [] => .ok tx
  | tx, stmt :: stmts => do
    let (tx, _, _) ← tx.run stmt
    runEach tx stmts

theorem own_put {tx : IdealTx} {name n : Bytes} {tab : TabVer} :
    (tx.put name tab).own n = if n = name then some tab else tx.own n := by
  unfold own put
  dsimp only
  split
  · rename_i w hw
    split at hw
    · rename_i hn
      rw [if_pos hn, hw]
    · rename_i hn
      rw [if_neg hn, hw]
  · rename_i hw
    split at hw
    · cases hw
    · rename_i hn
      rw [if_neg hn, hw]

theorem run_write {tx : IdealTx} {stmt : Statement} {tab tab' : TabVer} {res : DbRes} {ok : Bool}
    (hwr : stmt.isWr = true) (hown : tx.own stmt.tableName.bytes = some tab)
    (hrun : tab.execStmt stmt {} = .ok (tab', res, ok)) :
    ∃ res', tx.run stmt = .ok (tx.put stmt.tableName.bytes tab', res', ok) := by
  have hcount : ({} : DbRes).count = ({ snapId := tx.snapId } : DbRes).count := rfl
  obtain ⟨res', hrun'⟩ := TabVer.execStmt_same hcount hrun hwr
  refine ⟨res', ?_⟩
  unfold run runOn
  simp only [hwr, if_true, hown, hrun']
  rfl

/-- **What a run does, table by table.** -/
theorem runEach_eq : ∀ {stmts : List Statement} {tx : IdealTx} {work : Tables},
    (∀ stmt ∈ stmts, stmt.isWr = true) →
    (∀ n, onTable n stmts = [] → work n = tx.work n) →
    (∀ n, onTable n stmts ≠ [] → ∃ tab tab', tx.own n = some tab ∧
      tab.redo (onTable n stmts) = .ok tab' ∧ work n = some tab') →
    tx.runEach stmts = .ok { tx with work := work }
  | [], tx, work, _, hnone, _ => by
      have heq : work = tx.work := funext fun n => hnone n rfl
      rw [heq]
      rfl
  | stmt :: stmts, tx, work, hwr, hnone, hsome => by
      rw [List.forall_mem_cons] at hwr
      have hhere : onTable stmt.tableName.bytes (stmt :: stmts) =
          stmt :: onTable stmt.tableName.bytes stmts := List.filter_cons_of_pos (beq_self_eq_true _)
      have helse : ∀ n, n ≠ stmt.tableName.bytes → onTable n (stmt :: stmts) = onTable n stmts :=
        fun n hn => List.filter_cons_of_neg (by simpa using Ne.symm hn)
      obtain ⟨tab, tab', hown, hredo, hwork⟩ := hsome stmt.tableName.bytes (by rw [hhere]; simp)
      rw [hhere, TabVer.redo] at hredo
      cases hrun : tab.execStmt stmt {} with
      | error f =>
          rw [hrun] at hredo
          cases hredo
      | ok o =>
          obtain ⟨tab₁, res, ok⟩ := o
          rw [hrun] at hredo
          obtain ⟨res', hstep⟩ := run_write hwr.1 hown hrun
          rw [runEach, hstep]
          change (tx.put stmt.tableName.bytes tab₁).runEach stmts =
            .ok { tx.put stmt.tableName.bytes tab₁ with work := work }
          refine runEach_eq hwr.2 (fun n hn => ?_) fun n hn => ?_
          · unfold put
            dsimp only
            by_cases hname : n = stmt.tableName.bytes
            · subst hname
              rw [hn] at hredo
              cases hredo
              rw [if_pos rfl, hwork]
            · rw [if_neg hname]
              exact hnone n (by rw [helse n hname, hn])
          · rw [own_put]
            by_cases hname : n = stmt.tableName.bytes
            · subst hname
              exact ⟨tab₁, tab', if_pos rfl, hredo, hwork⟩
            · obtain ⟨t, t', ht, hredo', hwork'⟩ := hsome n (by rwa [helse n hname])
              rw [helse n hname] at hredo'
              exact ⟨t, t', by rw [if_neg hname, ht], hredo', hwork'⟩

end IdealTx

/-- The write statements as a transaction that is alone. -/
def Ideal.redo (d : Ideal) (stmts : List Statement) : Except Fault Ideal := do
  let tx ← d.begin.runEach stmts
  return d.install tx

end MiniDbms
