import MiniDbms.Db.Failed
import MiniDbms.Lib.Run

/-!
# Transactions that go on after a failure

A failure that spoils nothing leaves at most more room for rows, which no later
statement can tell.  So the transaction ends where its successful statements alone
would have brought it.
-/

namespace MiniDbms

open Bptree

namespace TabVer

variable {tab tab' : TabVer} {stmt : Statement} {res res' : DbRes}

/-- Two tables that differ in the room for rows only. -/
def Resized (tab tab' : TabVer) : Prop :=
  tab' = { tab with rowCap := tab'.rowCap, slots := tab'.slots }

theorem Resized.unchanged (h : Resized tab tab') : Unchanged tab tab' := by
  rw [h]
  exact ⟨rfl, rfl, rfl, fun _ => rfl⟩

theorem Resized.refl (tab : TabVer) : Resized tab tab := rfl

theorem Resized.trans {tab₁ : TabVer} (h : Resized tab tab₁) (h' : Resized tab₁ tab') :
    Resized tab tab' := by
  unfold Resized
  rw [h', h]

theorem Resized.symm (h : Resized tab tab') : Resized tab' tab := by
  unfold Resized
  rw [h]

/-- A failure that changes no content leaves nothing but more room. -/
theorem execStmt_failed_resized (hs : tab.Shape) (hidx : tab.IndexOk) (hacc : tab.Accessible)
    (hgood : ¬ tab.Spoils stmt) (h : tab.execStmt stmt res = .ok (tab', res', false)) :
    Resized tab tab' := by
  have hkept := (execStmt_clean_iff hs hidx hacc h).2 hgood rfl
  unfold execStmt at h
  unfold Spoils at hgood
  split at h
  · have htab : tab = tab' := congrArg Prod.fst (Except.ok.inj h)
    rw [htab]
    rfl
  · rcases insDo_cases h with ⟨-, hsame, -⟩ | ⟨-, row, newId, -, -, hframe, -⟩ | ⟨hok, -⟩
    · unfold Resized
      conv_lhs => rw [hsame, hkept.nextId]
    · have hlen := congrArg List.length hkept.rows
      rw [hframe] at hlen
      simp at hlen
    · cases hok
  · rename_i htype
    rw [htype] at hgood
    have hsame := @updDo_clean tab stmt res hs hidx hgood
    rw [Except.ok.inj h] at hsame
    rw [show tab' = tab from hsame rfl]
    rfl
  · have hsame := @delDo_clean tab stmt res hidx
    rw [Except.ok.inj h] at hsame
    rw [show tab' = tab from hsame rfl]
    rfl
  · cases h
    rfl

section Room

variable (cap slots : Nat)

theorem idxRow_room (tab : TabVer) (i : Nat) (row : Row) :
    idxRow { tab with rowCap := cap, slots := slots } i row =
      ({ (tab.idxRow i row).1 with rowCap := cap, slots := slots }, (tab.idxRow i row).2) := by
  unfold idxRow
  dsimp only
  split <;> rfl

theorem idxLoop_room (rows : List Row) (i : Nat) (tab : TabVer) :
    idxLoop i rows { tab with rowCap := cap, slots := slots } =
      ({ (idxLoop i rows tab).1 with rowCap := cap, slots := slots }, (idxLoop i rows tab).2) := by
  induction rows generalizing i tab with
  | nil => rfl
  | cons row rows ih =>
      unfold idxLoop
      rw [idxRow_room]
      rcases tab.idxRow i row with ⟨tab', _ | _⟩
      · rfl
      · exact ih (i + 1) tab'

theorem rebuild_room (tab : TabVer) (res : DbRes) :
    rebuild { tab with rowCap := cap, slots := slots } res =
      ({ (tab.rebuild res).1 with rowCap := cap, slots := slots }, (tab.rebuild res).2) := by
  have hbuild : idxBuild { tab with rowCap := cap, slots := slots } =
      ({ tab.idxBuild.1 with rowCap := cap, slots := slots }, tab.idxBuild.2) :=
    idxLoop_room cap slots tab.rows 0
      { tab with pkTree := create Int, ukTree := tab.ukIdx.map fun _ => create Bytes }
  unfold rebuild
  rw [hbuild]
  rcases tab.idxBuild with ⟨tab', _ | _⟩
  · rfl
  · rfl

theorem updDo_room (tab : TabVer) (stmt : Statement) (res : DbRes) :
    updDo { tab with rowCap := cap, slots := slots } stmt res =
      ({ (tab.updDo stmt res).1 with rowCap := cap, slots := slots }, (tab.updDo stmt res).2) := by
  by_cases hwhere : stmt.whereConditions = []
  · unfold updDo
    rw [if_pos hwhere, if_pos hwhere]
  · have hcol' : colIdx { tab with rowCap := cap, slots := slots } stmt.setCol.bytes =
        tab.colIdx stmt.setCol.bytes := rfl
    cases hcol : tab.colIdx stmt.setCol.bytes with
    | none =>
        unfold updDo
        rw [if_neg hwhere, if_neg hwhere, hcol', hcol]
    | some setIdx =>
        by_cases hpk : tab.pkIdx = some setIdx
        · unfold updDo
          rw [if_neg hwhere, if_neg hwhere, hcol', hcol]
          dsimp only
          rw [if_pos hpk, if_pos hpk]
        · by_cases hnn : tab.colType setIdx = .nn ∧ normV 256 stmt.setVal.bytes = []
          · unfold updDo
            rw [if_neg hwhere, if_neg hwhere, hcol', hcol]
            dsimp only
            rw [if_neg hpk, if_neg hpk, if_pos hnn]
            exact if_pos hnn
          · rw [updDo_eq hwhere (hcol'.trans hcol) hpk hnn, updDo_eq hwhere hcol hpk hnn]
            have hrej : updRejects { tab with rowCap := cap, slots := slots } stmt setIdx
                (normV 256 stmt.setVal.bytes) =
              tab.updRejects stmt setIdx (normV 256 stmt.setVal.bytes) := rfl
            rw [hrej]
            split
            · rfl
            · dsimp only
              by_cases hzero : res.count + tab.rows.countP (tab.rowMatch stmt) = 0
              · rw [if_pos hzero]
                exact if_pos hzero
              · rw [if_neg hzero]
                refine (if_neg hzero).trans ?_
                exact rebuild_room cap slots { tab with
                  rows := tab.updRows stmt setIdx (normV 256 stmt.setVal.bytes) } _

theorem insRow_room (tab : TabVer) (row : Row) (newId : Int) (res : DbRes) :
    insRow { tab with rowCap := cap, slots := slots } row newId res =
      ({ (tab.insRow row newId res).1 with rowCap := cap, slots := slots },
        (tab.insRow row newId res).2) := by
  have hpk : chkDupPk { tab with rowCap := cap, slots := slots } newId = tab.chkDupPk newId := rfl
  have huk : (fun c => chkDupUk { tab with rowCap := cap, slots := slots } c (cell row c) none) =
    fun c => tab.chkDupUk c (cell row c) none := rfl
  unfold insRow
  dsimp only
  rw [hpk, huk]
  cases tab.chkDupPk newId with
  | true => rfl
  | false =>
      cases tab.ukIdx.any fun c => tab.chkDupUk c (cell row c) none with
      | true => rfl
      | false =>
          cases bptreeInsert tab.pkTree newId tab.rows.length with
          | none => rfl
          | some pkTree =>
              rcases ukEnter row tab.rows.length tab.ukIdx tab.ukTree with ⟨trees, _ | _⟩
              · rfl
              · rfl

end Room

/-- A statement cannot tell how much room there is, once it returns. -/
theorem Resized.execStmt {a b a' b' : TabVer} {ra rb : DbRes} {oka okb : Bool}
    (hab : Resized a b) (ha : a.execStmt stmt res = .ok (a', ra, oka))
    (hb : b.execStmt stmt res = .ok (b', rb, okb)) : oka = okb ∧ Resized a' b' := by
  unfold Resized at hab
  generalize b.rowCap = cap at hab
  generalize b.slots = slots at hab
  subst hab
  unfold TabVer.execStmt at ha hb
  split at ha
  · rename_i htype
    rw [htype] at hb
    cases ha
    cases hb
    exact ⟨rfl, rfl⟩
  · rename_i htype
    rw [htype] at hb
    dsimp only at hb
    by_cases hroom : a.rows.length < MAX_RECORDS
    · obtain ⟨capa, slotsa, hruna⟩ := insDo_behind_room ha hroom
      obtain ⟨capb, slotsb, hrunb⟩ := insDo_behind_room hb hroom
      have hnew : rowNew { a with rowCap := cap, slots := slots }
          (splitCsv stmt.rowData.bytes) = a.rowNew (splitCsv stmt.rowData.bytes) := rfl
      rw [hnew] at hrunb
      generalize a.rowNew (splitCsv stmt.rowData.bytes) = new at hruna hrunb
      rcases new with ⟨counter, _ | ⟨row, newId⟩⟩
      · obtain ⟨rfl, rfl⟩ := hruna
        obtain ⟨rfl, rfl⟩ := hrunb
        exact ⟨rfl, rfl⟩
      · have hroomb := insRow_room capb slotsb
          { a with rowCap := capa, slots := slotsa, nextId := counter } row newId res
        dsimp only at hruna hrunb hroomb
        rw [hrunb, hruna] at hroomb
        cases hroomb
        exact ⟨rfl, rfl⟩
    · obtain ⟨rfl, rfl⟩ := insDo_row_limit ha (Nat.le_of_not_lt hroom)
      obtain ⟨rfl, rfl⟩ := insDo_row_limit hb (Nat.le_of_not_lt hroom)
      exact ⟨rfl, rfl⟩
  · rename_i htype
    rw [htype] at hb
    have hupd := updDo_room cap slots a stmt res
    rw [Except.ok.inj ha, Except.ok.inj hb] at hupd
    cases hupd
    exact ⟨rfl, rfl⟩
  · rename_i htype
    rw [htype] at hb
    have ha := Except.ok.inj ha
    have hb := Except.ok.inj hb
    unfold delDo at ha hb
    split at ha
    · rename_i hwhere
      rw [if_pos hwhere] at hb
      cases ha
      cases hb
      exact ⟨rfl, rfl⟩
    · rename_i hwhere
      rw [if_neg hwhere] at hb
      dsimp only at ha hb
      have hreb := rebuild_room cap a.rows.length { a with
        rows := a.rows.filter fun row => !a.rowMatch stmt row, slots := a.rows.length }
        { res with count := res.count + a.rows.countP (a.rowMatch stmt) }
      rw [ha] at hreb
      have hb' := hreb.symm.trans hb
      cases hb'
      exact ⟨rfl, rfl⟩
  · rename_i htype
    rw [htype] at hb
    cases ha
    cases hb
    exact ⟨rfl, rfl⟩

theorem Accessible.execStmt (hacc : tab.Accessible)
    (h : tab.execStmt stmt res = .ok (tab', res', true)) : tab'.Accessible := by
  unfold TabVer.execStmt at h
  split at h
  · have htab : tab = tab' := congrArg Prod.fst (Except.ok.inj h)
    exact htab ▸ hacc
  · obtain ⟨row, newId, -, he⟩ := insDo_entered h
    exact hacc.entered he
  · rcases updDo_cases (Except.ok.inj h) with ⟨hok, -⟩ | ⟨setIdx, hu⟩
    · cases hok
    · rcases hu.trees rfl with rfl | ⟨hcon, hidx⟩
      · exact hacc
      · exact hidx.accessible hcon
  · rcases delDo_cases (Except.ok.inj h) with ⟨hok, -⟩ | ⟨-, -, -, htrees⟩
    · cases hok
    · obtain ⟨hcon, hidx⟩ := htrees rfl
      exact hidx.accessible hcon
  · cases h

/-- The constraint and index invariant. -/
structure Intact (tab : TabVer) : Prop extends Sound tab where
  shape : tab.Shape
  accessible : tab.Accessible

theorem Intact.resized (h : tab.Intact) (hr : Resized tab tab') : tab'.Intact := by
  rw [hr]
  obtain ⟨hsound, hs, hacc⟩ := h
  exact ⟨⟨⟨hsound.pkInt, hsound.pk, hsound.uk⟩, hsound.nn⟩,
    ⟨hs.1, hs.2, hs.3, hs.4, hs.5, hs.6, hs.7, hs.8, hs.9, hs.10⟩, ⟨hacc.pk, hacc.uk⟩⟩

/-- A statement of a transaction that does not stop at a failure. -/
def txStep (snap : Nat) (tab : TabVer) (stmt : Statement) : Except Fault TabVer :=
  (runOn tab stmt snap).map Prod.fst

/-- The statements of the transaction that succeed. -/
def successes (snap : Nat) : TabVer → List Statement → List Statement
  | _, [] => []
  | tab, stmt :: stmts =>
    match runOn tab stmt snap with
    | .error _ => []
    | .ok (tab, _, true) => stmt :: successes snap tab stmts
    | .ok (tab, _, false) => successes snap tab stmts

/-- The statement keeps the PK text it is given and spoils nothing. -/
def Spares (tab : TabVer) (stmt : Statement) : Prop :=
  ¬ tab.Spoils stmt ∧ (stmt.type = .insert → tab.PkTextKept stmt)

theorem Intact.runOn (h : tab.Intact) {snap : Nat} {ok : Bool} (hspares : tab.Spares stmt)
    (hrun : runOn tab stmt snap = .ok (tab', res', ok)) : tab'.Intact := by
  cases ok with
  | false =>
      exact h.resized (execStmt_failed_resized h.shape h.toIndexOk h.accessible hspares.1 hrun)
  | true =>
      exact ⟨h.toSound.execStmt h.shape hspares.2 hrun, (h.shape.execStmt hrun).1,
        h.accessible.execStmt hrun⟩

theorem txStep_eq_ok {snap : Nat} : txStep snap tab stmt = .ok tab' ↔
    ∃ res' ok, runOn tab stmt snap = .ok (tab', res', ok) := by
  unfold txStep
  cases runOn tab stmt snap with
  | error f => simp [Except.map]
  | ok r =>
      obtain ⟨new, res', ok⟩ := r
      simp [Except.map]

/-- A transaction that goes on after failures does what its successful statements do. -/
theorem txRun_successes {snap : Nat} {stmts : List Statement} {a b a' b' : TabVer}
    (h : a.Intact) (hab : Resized a b) (hg : Run.Guarded (txStep snap) Spares a stmts)
    (ha : Run.exec (txStep snap) a stmts = .ok a')
    (hb : Run.exec (txStep snap) b (successes snap a stmts) = .ok b') : Resized a' b' := by
  induction stmts generalizing a b with
  | nil =>
      cases ha
      cases hb
      exact hab
  | cons stmt stmts ih =>
      obtain ⟨a₁, hstep, hrest⟩ := Run.exec_cons.1 ha
      obtain ⟨ra, ok, hrun⟩ := txStep_eq_ok.1 hstep
      have hinv := h.runOn hg.1 hrun
      have hg' := hg.2 a₁ hstep
      unfold successes at hb
      rw [hrun] at hb
      cases ok with
      | true =>
          obtain ⟨b₁, hstepb, hrestb⟩ := Run.exec_cons.1 hb
          obtain ⟨rb, okb, hrunb⟩ := txStep_eq_ok.1 hstepb
          exact ih hinv (hab.execStmt hrun hrunb).2 hg' hrest hrestb
      | false =>
          have hsame := execStmt_failed_resized h.shape h.toIndexOk h.accessible hg.1.1 hrun
          exact ih hinv (hsame.symm.trans hab) hg' hrest hb

/-- **Failed statements** leave the working table unchanged exactly when they spoil
nothing, and a transaction that goes on after them publishes what its successful
statements do. -/
theorem failed_statements_iff (h : tab.Intact) (snap : Nat) :
    (∀ stmt res tab' res' ok, tab.execStmt stmt res = .ok (tab', res', ok) →
      ((ok = false → Unchanged tab tab') ↔ ¬ tab.Spoils stmt)) ∧
    ∀ stmts tab₁ tab₂, Run.Guarded (txStep snap) Spares tab stmts →
      Run.exec (txStep snap) tab stmts = .ok tab₁ →
      Run.exec (txStep snap) tab (successes snap tab stmts) = .ok tab₂ → Unchanged tab₂ tab₁ := by
  refine ⟨fun stmt res tab' res' ok hrun => ?_, fun stmts tab₁ tab₂ hg h₁ h₂ => ?_⟩
  · exact execStmt_clean_iff h.shape h.toIndexOk h.accessible hrun
  · exact (txRun_successes h (.refl tab) hg h₁ h₂).symm.unchanged

theorem accessible_of_tabLoad {name : Bytes} {file : Option Bytes} {tab : TabVer}
    (h : tabLoad name file = .ok (some tab)) : tab.Accessible := by
  obtain ⟨-, -, -, hcon, hidx⟩ := tabLoad_shape h
  exact hidx.accessible hcon

theorem intact_of_tabLoad {name : Bytes} {file : Option Bytes}
    (h : tabLoad name file = .ok (some tab)) (hnn : tab.NnOk) : tab.Intact :=
  ⟨(sound_of_tabLoad h hnn).2, (sound_of_tabLoad h hnn).1, accessible_of_tabLoad h⟩

/-- An INSERT of too many values. -/
theorem failed_statements_too_many_values : ∃ tab stmt tab' res',
    tabLoad (str "t") (some (str "id(PK),u(UK)\n1,x\n2,y\n")) = .ok (some tab) ∧
    parseStatement (str "INSERT INTO t VALUES (3,z,w)") = some stmt ∧
    tab.execStmt stmt {} = .ok (tab', res', false) ∧ Unchanged tab tab' := by
  obtain ⟨tab, hload, htest⟩ := exists_of_loadsAnd (str "t") (str "id(PK),u(UK)\n1,x\n2,y\n")
    (fun tab => decide tab.NnOk &&
      (parseStatement (str "INSERT INTO t VALUES (3,z,w)")).any fun stmt : Statement =>
        decide (stmt.type = .insert ∧
          (splitCsv stmt.rowData.bytes).length = tab.cols.length + 1) &&
          match tab.execStmt stmt {} with
          | .ok (_, _, ok) => !ok
          | .error _ => false)
    (by decide +kernel)
  obtain ⟨hnn, htest⟩ := Bool.and_eq_true_iff.1 htest
  obtain ⟨stmt, hstmt, htest⟩ := (Option.any_eq_true _ _).1 htest
  obtain ⟨hsize, htest⟩ := Bool.and_eq_true_iff.1 htest
  obtain ⟨htype, hlen⟩ := of_decide_eq_true hsize
  split at htest
  · rename_i tab' res' ok hrun
    rw [Bool.not_eq_true_eq_eq_false] at htest
    subst htest
    refine ⟨tab, stmt, tab', res', hload, hstmt, hrun, ?_⟩
    refine ((failed_statements_iff (intact_of_tabLoad hload (of_decide_eq_true hnn)) 1).1
      stmt {} tab' res' false hrun).2 ?_ rfl
    unfold Spoils
    rw [htype]
    rintro ⟨-, hfit | ⟨-, hfit⟩, -⟩
    · omega
    · omega
  · cases htest

/-- An UPDATE of two rows to one value of the unique column fails, and the rows have it
afterwards. -/
theorem failed_update_changes_rows : ∃ tab stmt tab' res',
    tabLoad (str "t") (some (str "id(PK),u(UK)\n1,x\n2,y\n")) = .ok (some tab) ∧
    tab.Intact ∧
    parseStatement (str "UPDATE t SET u = 'z' WHERE id BETWEEN 1 AND 2") = some stmt ∧
    tab.execStmt stmt {} = .ok (tab', res', false) ∧
    tab'.rows = [[str "1", str "z"], [str "2", str "z"]] ∧ ¬ Unchanged tab tab' := by
  obtain ⟨tab, hload, htest⟩ := exists_of_loadsAnd (str "t") (str "id(PK),u(UK)\n1,x\n2,y\n")
    (fun tab => decide tab.NnOk &&
      (parseStatement (str "UPDATE t SET u = 'z' WHERE id BETWEEN 1 AND 2")).any
        fun stmt : Statement =>
          match tab.execStmt stmt {} with
          | .ok (tab', _, ok) => !ok &&
              decide (tab'.rows = [[str "1", str "z"], [str "2", str "z"]] ∧
                tab.rows = [[str "1", str "x"], [str "2", str "y"]])
          | .error _ => false)
    (by decide +kernel)
  obtain ⟨hnn, htest⟩ := Bool.and_eq_true_iff.1 htest
  obtain ⟨stmt, hstmt, htest⟩ := (Option.any_eq_true _ _).1 htest
  split at htest
  · rename_i tab' res' ok hrun
    obtain ⟨hok, hrows⟩ := Bool.and_eq_true_iff.1 htest
    obtain ⟨hnew, hold⟩ := of_decide_eq_true hrows
    rw [Bool.not_eq_true_eq_eq_false] at hok
    subst hok
    refine ⟨tab, stmt, tab', res', hload, intact_of_tabLoad hload (of_decide_eq_true hnn), hstmt,
      hrun, hnew, fun hsame => ?_⟩
    have hrows := hsame.rows
    rw [hnew, hold] at hrows
    exact absurd hrows (by decide +kernel)
  · cases htest

end TabVer

end MiniDbms
