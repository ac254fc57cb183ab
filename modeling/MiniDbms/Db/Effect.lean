import MiniDbms.Db.Constraint
import MiniDbms.Db.Select

/-!
# What UPDATE and DELETE do to a table

UPDATE checks its value against the old index, replaces the cells in a second pass
and then rebuilds the indexes.  It is accepted exactly when the result has no
duplicates in a unique column.
-/

namespace MiniDbms

open Bptree

theorem cell_set_ne {row : Row} {i j : Nat} {v : Bytes} (h : i ≠ j) :
    cell (row.set i v) j = cell row j := by
  unfold cell
  rw [List.getD_eq_getElem?_getD, List.getD_eq_getElem?_getD, List.getElem?_set_ne h]

theorem cell_set_self {row : Row} {i : Nat} {v : Bytes} (h : i < row.length) :
    cell (row.set i v) i = v := by
  unfold cell
  rw [List.getD_eq_getElem?_getD, List.getElem?_set_self h]
  rfl

theorem keyAt_map {α : Type} {f : Row → Option α} {g : Row → Row} (hg : ∀ row, f (g row) = f row)
    (rows : List Row) : keyAt f (rows.map g) = keyAt f rows := by
  funext i
  unfold keyAt
  rw [List.getElem?_map]
  cases rows[i]? with
  | none => rfl
  | some row => exact hg row

/-- Distinctness speaks of pairs of rows, so it passes to a part of them. -/
theorem distinct_iff_pairwise {α : Type} {f : Row → Option α} {rows : List Row} :
    Distinct f rows ↔ rows.Pairwise fun a b => ∀ k, f a = some k → f b ≠ some k := by
  rw [List.pairwise_iff_getElem]
  constructor
  · intro h i j hi hj hlt k ha hb
    have heq := h i j k (by rw [keyAt, List.getElem?_eq_getElem hi]; exact ha)
      (by rw [keyAt, List.getElem?_eq_getElem hj]; exact hb)
    omega
  · intro h i j k hi hj
    obtain ⟨a, ha, hka⟩ := Option.bind_eq_some_iff.1 hi
    obtain ⟨b, hb, hkb⟩ := Option.bind_eq_some_iff.1 hj
    obtain ⟨hilt, rfl⟩ := List.getElem?_eq_some_iff.1 ha
    obtain ⟨hjlt, rfl⟩ := List.getElem?_eq_some_iff.1 hb
    rcases Nat.lt_trichotomy i j with hlt | heq | hgt
    · exact absurd hkb (h i j hilt hjlt hlt k hka)
    · exact heq
    · exact absurd hka (h j i hjlt hilt hgt k hkb)

theorem Distinct.sublist {α : Type} {f : Row → Option α} {rows rows' : List Row}
    (h : Distinct f rows) (hsub : rows'.Sublist rows) : Distinct f rows' :=
  distinct_iff_pairwise.2 ((distinct_iff_pairwise.1 h).sublist hsub)

namespace TabVer

variable {tab : TabVer} {stmt : Statement} {setIdx : Nat} {setVal : Bytes}

/-! ## The replaced rows -/

theorem updRows_getElem? (i : Nat) : (tab.updRows stmt setIdx setVal)[i]? =
    (tab.rows[i]?).map fun row => if tab.rowMatch stmt row then row.set setIdx setVal else row :=
  List.getElem?_map

theorem keyAt_updRows {α : Type} {f : Row → Option α}
    (hf : ∀ row, f (row.set setIdx setVal) = f row) :
    keyAt f (tab.updRows stmt setIdx setVal) = keyAt f tab.rows := by
  refine keyAt_map (fun row => ?_) tab.rows
  split
  · exact hf row
  · rfl

theorem pkVal_set (h : tab.pkIdx ≠ some setIdx) (row : Row) :
    pkVal tab.pkIdx (row.set setIdx setVal) = pkVal tab.pkIdx row := by
  unfold pkVal
  cases hp : tab.pkIdx with
  | none => rfl
  | some p =>
      have hne : setIdx ≠ p := fun heq => h (by rw [hp, heq])
      rw [Option.bind_some, Option.bind_some, cell_set_ne hne]

theorem ukText_set {c : Nat} (h : setIdx ≠ c) (row : Row) :
    ukText c (row.set setIdx setVal) = ukText c row := by
  unfold ukText
  rw [cell_set_ne h]

/-- The constraints on the result are those on the changed column. -/
theorem constraints_updRows (hcon : tab.Constraints) (hpk : tab.pkIdx ≠ some setIdx) :
    ({ tab with rows := tab.updRows stmt setIdx setVal } : TabVer).Constraints ↔
      (setIdx ∈ tab.ukIdx → Distinct (ukText setIdx) (tab.updRows stmt setIdx setVal)) := by
  constructor
  · exact fun h hmem => h.ukDistinct setIdx hmem
  · intro h
    refine ⟨?_, ?_, ?_⟩
    · intro p hp row hrow
      have hne : setIdx ≠ p := fun heq => hpk (by rw [heq]; exact hp)
      obtain ⟨old, hold, rfl | rfl⟩ := updRows_mem hrow
      · exact hcon.pkInt p hp row hold
      · rw [cell_set_ne hne]
        exact hcon.pkInt p hp old hold
    · intro i j k hi hj
      simp only [keyAt_updRows (pkVal_set hpk)] at hi hj
      exact hcon.pkDistinct i j k hi hj
    · intro c hc
      by_cases heq : setIdx = c
      · subst heq
        exact h hc
      · intro i j k hi hj
        simp only [keyAt_updRows (ukText_set heq)] at hi hj
        exact hcon.ukDistinct c hc i j k hi hj

theorem constraints_delRows (hcon : tab.Constraints) (stmt : Statement) :
    ({ tab with
      rows := tab.rows.filter fun row => !tab.rowMatch stmt row
      slots := tab.rows.length } : TabVer).Constraints := by
  have hsub : (tab.rows.filter fun row => !tab.rowMatch stmt row).Sublist tab.rows :=
    List.filter_sublist
  exact ⟨fun p hp row hrow => hcon.pkInt p hp row (hsub.subset hrow),
    hcon.pkDistinct.sublist hsub, fun c hc => (hcon.ukDistinct c hc).sublist hsub⟩

theorem Shape.mem_ukIdx (hs : tab.Shape) {c : Nat} :
    c ∈ tab.ukIdx ↔ c < tab.cols.length ∧ tab.colType c = .uk := by
  rw [hs.ukIdx]
  exact mem_colsOf

theorem colIdx_lt {name : Bytes} (h : tab.colIdx name = some setIdx) : setIdx < tab.cols.length :=
  (List.findIdx?_eq_some_iff_getElem.1 h).1

theorem not_distinct_of_chkDup (hs : tab.Shape) (huk : UkFiled tab.rows tab.ukIdx tab.ukTree)
    {i : Nat} {row : Row} (hrow : tab.rows[i]? = some row) (hmatch : tab.rowMatch stmt row = true)
    (hlt : setIdx < tab.cols.length) (hdup : tab.chkDupUk setIdx setVal (some i) = true) :
    ¬ Distinct (ukText setIdx) (tab.updRows stmt setIdx setVal) := by
  unfold chkDupUk at hdup
  split at hdup
  · cases hdup
  · rename_i slot hslot
    split at hdup
    · cases hdup
    · split at hdup
      · cases hdup
      · rename_i j hsearch
        have hne : i ≠ j := by
          rintro rfl
          simp at hdup
        have hfiled := ukFiled_at huk (ukIdx_of_ukSlot hslot)
        rw [← ukTreeAt] at hfiled
        rw [hfiled.search_eq_some] at hsearch
        obtain ⟨other, hother, hkey⟩ := Option.bind_eq_some_iff.1 hsearch
        have hval := ukText_eq_some.1 hkey
        have hnew : ∀ r ∈ tab.rows, ukText setIdx (r.set setIdx setVal) =
            some (normV RECORD_SIZE setVal) := by
          intro r hr
          rw [ukText_eq_some, cell_set_self (by rw [hs.cells r hr]; exact hlt)]
          exact ⟨hval.2 ▸ hval.1, rfl⟩
        intro hdistinct
        refine hne (hdistinct i j (normV RECORD_SIZE setVal) ?_ ?_)
        · unfold keyAt
          rw [updRows_getElem?, hrow, Option.map_some, if_pos hmatch]
          exact hnew row (List.mem_of_getElem? hrow)
        · unfold keyAt
          rw [updRows_getElem?, hother, Option.map_some, Option.bind_some]
          split
          · exact hnew other (List.mem_of_getElem? hother)
          · exact hkey

/-! ## UPDATE -/

/-- What an accepted UPDATE leaves: the replaced rows and indexes of exactly these. -/
structure UpdatedTo (tab tab' : TabVer) (stmt : Statement) (setIdx : Nat) : Prop where
  rows : tab'.rows = tab.updRows stmt setIdx (normV 256 stmt.setVal.bytes)
  schema : SameSchema tab tab'
  nextId : tab'.nextId = tab.nextId
  indexes : tab'.IndexOk

/-- What an accepted DELETE leaves. -/
structure DeletedTo (tab tab' : TabVer) (stmt : Statement) : Prop where
  rows : tab'.rows = tab.rows.filter fun row => !tab.rowMatch stmt row
  schema : SameSchema tab tab'
  nextId : tab'.nextId = tab.nextId
  indexes : tab'.IndexOk

theorem rebuild_of_constraints (res : DbRes) (h : tab.Constraints) :
    ∃ tab', tab.rebuild res = (tab', res, true) ∧ SameButTrees tab tab' ∧ tab'.IndexOk := by
  have hok := (idxBuild_ok_iff tab).2 h
  cases hb : tab.idxBuild with
  | mk tab' ok =>
      rw [hb] at hok
      have hok : ok = true := hok
      subst hok
      obtain ⟨hsame, hcon, hidx⟩ := idxBuild_spec hb
      refine ⟨tab', ?_, hsame, .of_built hcon hidx⟩
      unfold rebuild
      rw [hb]

theorem rebuild_of_not_constraints (res : DbRes) (h : ¬ tab.Constraints) :
    (tab.rebuild res).2.2 = false := by
  have hok := mt (idxBuild_ok_iff tab).1 h
  unfold rebuild
  cases hb : tab.idxBuild with
  | mk tab' ok =>
      rw [hb] at hok
      cases ok with
      | true => exact absurd rfl hok
      | false => rfl

/-- The first loop of `upd_do`. -/
def updRejects (tab : TabVer) (stmt : Statement) (setIdx : Nat) (setVal : Bytes) : Bool :=
  (List.range tab.rows.length).any fun i =>
    tab.rowMatch stmt (tab.rows.getD i []) && tab.colType setIdx == .uk &&
      tab.chkDupUk setIdx setVal (some i)

theorem updDo_eq {res : DbRes} (hwhere : stmt.whereConditions ≠ [])
    (hcol : tab.colIdx stmt.setCol.bytes = some setIdx) (hpk : tab.pkIdx ≠ some setIdx)
    (hnn : ¬ (tab.colType setIdx = .nn ∧ normV 256 stmt.setVal.bytes = [])) :
    tab.updDo stmt res =
      if tab.updRejects stmt setIdx (normV 256 stmt.setVal.bytes) then
        (tab, res.fail .badSql "duplicate UK", false)
      else
        let res := { res with count := res.count + tab.rows.countP (tab.rowMatch stmt) }
        let tab := { tab with rows := tab.updRows stmt setIdx (normV 256 stmt.setVal.bytes) }
        if res.count = 0 then (tab, res, true) else tab.rebuild res := by
  unfold updDo
  rw [if_neg hwhere, hcol]
  simp only
  rw [if_neg hpk, if_neg hnn]
  rfl

theorem updRejects_spec (hs : tab.Shape) (huk : UkFiled tab.rows tab.ukIdx tab.ukTree)
    (hlt : setIdx < tab.cols.length) (h : tab.updRejects stmt setIdx setVal = true) :
    tab.colType setIdx = .uk ∧ ¬ Distinct (ukText setIdx) (tab.updRows stmt setIdx setVal) := by
  obtain ⟨i, hi, hall⟩ := List.any_eq_true.1 h
  simp only [Bool.and_eq_true, beq_iff_eq] at hall
  obtain ⟨⟨hmatch, htype⟩, hdup⟩ := hall
  have hrow : tab.rows[i]? = some (tab.rows.getD i []) := by
    rw [List.getD_eq_getElem?_getD, List.getElem?_eq_getElem (List.mem_range.1 hi)]
    rfl
  exact ⟨htype, not_distinct_of_chkDup hs huk hrow hmatch hlt hdup⟩

/-- UPDATE and DELETE have exactly their relational effect. -/
theorem updDo_delDo_relational (hs : tab.Shape) (hsound : tab.Sound)
    (hwhere : stmt.whereConditions ≠ []) {res : DbRes} (hclear : res.count = 0) :
    (∀ setIdx, tab.colIdx stmt.setCol.bytes = some setIdx → tab.pkIdx ≠ some setIdx →
      ¬ (tab.colType setIdx = .nn ∧ normV 256 stmt.setVal.bytes = []) →
      ((tab.updDo stmt res).2.2 = true ↔ (tab.colType setIdx = .uk → Distinct (ukText setIdx)
        (tab.updRows stmt setIdx (normV 256 stmt.setVal.bytes)))) ∧
      ((tab.updDo stmt res).2.2 = true → UpdatedTo tab (tab.updDo stmt res).1 stmt setIdx ∧
        (tab.updDo stmt res).2.1 = { res with count := tab.rows.countP (tab.rowMatch stmt) })) ∧
    (tab.delDo stmt res).2.2 = true ∧ DeletedTo tab (tab.delDo stmt res).1 stmt ∧
      (tab.delDo stmt res).2.1 = { res with count := tab.rows.countP (tab.rowMatch stmt) } := by
  have hcon := hsound.toIndexOk.constraints
  refine ⟨fun setIdx hcol hpk hnn => ?_, ?_⟩
  · have hlt := colIdx_lt hcol
    have hiff := @constraints_updRows tab stmt setIdx (normV 256 stmt.setVal.bytes) hcon hpk
    rw [hs.mem_ukIdx] at hiff
    rw [updDo_eq hwhere hcol hpk hnn]
    by_cases hrej : tab.updRejects stmt setIdx (normV 256 stmt.setVal.bytes) = true
    · rw [if_pos hrej]
      obtain ⟨htype, hnot⟩ := updRejects_spec hs hsound.uk hlt hrej
      exact ⟨iff_of_false (by simp) fun h => hnot (h htype), fun h => nomatch h⟩
    · rw [if_neg hrej]
      simp only [hclear, Nat.zero_add]
      split
      · rename_i hzero
        have hself : tab.updRows stmt setIdx (normV 256 stmt.setVal.bytes) = tab.rows :=
          updRows_eq_self hzero
        rw [hself]
        refine ⟨iff_of_true rfl fun htype => ?_, fun _ => ⟨⟨hself.symm, ?_, rfl, ?_⟩, rfl⟩⟩
        · exact hcon.ukDistinct setIdx (hs.mem_ukIdx.2 ⟨hlt, htype⟩)
        · exact SameSchema.refl tab
        · exact hsound.toIndexOk
      · generalize hrows : tab.updRows stmt setIdx (normV 256 stmt.setVal.bytes) = rows at *
        by_cases hnew : ({ tab with rows := rows } : TabVer).Constraints
        · obtain ⟨tab', hrebuild, hsame, hindex⟩ := rebuild_of_constraints
            { res with count := tab.rows.countP (tab.rowMatch stmt) } hnew
          rw [hrebuild]
          refine ⟨iff_of_true rfl fun htype => hiff.1 hnew ⟨hlt, htype⟩,
            fun _ => ⟨⟨?_, ?_, ?_, hindex⟩, rfl⟩⟩
          · rw [hsame, hrows]
          · exact ⟨hsame.schema.name, hsame.schema.cols, hsame.schema.pkIdx, hsame.schema.ukIdx⟩
          · rw [hsame]
        · have hfalse := rebuild_of_not_constraints
            { res with count := tab.rows.countP (tab.rowMatch stmt) } hnew
          refine ⟨iff_of_false (by rw [hfalse]; simp) fun h => ?_, fun h => ?_⟩
          · exact hnew (hiff.2 fun hmem => h hmem.2)
          · rw [hfalse] at h
            exact nomatch h
  · obtain ⟨tab', hrebuild, hsame, hindex⟩ := rebuild_of_constraints
      { res with count := tab.rows.countP (tab.rowMatch stmt) } (constraints_delRows hcon stmt)
    have hdel : tab.delDo stmt res =
        (tab', { res with count := tab.rows.countP (tab.rowMatch stmt) }, true) := by
      unfold delDo
      rw [if_neg hwhere, ← hrebuild]
      simp only [hclear, Nat.zero_add]
    rw [hdel]
    refine ⟨rfl, ⟨?_, ?_, ?_, hindex⟩, rfl⟩
    · rw [hsame]
    · exact ⟨hsame.schema.name, hsame.schema.cols, hsame.schema.pkIdx, hsame.schema.ukIdx⟩
    · rw [hsame]

instance (tab : TabVer) : Decidable tab.NnOk :=
  inferInstanceAs (Decidable (∀ row ∈ tab.rows, ∀ i < tab.cols.length,
    tab.colType i = .nn → cell row i ≠ []))

theorem sound_of_tabLoad {name : Bytes} {file : Option Bytes}
    (h : tabLoad name file = .ok (some tab)) (hnn : tab.NnOk) : tab.Shape ∧ tab.Sound := by
  obtain ⟨hshape, -, -, hcon, hidx⟩ := tabLoad_shape h
  exact ⟨hshape, .of_built hcon hidx, hnn⟩

/-- An UPDATE of the unique column that the other row does not stand in the way of. -/
theorem updDo_delDo_relational_unique : ∃ tab stmt,
    tabLoad (str "t") (some (str "id(PK),u(UK)\n1,x\n2,y\n")) = .ok (some tab) ∧
    parseStatement (str "UPDATE t SET u = 'z' WHERE id = 1") = some stmt ∧
    UpdatedTo tab (tab.updDo stmt {}).1 stmt 1 ∧ DeletedTo tab (tab.delDo stmt {}).1 stmt := by
  obtain ⟨tab, hload, htest⟩ := exists_of_loadsAnd (str "t") (str "id(PK),u(UK)\n1,x\n2,y\n")
    (fun tab => decide tab.NnOk &&
      (parseStatement (str "UPDATE t SET u = 'z' WHERE id = 1")).any fun stmt : Statement =>
        decide (stmt.whereConditions ≠ [] ∧ tab.colIdx stmt.setCol.bytes = some 1 ∧
          tab.pkIdx ≠ some 1 ∧ tab.colType 1 = .uk ∧ (tab.updDo stmt {}).2.2 = true))
    (by decide +kernel)
  obtain ⟨hnn, htest⟩ := Bool.and_eq_true_iff.1 htest
  obtain ⟨stmt, hstmt, htest⟩ := (Option.any_eq_true _ _).1 htest
  obtain ⟨hwhere, hcol, hpk, htype, hok⟩ := of_decide_eq_true htest
  obtain ⟨hshape, hsound⟩ := sound_of_tabLoad hload (of_decide_eq_true hnn)
  obtain ⟨hupd, -, hdel, -⟩ := updDo_delDo_relational hshape hsound hwhere (rfl : ({} : DbRes).count = 0)
  have hnew := (hupd 1 hcol hpk (by rw [htype]; simp)).2 hok
  exact ⟨tab, stmt, hload, hstmt, hnew.1, hdel⟩

end TabVer

end MiniDbms
