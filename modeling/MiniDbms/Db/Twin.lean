import MiniDbms.Db.Select
import MiniDbms.Db.Session

/-!
# Two copies of one table

A transaction keeps one working copy and changes its trees statement by statement;
autocommit clones the table and rebuilds the trees every time.  Two copies with the
same rows and complete indexes cannot be told apart by any statement.
-/

namespace MiniDbms

open Bptree

/-- Two results that a client cannot tell apart, but for the snapshot id. -/
structure SameRes (r r' : DbRes) : Prop where
  rows : r'.rows = r.rows
  count : r'.count = r.count
  lastId : r'.lastId = r.lastId

namespace TabVer

/-- Another copy of a table. -/
def recast (w : TabVer) (cap slots ver : Nat) (pkTree : BPlusTree Int) (ukTree : List (BPlusTree Bytes)) :
    TabVer :=
  { w with rowCap := cap, slots := slots, verId := ver, pkTree := pkTree, ukTree := ukTree }

/-- The same rows and counters; the room for rows, the version number and the shape of
the trees may differ. -/
def SameContent (w c : TabVer) : Prop :=
  c = w.recast c.rowCap c.slots c.verId c.pkTree c.ukTree

structure Twin (w c : TabVer) : Prop where
  same : SameContent w c
  left : w.IndexOk
  right : c.IndexOk
  shape : w.Shape

variable {w c : TabVer} {stmt : Statement}

theorem SameContent.cases (h : SameContent w c) :
    ∃ cap slots ver pkTree ukTree, c = w.recast cap slots ver pkTree ukTree :=
  ⟨_, _, _, _, _, h⟩

theorem SameContent.fields (h : SameContent w c) :
    c.rows = w.rows ∧ c.pkIdx = w.pkIdx ∧ c.ukIdx = w.ukIdx ∧ c.nextId = w.nextId := by
  rw [h]
  exact ⟨rfl, rfl, rfl, rfl⟩

theorem Twin.search_uk (h : Twin w c) {slot idx : Nat} (hslot : w.ukIdx[slot]? = some idx)
    (k : Bytes) : search (c.ukTreeAt slot) k = search (w.ukTreeAt slot) k := by
  obtain ⟨cap, slots, ver, pkTree, ukTree, rfl⟩ := h.same.cases
  exact (ukFiled_at h.left.uk hslot).search_congr (ukFiled_at h.right.uk hslot) k

theorem Twin.search_pk (h : Twin w c) {p : Nat} (hp : w.pkIdx = some p) (k : Int) :
    search c.pkTree k = search w.pkTree k := by
  obtain ⟨cap, slots, ver, pkTree, ukTree, rfl⟩ := h.same.cases
  exact (h.left.pk p hp).search_congr (h.right.pk p hp) k

/-! ## SELECT -/

theorem Twin.selDo (h : Twin w c) (res : DbRes) : c.selDo stmt res = w.selDo stmt res := by
  have hpk := fun p (hp : w.pkIdx = some p) => h.search_pk hp
  have huk := fun slot idx (hs : w.ukIdx[slot]? = some idx) => h.search_uk hs
  obtain ⟨cap, slots, ver, pkTree, ukTree, rfl⟩ := h.same.cases
  unfold TabVer.selDo
  have hcols : (w.recast cap slots ver pkTree ukTree).selCols stmt = w.selCols stmt := rfl
  have hpath : (w.recast cap slots ver pkTree ukTree).path stmt = w.path stmt := rfl
  rw [hcols, hpath]
  cases w.selCols stmt with
  | none => rfl
  | some selIdx =>
      dsimp only
      have hpicked := w.path_picked stmt
      generalize w.path stmt = path at hpicked
      cases path with
      | scan => rfl
      | pkEq val =>
          obtain hscan | ⟨cond, -, idx, -, -, hp, -⟩ := hpicked
          · cases hscan
          · unfold selPath
            dsimp only at hpk ⊢
            simp only [hpk idx hp]
            rfl
      | ukEq slot val =>
          obtain hscan | ⟨cond, -, idx, -, -, hs, -⟩ := hpicked
          · cases hscan
          · unfold selPath
            dsimp only
            rw [huk slot idx hs]
            rfl
      | pkRange lo hi =>
          obtain hscan | ⟨cond, -, idx, -, -, hp, -⟩ := hpicked
          · cases hscan
          · unfold selPath
            dsimp only
            cases parseL lo with
            | none => rfl
            | some a0 =>
                cases parseL hi with
                | none => rfl
                | some a1 =>
                    exact (h.left.pk idx hp).rangeSearch_congr (h.right.pk idx hp) a0 a1
                      (fun res _ i => w.selVis stmt selIdx res i) res
      | ukRange slot lo hi =>
          obtain hscan | ⟨cond, -, idx, -, -, -, hs, -⟩ := hpicked
          · cases hscan
          · unfold selPath
            dsimp only
            exact (ukFiled_at h.left.uk hs).rangeSearch_congr (ukFiled_at h.right.uk hs) _ _
              (fun res _ i => w.selVis stmt selIdx res i) res

theorem selVis_snap (tab : TabVer) (stmt : Statement) (selIdx : List Nat) (snap : Nat) (res : DbRes)
    (i : Nat) : tab.selVis stmt selIdx { res with snapId := snap } i =
      { tab.selVis stmt selIdx res i with snapId := snap } := by
  unfold selVis
  split
  · rfl
  · split
    · rfl
    · rfl

theorem selDo_snap (tab : TabVer) (stmt : Statement) (snap : Nat) (res : DbRes) :
    tab.selDo stmt { res with snapId := snap } =
      ({ (tab.selDo stmt res).1 with snapId := snap }, (tab.selDo stmt res).2) := by
  unfold TabVer.selDo
  cases tab.selCols stmt with
  | none => rfl
  | some selIdx =>
      dsimp only
      have hvis := tab.selVis_snap stmt selIdx snap
      cases tab.path stmt with
      | pkEq val =>
          unfold selPath
          dsimp only
          cases parseL val with
          | none => rfl
          | some key =>
              dsimp only
              cases search tab.pkTree key with
              | none => rfl
              | some i =>
                  dsimp only
                  rw [selVis_snap]
      | ukEq slot val =>
          unfold selPath
          dsimp only
          cases search (tab.ukTreeAt slot) (normV RECORD_SIZE val) with
          | none => rfl
          | some i =>
              dsimp only
              rw [selVis_snap]
      | pkRange lo hi =>
          unfold selPath
          dsimp only
          cases parseL lo with
          | none => rfl
          | some a0 =>
              cases parseL hi with
              | none => rfl
              | some a1 =>
                  exact rangeSearch_map (fun r : DbRes => { r with snapId := snap })
                    (fun r _ i => tab.selVis stmt selIdx r i)
                    (fun r _ i => tab.selVis stmt selIdx r i) (fun r _ i => hvis r i) tab.pkTree
                    a0 a1 res
      | ukRange slot lo hi =>
          unfold selPath
          dsimp only
          exact rangeSearch_map (fun r : DbRes => { r with snapId := snap })
            (fun r _ i => tab.selVis stmt selIdx r i) (fun r _ i => tab.selVis stmt selIdx r i)
            (fun r _ i => hvis r i) (tab.ukTreeAt slot) _ _ res
      | scan =>
          unfold selPath
          dsimp only
          congr 1
          generalize tab.rows = rows
          induction rows generalizing res with
          | nil => rfl
          | cons row rows ih =>
              rw [List.foldl_cons, List.foldl_cons]
              split
              · exact ih (tab.resAdd selIdx res row)
              · exact ih res

theorem selDo_sameRes (tab : TabVer) (stmt : Statement) (snap snap' : Nat) :
    SameRes (tab.selDo stmt { snapId := snap }).1 (tab.selDo stmt { snapId := snap' }).1 ∧
      (tab.selDo stmt { snapId := snap' }).2 = (tab.selDo stmt { snapId := snap }).2 := by
  have h := tab.selDo_snap stmt snap' { snapId := snap }
  rw [show ({ ({ snapId := snap } : DbRes) with snapId := snap' } : DbRes) = { snapId := snap' }
    from rfl] at h
  rw [h]
  exact ⟨⟨rfl, rfl, rfl⟩, rfl⟩

/-! ## INSERT -/

theorem Twin.chkDupUk (h : Twin w c) (idx : Nat) (val : Bytes) (skip : Option Nat) :
    c.chkDupUk idx val skip = w.chkDupUk idx val skip := by
  have huk := fun slot idx (hs : w.ukIdx[slot]? = some idx) => h.search_uk hs
  obtain ⟨cap, slots, ver, pkTree, ukTree, rfl⟩ := h.same.cases
  unfold TabVer.chkDupUk
  have hslot : (w.recast cap slots ver pkTree ukTree).ukSlot idx = w.ukSlot idx := rfl
  rw [hslot]
  cases hs : w.ukSlot idx with
  | none => rfl
  | some slot =>
      dsimp only
      rw [huk slot idx (ukIdx_of_ukSlot hs)]

theorem Twin.chkDupPk (h : Twin w c) (key : Int) : c.chkDupPk key = w.chkDupPk key := by
  unfold TabVer.chkDupPk
  obtain ⟨-, hidx, -, -⟩ := h.same.fields
  rw [hidx]
  cases hp : w.pkIdx with
  | none => rfl
  | some p => rw [h.search_pk hp]

/-- The PK tree of a table without a PK column, before an INSERT used it. -/
def PkUnused (tab : TabVer) : Prop := tab.pkIdx = none → Indexes tab.pkTree fun _ => none

theorem Indexed.pkUnused {tab : TabVer} (h : tab.Indexed) : tab.PkUnused := by
  intro hp
  have hpk := h.pk
  rw [hp] at hpk
  have hkey : keyAt (pkVal none) tab.rows = fun _ => none := by
    funext i
    unfold keyAt
    cases tab.rows[i]? <;> rfl
  rwa [hkey] at hpk

theorem bptreeInsert_isSome {tree : BPlusTree Int} {key : Nat → Option Int} (h : Indexes tree key)
    {n : Nat} (hn : key n = none) (k : Int) :
    (bptreeInsert tree k n).isSome = true ↔ ∀ i, key i ≠ some k := by
  have hf := bptreeInsert_indexes h hn k
  cases hb : bptreeInsert tree k n with
  | none =>
      rw [hb] at hf
      obtain ⟨i, hi⟩ := hf
      simp only [Option.isSome_none, Bool.false_eq_true, false_iff, not_forall, not_not]
      exact ⟨i, hi⟩
  | some tree' =>
      rw [hb] at hf
      exact ⟨fun _ => hf.1, fun _ => rfl⟩

theorem Twin.pkInsert (h : Twin w c) (hw : w.PkUnused) (hc : c.PkUnused) (k : Int) :
    (bptreeInsert c.pkTree k w.rows.length).isSome =
      (bptreeInsert w.pkTree k w.rows.length).isSome := by
  obtain ⟨hrows, hidx, -, -⟩ := h.same.fields
  rw [Bool.eq_iff_iff]
  cases hp : w.pkIdx with
  | none =>
      rw [bptreeInsert_isSome (hw hp) rfl, bptreeInsert_isSome (hc (hidx.trans hp)) rfl]
  | some p =>
      have hr := h.right.pk p (hidx.trans hp)
      rw [hidx, hrows] at hr
      rw [bptreeInsert_isSome (h.left.pk p hp) keyAt_length, bptreeInsert_isSome hr keyAt_length]

theorem ukEnter_iff {row : Row} {rows : List Row} {cols : List Nat} {trees : List (BPlusTree Bytes)}
    (h : UkFiled rows cols trees) : (ukEnter row rows.length cols trees).2 = true ↔
      ∀ c ∈ cols, ∀ k, ukText c row = some k → ∀ i, keyAt (ukText c) rows i ≠ some k := by
  have hs := ukEnter_spec row rows cols trees h
  rcases hres : ukEnter row rows.length cols trees with ⟨trees', _ | _⟩
  · rw [hres] at hs
    obtain ⟨c, hc, k, hk, i, hi⟩ := hs
    simp only [Bool.false_eq_true, false_iff]
    exact fun hall => hall c hc k hk i hi
  · rw [hres] at hs
    exact ⟨fun _ => hs.2, fun _ => rfl⟩

theorem Twin.ukInsert (h : Twin w c) (row : Row) :
    (ukEnter row w.rows.length w.ukIdx c.ukTree).2 =
      (ukEnter row w.rows.length w.ukIdx w.ukTree).2 := by
  have hr := h.right.uk
  rw [h.same.fields.1, h.same.fields.2.2.1] at hr
  rw [Bool.eq_iff_iff, ukEnter_iff hr, ukEnter_iff h.left.uk]

theorem insRow_flag (tab : TabVer) (row : Row) (newId : Int) (res : DbRes) :
    (tab.insRow row newId res).2.2 = (!tab.chkDupPk newId &&
      !(tab.ukIdx.any fun idx => tab.chkDupUk idx (cell row idx) none) &&
      (bptreeInsert tab.pkTree newId tab.rows.length).isSome &&
      (ukEnter row tab.rows.length tab.ukIdx tab.ukTree).2) := by
  unfold insRow
  cases tab.chkDupPk newId with
  | true => rfl
  | false =>
      cases tab.ukIdx.any fun idx => tab.chkDupUk idx (cell row idx) none with
      | true => rfl
      | false =>
          simp only [Bool.false_eq_true, if_false, Bool.not_false, Bool.true_and]
          cases hb : bptreeInsert tab.pkTree newId tab.rows.length with
          | none => rfl
          | some pkTree =>
              dsimp only
              rcases ukEnter row tab.rows.length tab.ukIdx tab.ukTree with ⟨trees, _ | _⟩
              · rfl
              · rfl

/-- Whether INSERT succeeds with these values. -/
def insFlag (tab : TabVer) (vals : List Bytes) : Bool :=
  decide (tab.rows.length < MAX_RECORDS) && (tab.rowNew vals).2.any fun new =>
    !tab.chkDupPk new.2 && !(tab.ukIdx.any fun idx => tab.chkDupUk idx (cell new.1 idx) none) &&
      (bptreeInsert tab.pkTree new.2 tab.rows.length).isSome &&
      (ukEnter new.1 tab.rows.length tab.ukIdx tab.ukTree).2

theorem insDo_flag {tab : TabVer} (h : ¬ tab.Overruns) (stmt : Statement) (res : DbRes) :
    ∃ tab' res', tab.insDo stmt res =
      .ok (tab', res', tab.insFlag (splitCsv stmt.rowData.bytes)) := by
  unfold insDo insFlag
  dsimp only
  by_cases hmax : MAX_RECORDS ≤ tab.rows.length
  · rw [if_pos hmax, decide_eq_false (Nat.not_lt.2 hmax)]
    exact ⟨_, _, rfl⟩
  · rw [if_neg hmax, decide_eq_true (Nat.lt_of_not_le hmax), Bool.true_and]
    have hle : tab.rows.length + 1 ≤ rowCapMax := by
      have : MAX_RECORDS ≤ rowCapMax := by decide
      omega
    have hsome : (tab.ensureRowCap (tab.rows.length + 1)).isSome := ensureRowCap_isSome hle
    obtain ⟨tab₁, hcap⟩ := Option.isSome_iff_exists.1 hsome
    have hroom : ¬ tab₁.slots ≤ tab.rows.length := by
      intro hslots
      unfold ensureRowCap at hcap
      split at hcap
      · rename_i hneed
        cases hcap
        exact h ⟨Nat.lt_of_not_le hmax, hneed, hslots⟩
      · obtain ⟨cap, hgrow, rfl⟩ := Option.map_eq_some_iff.1 hcap
        have := growCap_le hgrow
        dsimp only at hslots
        omega
    rw [hcap]
    obtain ⟨cap, slots, rfl⟩ : ∃ cap slots, tab₁ = { tab with rowCap := cap, slots := slots } :=
      ⟨_, _, ensureRowCap_spec hcap⟩
    have hnew : TabVer.rowNew { tab with rowCap := cap, slots := slots }
        (splitCsv stmt.rowData.bytes) = tab.rowNew (splitCsv stmt.rowData.bytes) := rfl
    dsimp only
    rw [if_neg hroom, hnew]
    rcases tab.rowNew (splitCsv stmt.rowData.bytes) with ⟨nextId, _ | ⟨row, newId⟩⟩
    · exact ⟨_, _, rfl⟩
    · have hflag := insRow_flag { tab with rowCap := cap, slots := slots, nextId := nextId } row
        newId res
      generalize hr : TabVer.insRow { tab with rowCap := cap, slots := slots, nextId := nextId }
        row newId res = r at hflag
      refine ⟨r.1, r.2.1, ?_⟩
      dsimp only
      rw [hr]
      exact congrArg Except.ok (Prod.ext rfl (Prod.ext rfl hflag))

theorem Twin.insDo (h : Twin w c) (hw : ¬ w.Overruns) (hc : ¬ c.Overruns) (hwu : w.PkUnused)
    (hcu : c.PkUnused) (hkept : w.PkTextKept stmt) {r r' : DbRes} (hres : SameRes r r') :
    ∃ w' rw c' rc ok, w.insDo stmt r = .ok (w', rw, ok) ∧ c.insDo stmt r' = .ok (c', rc, ok) ∧
      (ok = true → Twin w' c' ∧ SameRes rw rc) := by
  obtain ⟨w', rw', hrunw⟩ := insDo_flag hw stmt r
  obtain ⟨c', rc', hrunc⟩ := insDo_flag hc stmt r'
  have hflag : c.insFlag (splitCsv stmt.rowData.bytes) =
      w.insFlag (splitCsv stmt.rowData.bytes) := by
    unfold insFlag
    obtain ⟨hrows, -, hukIdx, -⟩ := h.same.fields
    have hnew : c.rowNew (splitCsv stmt.rowData.bytes) =
        w.rowNew (splitCsv stmt.rowData.bytes) := by
      rw [h.same]
      rfl
    rw [hnew, hrows, hukIdx]
    congr 2
    funext new
    rw [h.chkDupPk, h.pkInsert hwu hcu, h.ukInsert]
    simp only [h.chkDupUk]
  rw [hflag] at hrunc
  refine ⟨w', rw', c', rc', _, hrunw, hrunc, ?_⟩
  intro hok
  rw [hok] at hrunw hrunc
  have hkept' : c.PkTextKept stmt := by
    unfold PkTextKept pkText
    rw [h.same]
    exact hkept
  have hshape' : c.Shape := by
    have hs := h.shape
    rw [h.same]
    exact ⟨hs.1, hs.2, hs.3, hs.4, hs.5, hs.6, hs.7, hs.8, hs.9, hs.10⟩
  obtain ⟨row, newId, hrw, hew⟩ := insDo_entered hrunw
  obtain ⟨row', newId', hrc, hec⟩ := insDo_entered hrunc
  have hvals := hec.values
  rw [show c.rowNew (splitCsv stmt.rowData.bytes) = w.rowNew (splitCsv stmt.rowData.bytes) by
    rw [h.same]; rfl, hew.values] at hvals
  obtain ⟨hnext, hnew⟩ := Prod.mk.injEq .. ▸ hvals
  cases hnew
  refine ⟨⟨?_, h.left.insDo h.shape hkept hrunw, h.right.insDo hshape' hkept' hrunc,
    h.shape.insDo hrunw⟩, ?_⟩
  · unfold SameContent
    have hc' := hec.frame
    rw [h.same] at hc'
    rw [hew.frame]
    rw [hc', hnext]
    rfl
  · rw [hrw, hrc]
    exact ⟨hres.rows, rfl, rfl⟩

/-! ## UPDATE and DELETE -/

theorem SameContent.constraints_iff (h : SameContent w c) : c.Constraints ↔ w.Constraints := by
  rw [h]
  exact ⟨fun ⟨h₁, h₂, h₃⟩ => ⟨h₁, h₂, h₃⟩, fun ⟨h₁, h₂, h₃⟩ => ⟨h₁, h₂, h₃⟩⟩

theorem rebuild_flag (tab : TabVer) (res : DbRes) :
    (tab.rebuild res).2.2 = true ↔ tab.Constraints := by
  rw [← idxBuild_ok_iff]
  unfold rebuild
  rcases tab.idxBuild with ⟨tab', _ | _⟩
  · simp
  · simp

theorem SameContent.rebuild (h : SameContent w c) {r r' : DbRes} (hres : SameRes r r') :
    ∃ w' rw c' rc ok, w.rebuild r = (w', rw, ok) ∧ c.rebuild r' = (c', rc, ok) ∧
      (ok = true → SameContent w' c' ∧ SameRes rw rc) := by
  have hflag : (c.rebuild r').2.2 = (w.rebuild r).2.2 := by
    rw [Bool.eq_iff_iff, rebuild_flag, rebuild_flag, h.constraints_iff]
  refine ⟨(w.rebuild r).1, (w.rebuild r).2.1, (c.rebuild r').1, (c.rebuild r').2.1,
    (w.rebuild r).2.2, rfl, by rw [← hflag], ?_⟩
  intro hok
  obtain ⟨hsw, htw⟩ := rebuild_cases (show w.rebuild r = (_, _, true) by rw [← hok])
  obtain ⟨hsc, htc⟩ := rebuild_cases (show c.rebuild r' = (_, _, true) by rw [← hok, ← hflag])
  refine ⟨?_, ?_⟩
  · unfold SameContent
    generalize (c.rebuild r').1 = c' at hsc
    generalize (w.rebuild r).1 = w' at hsw
    rw [hsc, h, hsw]
    rfl
  · rw [(htw rfl).1, (htc rfl).1]
    exact hres

theorem Twin.updDo (h : Twin w c) (stmt : Statement) {r r' : DbRes} (hres : SameRes r r') :
    ∃ w' rw c' rc ok, w.updDo stmt r = (w', rw, ok) ∧ c.updDo stmt r' = (c', rc, ok) ∧
      (ok = true → SameContent w' c' ∧ SameRes rw rc) := by
  have hdup := h.chkDupUk
  have hsame := h.same
  obtain ⟨cap, slots, ver, pkTree, ukTree, rfl⟩ := h.same.cases
  unfold TabVer.updDo
  by_cases hwhere : stmt.whereConditions = []
  · simp only [hwhere, if_true]
    exact ⟨_, _, _, _, _, rfl, rfl, by simp⟩
  · simp only [hwhere, if_false]
    have hcol : (w.recast cap slots ver pkTree ukTree).colIdx stmt.setCol.bytes =
        w.colIdx stmt.setCol.bytes := rfl
    rw [hcol]
    cases w.colIdx stmt.setCol.bytes with
    | none => exact ⟨_, _, _, _, _, rfl, rfl, by simp⟩
    | some setIdx =>
        dsimp only
        have hpk : (w.recast cap slots ver pkTree ukTree).pkIdx = w.pkIdx := rfl
        have htype : (w.recast cap slots ver pkTree ukTree).colType setIdx =
            w.colType setIdx := rfl
        have hrows : (w.recast cap slots ver pkTree ukTree).rows = w.rows := rfl
        have hmatch : (w.recast cap slots ver pkTree ukTree).rowMatch stmt =
            w.rowMatch stmt := rfl
        rw [hpk, htype, hrows, hmatch]
        simp only [hdup]
        split
        · exact ⟨_, _, _, _, _, rfl, rfl, by simp⟩
        · split
          · exact ⟨_, _, _, _, _, rfl, rfl, by simp⟩
          · split
            · exact ⟨_, _, _, _, _, rfl, rfl, by simp⟩
            · rw [hres.count]
              have hres' : SameRes
                  { r with count := r.count + w.rows.countP (w.rowMatch stmt) }
                  { r' with count := r.count + w.rows.countP (w.rowMatch stmt) } :=
                ⟨hres.rows, rfl, hres.lastId⟩
              split
              · refine ⟨_, _, _, _, _, rfl, rfl, fun _ => ⟨rfl, hres'⟩⟩
              · refine SameContent.rebuild ?_ hres'
                rfl

theorem Twin.delDo (h : Twin w c) (stmt : Statement) {r r' : DbRes} (hres : SameRes r r') :
    ∃ w' rw c' rc ok, w.delDo stmt r = (w', rw, ok) ∧ c.delDo stmt r' = (c', rc, ok) ∧
      (ok = true → SameContent w' c' ∧ SameRes rw rc) := by
  obtain ⟨cap, slots, ver, pkTree, ukTree, rfl⟩ := h.same.cases
  unfold TabVer.delDo
  by_cases hwhere : stmt.whereConditions = []
  · simp only [hwhere, if_true]
    exact ⟨_, _, _, _, _, rfl, rfl, by simp⟩
  · simp only [hwhere, if_false]
    have hres' : SameRes
        { r with count := r.count + w.rows.countP (w.rowMatch stmt) }
        { r' with count := r'.count + w.rows.countP (w.rowMatch stmt) } :=
      ⟨hres.rows, by rw [hres.count], hres.lastId⟩
    refine SameContent.rebuild ?_ hres'
    rfl

/-! ## Any write statement -/

theorem Twin.execStmt (h : Twin w c) (hwr : stmt.isWr = true) (hin : stmt.type = .insert →
      ¬ w.Overruns ∧ ¬ c.Overruns ∧ w.PkTextKept stmt ∧ w.PkUnused ∧ c.PkUnused) {r r' : DbRes}
    (hres : SameRes r r') :
    ∃ w' rw c' rc ok, w.execStmt stmt r = .ok (w', rw, ok) ∧
      c.execStmt stmt r' = .ok (c', rc, ok) ∧ (ok = true → Twin w' c' ∧ SameRes rw rc) := by
  have hshape' : c.Shape := by
    have hs := h.shape
    rw [h.same]
    exact ⟨hs.1, hs.2, hs.3, hs.4, hs.5, hs.6, hs.7, hs.8, hs.9, hs.10⟩
  have hkept' : stmt.type = .insert → c.PkTextKept stmt := by
    intro ht
    unfold PkTextKept pkText
    rw [h.same]
    exact (hin ht).2.2.1
  have hall : ∃ w' rw c' rc ok, w.execStmt stmt r = .ok (w', rw, ok) ∧
      c.execStmt stmt r' = .ok (c', rc, ok) ∧ (ok = true → SameContent w' c' ∧ SameRes rw rc) := by
    unfold TabVer.execStmt
    cases htype : stmt.type with
    | insert =>
        obtain ⟨hw, hc, hk, hwu, hcu⟩ := hin htype
        obtain ⟨w', rw', c', rc', ok, h₁, h₂, hok⟩ := h.insDo hw hc hwu hcu hk hres
        exact ⟨w', rw', c', rc', ok, h₁, h₂, fun ho => ⟨(hok ho).1.same, (hok ho).2⟩⟩
    | update =>
        obtain ⟨w', rw', c', rc', ok, h₁, h₂, hok⟩ := h.updDo stmt hres
        exact ⟨w', rw', c', rc', ok, congrArg Except.ok h₁, congrArg Except.ok h₂, hok⟩
    | delete =>
        obtain ⟨w', rw', c', rc', ok, h₁, h₂, hok⟩ := h.delDo stmt hres
        exact ⟨w', rw', c', rc', ok, congrArg Except.ok h₁, congrArg Except.ok h₂, hok⟩
    | select => simp [Statement.isWr, htype] at hwr
    | unrecognized => simp [Statement.isWr, htype] at hwr
  obtain ⟨w', rw', c', rc', ok, hrunw, hrunc, hok⟩ := hall
  refine ⟨w', rw', c', rc', ok, hrunw, hrunc, ?_⟩
  rintro rfl
  obtain ⟨hsame, hsr⟩ := hok rfl
  exact ⟨⟨hsame, h.left.execStmt h.shape (fun ht => (hin ht).2.2.1) hrunw,
    h.right.execStmt hshape' hkept' hrunc, (h.shape.execStmt hrunw).1⟩, hsr⟩

/-- UPDATE and DELETE do not use the PK tree of a table without a PK column. -/
theorem PkUnused.execStmt {tab tab' : TabVer} {res res' : DbRes} (h : tab.PkUnused)
    (hins : stmt.type ≠ .insert) (hrun : tab.execStmt stmt res = .ok (tab', res', true)) :
    tab'.PkUnused := by
  unfold TabVer.execStmt at hrun
  split at hrun
  · have htab : tab = tab' := congrArg Prod.fst (Except.ok.inj hrun)
    exact htab ▸ h
  · rename_i htype
    exact absurd htype hins
  · rcases updDo_cases (Except.ok.inj hrun) with ⟨hok, -⟩ | ⟨setIdx, hu⟩
    · cases hok
    · rcases hu.trees rfl with rfl | ⟨-, hidx⟩
      · exact h
      · exact hidx.pkUnused
  · rcases delDo_cases (Except.ok.inj hrun) with ⟨hok, -⟩ | ⟨-, -, -, htrees⟩
    · cases hok
    · exact (htrees rfl).2.pkUnused
  · cases hrun

end TabVer

end MiniDbms
