import MiniDbms.Db.Csv
import MiniDbms.Db.Index
import MiniDbms.Sql.Parser

/-!
# Access paths

Every access path of `sel_do` visits some list of row numbers, and adds the rows
that match.  The result is the one of a full scan exactly when the list covers
the matching rows.
-/

namespace MiniDbms

open Bptree

/-! ## Rows picked by number -/

section Hits

variable {β : Type} {rows : List Row} {p : Row → Bool} {idxs : List Nat}

/-- The rows at the given positions that satisfy `p`. -/
def hits (rows : List Row) (p : Row → Bool) (idxs : List Nat) : List Row :=
  idxs.filterMap fun i => (rows[i]?).filter p

/-- The row at position `i` exists and satisfies `p`. -/
def hitAt (rows : List Row) (p : Row → Bool) (i : Nat) : Bool := ((rows[i]?).filter p).isSome

theorem hitAt_iff {i : Nat} : hitAt rows p i = true ↔ ∃ row, rows[i]? = some row ∧ p row = true := by
  unfold hitAt
  cases rows[i]? with
  | none => simp
  | some row => by_cases hp : p row = true <;> simp [hp]

theorem hits_eq (idxs : List Nat) :
    hits rows p idxs = (idxs.filter (hitAt rows p)).map fun i => (rows[i]?).getD [] := by
  induction idxs with
  | nil => rfl
  | cons i idxs ih =>
      unfold hits at ih ⊢
      rw [List.filterMap_cons, ih]
      cases hr : rows[i]? with
      | none => simp [hitAt, hr]
      | some row => by_cases hp : p row = true <;> simp [hitAt, hr, hp, Option.filter]

theorem hits_range (rows : List Row) (p : Row → Bool) :
    hits rows p (List.range rows.length) = rows.filter p := by
  induction rows using List.reverseRecOn with
  | nil => rfl
  | append_singleton rows row ih =>
      have hold : hits (rows ++ [row]) p (List.range rows.length) =
          hits rows p (List.range rows.length) := by
        unfold hits
        refine List.filterMap_congr fun i hi => ?_
        rw [List.getElem?_append_left (List.mem_range.1 hi)]
      have hnew : hits (rows ++ [row]) p [rows.length] = [row].filter p := by
        by_cases hp : p row = true <;> simp [hits, hp, Option.filter]
      rw [List.length_append, List.length_singleton, List.range_succ, List.filter_append, ← ih,
        ← hold, ← hnew]
      simp [hits]

/-- Distinct positions give the rows of a scan, in some order, exactly when every
matching row is among them. -/
theorem hits_perm_iff (g : Row → β) (hnodup : idxs.Nodup) :
    ((hits rows p idxs).map g).Perm ((rows.filter p).map g) ↔
      ∀ i row, rows[i]? = some row → p row = true → i ∈ idxs := by
  have hsub : ∀ i ∈ idxs.filter (hitAt rows p), i ∈ (List.range rows.length).filter (hitAt rows p) := by
    intro i hi
    obtain ⟨-, hhit⟩ := List.mem_filter.1 hi
    obtain ⟨row, hrow, -⟩ := hitAt_iff.1 hhit
    exact List.mem_filter.2 ⟨List.mem_range.2 (List.getElem?_eq_some_iff.1 hrow).1, hhit⟩
  have hnodup' : (idxs.filter (hitAt rows p)).Nodup := hnodup.filter _
  have hnodupR : ((List.range rows.length).filter (hitAt rows p)).Nodup :=
    List.nodup_range.filter _
  rw [← hits_range rows p, hits_eq, hits_eq]
  constructor
  · intro hperm i row hrow hp
    have hlen : (idxs.filter (hitAt rows p)).length =
        ((List.range rows.length).filter (hitAt rows p)).length := by
      simpa using hperm.length_eq
    have hall := (List.subperm_of_subset hnodup' hsub).perm_of_length_le hlen.ge
    have hmem : i ∈ (List.range rows.length).filter (hitAt rows p) :=
      List.mem_filter.2 ⟨List.mem_range.2 (List.getElem?_eq_some_iff.1 hrow).1,
        hitAt_iff.2 ⟨row, hrow, hp⟩⟩
    exact (List.mem_filter.1 (hall.mem_iff.2 hmem)).1
  · intro hcover
    refine List.Perm.map _ (List.Perm.map _ ?_)
    rw [List.perm_ext_iff_of_nodup hnodup' hnodupR]
    intro i
    constructor
    · exact hsub i
    · intro hi
      obtain ⟨row, hrow, hp⟩ := hitAt_iff.1 (List.mem_filter.1 hi).2
      exact List.mem_filter.2 ⟨hcover i row hrow hp, (List.mem_filter.1 hi).2⟩

end Hits

namespace TabVer

/-! ## What a path visits -/

/-- The row numbers a path visits; `none` when a literal for the PK column is not an
integer. -/
def visits (tab : TabVer) : Path → Option (List Nat)
  | .pkEq val => (parseL val).map fun key => (search tab.pkTree key).toList
  | .ukEq slot val => some (search (tab.ukTreeAt slot) (normV RECORD_SIZE val)).toList
  | .pkRange lo hi =>
    match parseL lo, parseL hi with
    | some a0, some a1 =>
      some ((tab.pkTree.toList.filter fun e => decide (a0 ≤ e.1) && decide (e.1 ≤ a1)).map Prod.snd)
    | _, _ => none
  | .ukRange slot lo hi =>
    some (((tab.ukTreeAt slot).toList.filter fun e =>
      decide (normV RECORD_SIZE lo ≤ e.1) && decide (e.1 ≤ normV RECORD_SIZE hi)).map Prod.snd)
  | .scan => some (List.range tab.rows.length)

theorem visited_selVis {α : Type} [LinearOrder α] (tab : TabVer) (stmt : Statement)
    (selIdx : List Nat) (lo hi : α) (L : List (α × Nat)) (res : DbRes) :
    visited lo hi (fun res _ i => tab.selVis stmt selIdx res i) L res =
      ((L.filter fun e => decide (lo ≤ e.1) && decide (e.1 ≤ hi)).map Prod.snd).foldl
        (tab.selVis stmt selIdx) res := by
  rw [List.foldl_map]
  rfl

theorem scan_eq_foldl (tab : TabVer) (stmt : Statement) (selIdx : List Nat) (res : DbRes) :
    tab.rows.foldl (fun res row =>
      if tab.rowMatch stmt row then tab.resAdd selIdx res row else res) res =
      (List.range tab.rows.length).foldl (tab.selVis stmt selIdx) res := by
  have key : ∀ (rows : List Row) (k : Nat) (res : DbRes), tab.rows.drop k = rows →
      rows.foldl (fun res row =>
        if tab.rowMatch stmt row then tab.resAdd selIdx res row else res) res =
        (List.range' k rows.length).foldl (tab.selVis stmt selIdx) res := by
    intro rows
    induction rows with
    | nil => simp
    | cons row rows ih =>
        intro k res hdrop
        have hrow : tab.rows[k]? = some row := by
          rw [← List.head?_drop, hdrop]
          rfl
        have hnext : tab.rows.drop (k + 1) = rows := by
          rw [← List.tail_drop, hdrop]
          rfl
        rw [List.length_cons, List.range'_succ, List.foldl_cons, List.foldl_cons,
          ih (k + 1) _ hnext]
        simp [selVis, hrow]
  rw [key tab.rows 0 res rfl, List.range_eq_range']

/-- The trees of a table whose rows were filed one by one.  A row keeps the integer
it was filed under in the PK tree. -/
structure Accessible (tab : TabVer) : Prop where
  pk : ∃ key : Nat → Option Int, Indexes tab.pkTree key ∧
    (∀ i, tab.rows.length ≤ i → key i = none) ∧
    (tab.pkIdx.isSome → ∀ i < tab.rows.length, (key i).isSome)
  uk : UkFiled tab.rows tab.ukIdx tab.ukTree

theorem ukFiled_at {rows : List Row} {cols : List Nat} {trees : List (BPlusTree Bytes)}
    (h : UkFiled rows cols trees) {slot : Nat} {c : Nat} (hc : cols[slot]? = some c) :
    Indexes (trees.getD slot (create Bytes)) (keyAt (ukText c) rows) := by
  induction h generalizing slot with
  | nil => simp at hc
  | cons ht _ ih =>
      cases slot with
      | zero =>
          simp only [List.getElem?_cons_zero, Option.some.injEq] at hc
          subst hc
          exact ht
      | succ slot => exact ih (by simpa using hc)

/-- Every entry of a UK tree is the text of the row it names. -/
def PartlyFiled (rows : List Row) (cols : List Nat) (trees : List (BPlusTree Bytes)) : Prop :=
  List.Forall₂ (fun c t => ∃ filed, Indexes t filed ∧
    ∀ i k, filed i = some k → keyAt (ukText c) rows i = some k) cols trees

/-- The trees of a table some of whose INSERTs failed: a row `ins_do` has added stays when it
cannot be filed. -/
structure Searchable (tab : TabVer) : Prop where
  pk : ∃ key : Nat → Option Int, Indexes tab.pkTree key ∧
    (∀ i, tab.rows.length ≤ i → key i = none) ∧
    (tab.pkIdx.isSome → ∀ i < tab.rows.length, (key i).isSome)
  uk : PartlyFiled tab.rows tab.ukIdx tab.ukTree

theorem Accessible.searchable {tab : TabVer} (h : tab.Accessible) : tab.Searchable where
  pk := h.pk
  uk := h.uk.imp fun _ _ ht => ⟨_, ht, fun _ _ hk => hk⟩

theorem Searchable.ukTreeAt {tab : TabVer} (h : tab.Searchable) {slot c : Nat}
    (hc : tab.ukIdx[slot]? = some c) : ∃ filed, Indexes (tab.ukTreeAt slot) filed ∧
      ∀ i k, filed i = some k → keyAt (ukText c) tab.rows i = some k := by
  have huk := h.uk
  unfold TabVer.ukTreeAt
  generalize tab.ukIdx = cols at hc huk
  generalize tab.ukTree = trees at huk
  induction huk generalizing slot with
  | nil => simp at hc
  | cons ht _ ih =>
      cases slot with
      | zero =>
          simp only [List.getElem?_cons_zero, Option.some.injEq] at hc
          subst hc
          exact ht
      | succ slot => exact ih (by simpa using hc)

/-- The unique column of a path through a UK tree. -/
def Path.slot : Path → Option Nat
  | .ukEq slot _ => some slot
  | .ukRange slot _ _ => some slot
  | _ => none

theorem ukIdx_of_ukSlot {tab : TabVer} {idx slot : Nat} (h : tab.ukSlot idx = some slot) :
    tab.ukIdx[slot]? = some idx := by
  obtain ⟨hlt, hp, -⟩ := List.findIdx?_eq_some_iff_getElem.1 h
  rw [List.getElem?_eq_getElem hlt]
  simpa using hp

theorem path_slot {tab : TabVer} {stmt : Statement} {slot : Nat}
    (h : (tab.path stmt).slot = some slot) : ∃ c, tab.ukIdx[slot]? = some c := by
  unfold path at h
  split at h
  · cases h
  · rename_i cond idx _
    split at h <;> first
      | (rename_i hslot; cases h; exact ⟨idx, ukIdx_of_ukSlot hslot⟩)
      | cases h

theorem Searchable.path_ok {tab : TabVer} (h : tab.Searchable) {stmt : Statement} {slot : Nat}
    (hslot : (tab.path stmt).slot = some slot) : (tab.ukTreeAt slot).Ok := by
  obtain ⟨c, hc⟩ := path_slot hslot
  obtain ⟨filed, hfiled, -⟩ := h.ukTreeAt hc
  exact hfiled.ok

theorem selPath_eq {tab : TabVer} (h : tab.Searchable) (stmt : Statement) (selIdx : List Nat)
    (res : DbRes) (path : Path) (hslot : ∀ slot, path.slot = some slot → (tab.ukTreeAt slot).Ok) :
    match tab.visits path with
    | none => (tab.selPath stmt selIdx res path).2 = false ∧
        ((tab.selPath stmt selIdx res path).1.err.map DbErr.code) = some .badSql
    | some idxs =>
        tab.selPath stmt selIdx res path = (idxs.foldl (tab.selVis stmt selIdx) res, true) := by
  obtain ⟨key, hpk, -, -⟩ := h.pk
  cases path with
  | pkEq val =>
      simp only [visits, selPath]
      cases hv : parseL val with
      | none => exact ⟨rfl, rfl⟩
      | some k =>
          simp only [Option.map_some]
          cases search tab.pkTree k <;> rfl
  | ukEq slot val =>
      simp only [visits, selPath]
      cases search (tab.ukTreeAt slot) (normV RECORD_SIZE val) <;> rfl
  | pkRange lo hi =>
      simp only [visits, selPath]
      cases hlo : parseL lo with
      | none => exact ⟨rfl, rfl⟩
      | some a0 =>
          cases hhi : parseL hi with
          | none => exact ⟨rfl, rfl⟩
          | some a1 =>
              dsimp only
              rw [rangeSearch_eq hpk.ok, visited_selVis]
  | ukRange slot lo hi =>
      simp only [visits, selPath]
      rw [rangeSearch_eq (hslot slot rfl), visited_selVis]
  | scan =>
      simp only [visits, selPath]
      rw [scan_eq_foldl]

theorem foldl_selVis (tab : TabVer) (stmt : Statement) (selIdx : List Nat) (idxs : List Nat) :
    ∀ res : DbRes, res.count = res.rows.length →
      (idxs.foldl (tab.selVis stmt selIdx) res).rows =
        res.rows ++ (hits tab.rows (tab.rowMatch stmt) idxs).map (tab.project selIdx) ∧
      (idxs.foldl (tab.selVis stmt selIdx) res).count =
        (idxs.foldl (tab.selVis stmt selIdx) res).rows.length := by
  induction idxs with
  | nil =>
      intro res hcount
      simpa [hits] using hcount
  | cons i idxs ih =>
      intro res hcount
      rw [List.foldl_cons]
      have hrow : (tab.selVis stmt selIdx res i).count =
            (tab.selVis stmt selIdx res i).rows.length ∧
          (tab.selVis stmt selIdx res i).rows =
            res.rows ++ (hits tab.rows (tab.rowMatch stmt) [i]).map (tab.project selIdx) := by
        unfold selVis hits
        cases hr : tab.rows[i]? with
        | none => simpa [hr] using hcount
        | some row =>
            by_cases hm : tab.rowMatch stmt row = true
            · simp [hr, hm, resAdd, Option.filter]
            · simpa [hr, hm, Option.filter] using hcount
      obtain ⟨hrows, hcnt⟩ := ih _ hrow.1
      refine ⟨?_, hcnt⟩
      rw [hrows, hrow.2, List.append_assoc, ← List.map_append]
      unfold hits
      rw [← List.filterMap_append]
      rfl

/-! ## The index path and the full scan -/

/-- A literal compared with the PK column is not an integer. -/
def BadPkLiteral (tab : TabVer) (stmt : Statement) : Prop :=
  ∃ cond ∈ stmt.whereConditions, (tab.colIdx cond.col.bytes).isSome ∧
    tab.colIdx cond.col.bytes = tab.pkIdx ∧
    (parseL cond.val.bytes = none ∨ cond.type = .between ∧ parseL cond.endVal.bytes = none)

/-- The SELECT returns the projection of exactly the rows `row_match` accepts, in some
order, or `BAD_SQL` for a PK literal that is not an integer.  An unknown column is
an error on every path. -/
def AgreesWithScan (tab : TabVer) (stmt : Statement) (res : DbRes) : Prop :=
  match tab.selCols stmt with
  | none => tab.selDo stmt res = (res.fail .badSql "unknown SELECT column", false)
  | some selIdx =>
    ((tab.selDo stmt res).2 = true ∧
      (tab.selDo stmt res).1.rows.Perm
        ((tab.rows.filter (tab.rowMatch stmt)).map (tab.project selIdx)) ∧
      (tab.selDo stmt res).1.count = (tab.selDo stmt res).1.rows.length) ∨
    (tab.BadPkLiteral stmt ∧ (tab.selDo stmt res).2 = false ∧
      (tab.selDo stmt res).1.err.map DbErr.code = some .badSql)

/-- The tree of a unique column has an entry for row `i`. -/
def FiledUk (tab : TabVer) (slot i : Nat) : Prop := ∃ k, (k, i) ∈ (tab.ukTreeAt slot).toList

/-- Row `i` can be found over an access path: on a UK path its normalised cell is not
empty and the row is filed, and on a PK path the integer the PK tree files it under
satisfies the condition that was picked. -/
def Reachable (tab : TabVer) (i : Nat) (row : Row) : Path → Prop
  | .scan => True
  | .pkEq val => ∀ k a, (k, i) ∈ tab.pkTree.toList → parseL val = some a → k = a
  | .pkRange lo hi => ∀ k a0 a1, (k, i) ∈ tab.pkTree.toList →
      parseL lo = some a0 → parseL hi = some a1 → a0 ≤ k ∧ k ≤ a1
  | .ukEq slot _ => ∀ c, tab.ukIdx[slot]? = some c →
      normV RECORD_SIZE (cell row c) ≠ [] ∧ tab.FiledUk slot i
  | .ukRange slot _ _ => ∀ c, tab.ukIdx[slot]? = some c →
      normV RECORD_SIZE (cell row c) ≠ [] ∧ tab.FiledUk slot i

/-- Where no INSERT has failed, a row is filed in the unique columns in which it is not empty. -/
theorem Accessible.filedUk_iff {tab : TabVer} (h : tab.Accessible) {slot c i : Nat} {row : Row}
    (hc : tab.ukIdx[slot]? = some c) (hrow : tab.rows[i]? = some row) :
    tab.FiledUk slot i ↔ normV RECORD_SIZE (cell row c) ≠ [] := by
  have htree := ukFiled_at h.uk hc
  have hkey : keyAt (ukText c) tab.rows i = ukText c row := by simp [keyAt, hrow]
  unfold FiledUk TabVer.ukTreeAt
  simp only [htree.mem_iff, hkey]
  unfold ukText
  split <;> simp_all

theorem pickStep_mem {tab : TabVer} {best : Nat × Option (WhereCondition × Nat)}
    {cond cond' : WhereCondition} {idx : Nat}
    (h : (tab.pickStep best cond).2 = some (cond', idx)) :
    best.2 = some (cond', idx) ∨ (cond' = cond ∧ tab.colIdx cond.col.bytes = some idx) := by
  unfold pickStep at h
  split at h
  · exact Or.inl h
  · rename_i i hi
    split at h
    · cases h
      exact Or.inr ⟨rfl, hi⟩
    · exact Or.inl h

theorem pickIdx_mem {tab : TabVer} {stmt : Statement} {cond : WhereCondition} {idx : Nat}
    (h : tab.pickIdx stmt = some (cond, idx)) :
    cond ∈ stmt.whereConditions ∧ tab.colIdx cond.col.bytes = some idx := by
  have key : ∀ (conds : List WhereCondition) (best : Nat × Option (WhereCondition × Nat)),
      (conds.foldl tab.pickStep best).2 = some (cond, idx) →
        best.2 = some (cond, idx) ∨ (cond ∈ conds ∧ tab.colIdx cond.col.bytes = some idx) := by
    intro conds
    induction conds with
    | nil => exact fun best h => Or.inl h
    | cons c conds ih =>
        intro best h
        rcases ih _ h with h | ⟨hmem, hcol⟩
        · rcases pickStep_mem h with h | ⟨rfl, hcol⟩
          · exact Or.inl h
          · exact Or.inr ⟨List.mem_cons_self, hcol⟩
        · exact Or.inr ⟨List.mem_cons_of_mem _ hmem, hcol⟩
  rcases key _ _ h with h | h
  · cases h
  · exact h

/-- The condition and the column behind an access path. -/
def Picked (tab : TabVer) (cond : WhereCondition) (idx : Nat) : Path → Prop
  | .scan => True
  | .pkEq val => cond.type = .eq ∧ tab.pkIdx = some idx ∧ cond.val.bytes = val
  | .pkRange lo hi => cond.type = .between ∧ tab.pkIdx = some idx ∧
      cond.val.bytes = lo ∧ cond.endVal.bytes = hi
  | .ukEq slot val => cond.type = .eq ∧ tab.ukIdx[slot]? = some idx ∧ cond.val.bytes = val
  | .ukRange slot lo hi => cond.type = .between ∧ tab.pkIdx ≠ some idx ∧
      tab.ukIdx[slot]? = some idx ∧ cond.val.bytes = lo ∧ cond.endVal.bytes = hi

theorem path_picked (tab : TabVer) (stmt : Statement) :
    tab.path stmt = .scan ∨ ∃ cond ∈ stmt.whereConditions, ∃ idx,
      tab.colIdx cond.col.bytes = some idx ∧ tab.Picked cond idx (tab.path stmt) := by
  unfold path
  cases hpick : tab.pickIdx stmt with
  | none => exact Or.inl rfl
  | some pair =>
      obtain ⟨cond, idx⟩ := pair
      obtain ⟨hmem, hcol⟩ := pickIdx_mem hpick
      dsimp only
      split
      · rename_i htype hpk
        exact Or.inr ⟨cond, hmem, idx, hcol, htype, of_decide_eq_true hpk, rfl⟩
      · rename_i htype hpk hslot
        exact Or.inr ⟨cond, hmem, idx, hcol, htype, ukIdx_of_ukSlot hslot, rfl⟩
      · rename_i htype hpk
        exact Or.inr ⟨cond, hmem, idx, hcol, htype, of_decide_eq_true hpk, rfl, rfl⟩
      · rename_i htype hpk hslot
        exact Or.inr ⟨cond, hmem, idx, hcol, htype, of_decide_eq_false hpk,
          ukIdx_of_ukSlot hslot, rfl, rfl⟩
      · exact Or.inl rfl

theorem condMatch_of_rowMatch {tab : TabVer} {stmt : Statement} {row : Row} {cond : WhereCondition}
    (h : tab.rowMatch stmt row = true) (hmem : cond ∈ stmt.whereConditions) :
    tab.condMatch row cond = true := List.all_eq_true.1 h cond hmem

theorem nodup_of_filter {α : Type} [LinearOrder α] {tree : BPlusTree α} {key : Nat → Option α}
    (h : Indexes tree key) (q : α × Nat → Bool) : ((tree.toList.filter q).map Prod.snd).Nodup :=
  h.nodup_rows.sublist (List.filter_sublist.map _)

theorem mem_filter_iff {α : Type} [LinearOrder α] {tree : BPlusTree α} {key : Nat → Option α}
    (h : Indexes tree key) (q : α × Nat → Bool) (i : Nat) :
    i ∈ (tree.toList.filter q).map Prod.snd ↔ ∃ k, key i = some k ∧ q (k, i) = true := by
  constructor
  · intro hi
    obtain ⟨⟨k, j⟩, hmem, rfl⟩ := List.mem_map.1 hi
    obtain ⟨hmem, hq⟩ := List.mem_filter.1 hmem
    exact ⟨k, (h.mem_iff k _).1 hmem, hq⟩
  · rintro ⟨k, hk, hq⟩
    exact List.mem_map.2 ⟨(k, i), List.mem_filter.2 ⟨(h.mem_iff k i).2 hk, hq⟩, rfl⟩

theorem nodup_toList (o : Option Nat) : o.toList.Nodup := by cases o <;> simp

theorem visits_nodup {tab : TabVer} (h : tab.Searchable) {stmt : Statement} {idxs : List Nat}
    (hv : tab.visits (tab.path stmt) = some idxs) : idxs.Nodup := by
  obtain ⟨key, hpk, -, -⟩ := h.pk
  have hslot : ∀ slot, (tab.path stmt).slot = some slot → ∃ c, tab.ukIdx[slot]? = some c :=
    fun _ => path_slot
  cases hp : tab.path stmt with
  | scan =>
      rw [hp] at hv
      cases hv
      exact List.nodup_range
  | pkEq val =>
      rw [hp] at hv
      obtain ⟨a, -, rfl⟩ := Option.map_eq_some_iff.1 hv
      exact nodup_toList _
  | ukEq slot val =>
      rw [hp] at hv
      cases hv
      exact nodup_toList _
  | pkRange lo hi =>
      rw [hp] at hv
      simp only [visits] at hv
      split at hv
      · cases hv
        exact nodup_of_filter hpk _
      · cases hv
  | ukRange slot lo hi =>
      rw [hp] at hv hslot
      cases hv
      obtain ⟨c, hc⟩ := hslot slot rfl
      obtain ⟨filed, hfiled, -⟩ := h.ukTreeAt hc
      exact nodup_of_filter hfiled _

theorem ukText_eq_some {c : Nat} {row : Row} {k : Bytes} :
    ukText c row = some k ↔ normV RECORD_SIZE (cell row c) ≠ [] ∧
      normV RECORD_SIZE (cell row c) = k := by
  unfold ukText
  split <;> simp_all

theorem mem_visits_iff {tab : TabVer} (h : tab.Searchable) {stmt : Statement} {idxs : List Nat}
    (hv : tab.visits (tab.path stmt) = some idxs) {i : Nat} {row : Row}
    (hrow : tab.rows[i]? = some row) (hm : tab.rowMatch stmt row = true) :
    i ∈ idxs ↔ tab.Reachable i row (tab.path stmt) := by
  obtain ⟨key, hpk, -, hfull⟩ := h.pk
  have hlt : i < tab.rows.length := (List.getElem?_eq_some_iff.1 hrow).1
  have hkeyAt : ∀ c, keyAt (ukText c) tab.rows i = ukText c row := by simp [keyAt, hrow]
  rcases path_picked tab stmt with hp | ⟨cond, hmem, idx, hcol, hpicked⟩
  · rw [hp] at hv ⊢
    cases hv
    simp [Reachable, hlt]
  · have hc := condMatch_of_rowMatch hm hmem
    unfold condMatch at hc
    rw [hcol] at hc
    cases hp : tab.path stmt with
    | scan =>
        rw [hp] at hv
        cases hv
        simp [Reachable, hlt]
    | pkEq val =>
        rw [hp] at hv hpicked
        obtain ⟨a, ha, rfl⟩ := Option.map_eq_some_iff.1 hv
        obtain ⟨-, hpkIdx, -⟩ := hpicked
        obtain ⟨k, hk⟩ := Option.isSome_iff_exists.1 (hfull (by simp [hpkIdx]) i hlt)
        rw [Option.mem_toList, hpk.search_eq_some, hk]
        simp only [Reachable, hpk.mem_iff, hk, ha, Option.some.injEq]
        constructor
        · rintro rfl k' a' rfl rfl
          rfl
        · exact fun hr => hr k a rfl rfl
    | pkRange lo hi =>
        rw [hp] at hv hpicked
        simp only [visits] at hv
        split at hv
        · rename_i a0 a1 hlo hhi
          cases hv
          obtain ⟨-, hpkIdx, -⟩ := hpicked
          obtain ⟨k, hk⟩ := Option.isSome_iff_exists.1 (hfull (by simp [hpkIdx]) i hlt)
          rw [mem_filter_iff hpk]
          simp only [Reachable, hpk.mem_iff, hk, hlo, hhi, Option.some.injEq, Bool.and_eq_true,
            decide_eq_true_eq]
          constructor
          · rintro ⟨k', rfl, hle⟩ k'' b0 b1 rfl rfl rfl
            exact hle
          · exact fun hr => ⟨k, rfl, hr k a0 a1 rfl rfl rfl⟩
        · cases hv
    | ukEq slot val =>
        rw [hp] at hv hpicked
        cases hv
        obtain ⟨htype, hslot, rfl⟩ := hpicked
        have heq : normV RECORD_SIZE (cell row idx) = normV RECORD_SIZE cond.val.bytes := by
          simpa [htype, cmpV] using hc
        obtain ⟨filed, hfiled, htext⟩ := h.ukTreeAt hslot
        rw [Option.mem_toList, hfiled.search_eq_some]
        simp only [Reachable, FiledUk, hfiled.mem_iff, hslot, Option.some.injEq, forall_eq']
        constructor
        · intro hk
          have hkey := htext i _ hk
          rw [hkeyAt, ukText_eq_some] at hkey
          exact ⟨hkey.1, _, hk⟩
        · rintro ⟨-, k, hk⟩
          have hkey := htext i k hk
          rw [hkeyAt, ukText_eq_some] at hkey
          rw [hk, ← hkey.2, heq]
    | ukRange slot lo hi =>
        rw [hp] at hv hpicked
        cases hv
        obtain ⟨htype, hnpk, hslot, rfl, rfl⟩ := hpicked
        have hrng : normV RECORD_SIZE cond.val.bytes ≤ normV RECORD_SIZE (cell row idx) ∧
            normV RECORD_SIZE (cell row idx) ≤ normV RECORD_SIZE cond.endVal.bytes := by
          simpa [htype, hnpk, cmpRng] using hc
        obtain ⟨filed, hfiled, htext⟩ := h.ukTreeAt hslot
        rw [mem_filter_iff hfiled]
        simp only [Reachable, FiledUk, hfiled.mem_iff, hslot, Option.some.injEq, forall_eq',
          Bool.and_eq_true, decide_eq_true_eq]
        constructor
        · rintro ⟨k, hk, -⟩
          have hkey := htext i k hk
          rw [hkeyAt, ukText_eq_some] at hkey
          exact ⟨hkey.1, k, hk⟩
        · rintro ⟨-, k, hk⟩
          have hkey := htext i k hk
          rw [hkeyAt, ukText_eq_some] at hkey
          exact ⟨k, hk, hkey.2 ▸ hrng⟩

theorem badPkLiteral_of_visits {tab : TabVer} {stmt : Statement}
    (hv : tab.visits (tab.path stmt) = none) : tab.BadPkLiteral stmt := by
  rcases path_picked tab stmt with hp | ⟨cond, hmem, idx, hcol, hpicked⟩
  · rw [hp] at hv
    cases hv
  · cases hp : tab.path stmt with
    | scan => rw [hp] at hv; cases hv
    | ukEq slot val => rw [hp] at hv; cases hv
    | ukRange slot lo hi => rw [hp] at hv; cases hv
    | pkEq val =>
        rw [hp] at hv hpicked
        obtain ⟨-, hpk, rfl⟩ := hpicked
        exact ⟨cond, hmem, by simp [hcol], by rw [hcol, hpk], Or.inl (Option.map_eq_none_iff.1 hv)⟩
    | pkRange lo hi =>
        rw [hp] at hv hpicked
        obtain ⟨htype, hpk, rfl, rfl⟩ := hpicked
        refine ⟨cond, hmem, by simp [hcol], by rw [hcol, hpk], ?_⟩
        simp only [visits] at hv
        cases hlo : parseL cond.val.bytes with
        | none => exact Or.inl rfl
        | some a0 =>
            cases hhi : parseL cond.endVal.bytes with
            | none => exact Or.inr ⟨htype, rfl⟩
            | some a1 => simp [hlo, hhi] at hv

theorem reachable_of_visits {tab : TabVer} {stmt : Statement}
    (hv : tab.visits (tab.path stmt) = none) (i : Nat) (row : Row) :
    tab.Reachable i row (tab.path stmt) := by
  cases hp : tab.path stmt with
  | scan => trivial
  | ukEq slot val => rw [hp] at hv; cases hv
  | ukRange slot lo hi => rw [hp] at hv; cases hv
  | pkEq val =>
      rw [hp] at hv
      intro k a _ ha
      rw [visits, ha] at hv
      cases hv
  | pkRange lo hi =>
      rw [hp] at hv
      intro k a0 a1 _ hlo hhi
      rw [visits, hlo, hhi] at hv
      cases hv

/-- A SELECT agrees with the scan exactly when every matching row can be reached over the
chosen path. -/
theorem Searchable.agrees_iff {tab : TabVer} (h : tab.Searchable) (stmt : Statement)
    {res : DbRes} (hres : res.rows = [] ∧ res.count = 0) :
    tab.AgreesWithScan stmt res ↔ tab.selCols stmt = none ∨
      ∀ i row, tab.rows[i]? = some row → tab.rowMatch stmt row = true →
        tab.Reachable i row (tab.path stmt) := by
  unfold AgreesWithScan selDo
  cases hcols : tab.selCols stmt with
  | none => simp
  | some selIdx =>
      have hsel := selPath_eq h stmt selIdx res (tab.path stmt) fun _ hslot =>
        h.path_ok hslot
      cases hv : tab.visits (tab.path stmt) with
      | none =>
          rw [hv] at hsel
          simp only [reduceCtorEq, false_or]
          constructor
          · exact fun _ i row _ _ => reachable_of_visits hv i row
          · exact fun _ => Or.inr ⟨badPkLiteral_of_visits hv, hsel⟩
      | some idxs =>
          rw [hv] at hsel
          dsimp only at hsel ⊢
          obtain ⟨hrows, hcount⟩ := foldl_selVis tab stmt selIdx idxs res (by simp [hres])
          rw [hres.1, List.nil_append] at hrows
          have hperm : ((hits tab.rows (tab.rowMatch stmt) idxs).map (tab.project selIdx)).Perm
              ((tab.rows.filter (tab.rowMatch stmt)).map (tab.project selIdx)) ↔ _ :=
            hits_perm_iff (tab.project selIdx) (visits_nodup h hv)
          rw [← hrows] at hperm
          have hcover : (∀ i row, tab.rows[i]? = some row → tab.rowMatch stmt row = true →
              i ∈ idxs) ↔ ∀ i row, tab.rows[i]? = some row → tab.rowMatch stmt row = true →
                tab.Reachable i row (tab.path stmt) :=
            forall_congr' fun i => forall_congr' fun row => forall_congr' fun hrow =>
              forall_congr' fun hm => mem_visits_iff h hv hrow hm
          simp only [hsel, hperm, hcover, hcount, reduceCtorEq, Bool.true_eq_false, false_and,
            and_false, or_false, false_or, true_and, and_true]

/-! ## Tables as the engine builds them -/

/-- The tables whose trees come from `idx_build` and `ins_do`, whether an INSERT returns 0 or
not; versions are numbered afterwards. -/
inductive Built : TabVer → Prop
  | build {tab : TabVer} (h : tab.idxBuild.2 = true) : Built tab.idxBuild.1
  | insert {tab tab' : TabVer} {stmt : Statement} {res res' : DbRes} {ok : Bool} (hb : Built tab)
      (h : tab.insDo stmt res = .ok (tab', res', ok)) : Built tab'
  | stamp {tab : TabVer} (ver : Nat) (hb : Built tab) : Built { tab with verId := ver }

theorem Accessible.entered {tab tab' : TabVer} {vals : List Bytes} {row : Row} {newId : Int}
    (h : tab.Accessible) (he : Entered tab tab' vals row newId) : tab'.Accessible := by
  obtain ⟨key, hpk, hout, hfull⟩ := h.pk
  have hfix : tab'.rows = tab.rows ++ [row] ∧ tab'.pkIdx = tab.pkIdx ∧
      tab'.ukIdx = tab.ukIdx := by
    rw [he.frame]
    exact ⟨rfl, rfl, rfl⟩
  have hins := bptreeInsert_indexes hpk (hout tab.rows.length (Nat.le_refl _)) newId
  rw [he.pkTree] at hins
  have huk := ukEnter_spec row tab.rows tab.ukIdx tab.ukTree h.uk
  rw [he.ukTree] at huk
  refine ⟨⟨_, hins.2, ?_, ?_⟩, ?_⟩
  · intro i hi
    rw [hfix.1, List.length_append, List.length_singleton] at hi
    rw [if_neg (by omega)]
    exact hout i (by omega)
  · intro hpkIdx i hi
    rw [hfix.1, List.length_append, List.length_singleton] at hi
    by_cases hn : i = tab.rows.length
    · simp [hn]
    · rw [if_neg hn]
      exact hfull (hfix.2.1 ▸ hpkIdx) i (by omega)
  · rw [hfix.1, hfix.2.2]
    exact huk.1

theorem Indexed.accessible {tab : TabVer} (h : tab.Indexed) (hcon : tab.Constraints) :
    tab.Accessible := by
  refine ⟨⟨_, h.pk, ?_, ?_⟩, h.uk⟩
  · intro i hi
    simp [keyAt, List.getElem?_eq_none hi]
  · intro hpkIdx i hi
    obtain ⟨p, hp⟩ := Option.isSome_iff_exists.1 hpkIdx
    have := hcon.pkInt p hp tab.rows[i] (List.getElem_mem hi)
    simpa [keyAt, pkVal, hp, List.getElem?_eq_getElem hi] using this

theorem PartlyFiled.widen {rows : List Row} (row : Row) {cols : List Nat}
    {trees : List (BPlusTree Bytes)} (h : PartlyFiled rows cols trees) :
    PartlyFiled (rows ++ [row]) cols trees := by
  refine List.Forall₂.imp (fun c t ht => ?_) h
  obtain ⟨filed, hfiled, htext⟩ := ht
  exact ⟨filed, hfiled, fun i k hk => keyAt_append_left (htext i k hk)⟩

/-- What `ukEnter` has entered before it stops is right. -/
theorem ukEnter_partly (row : Row) {rows : List Row} {cols : List Nat}
    {trees : List (BPlusTree Bytes)} (h : PartlyFiled rows cols trees) :
    PartlyFiled (rows ++ [row]) cols (ukEnter row rows.length cols trees).1 := by
  induction h with
  | nil => exact .nil
  | @cons c tree cols trees htree hrest ih =>
      have hwide := PartlyFiled.widen row (.cons htree hrest)
      obtain ⟨filed, hfiled, htext⟩ := htree
      cases hwide with
      | cons hhead htail =>
          rw [ukEnter]
          by_cases hempty : normV RECORD_SIZE (cell row c) = []
          · rw [if_pos hempty]
            exact .cons hhead ih
          · rw [if_neg hempty]
            have hfresh : filed rows.length = none := by
              cases hk : filed rows.length with
              | none => rfl
              | some k =>
                  have hkey := htext _ k hk
                  rw [keyAt_length] at hkey
                  cases hkey
            have hins := bptreeStringInsert_indexes hfiled hfresh hempty
            cases hs : bptreeStringInsert tree (normV RECORD_SIZE (cell row c)) rows.length with
            | none => exact .cons hhead htail
            | some tree' =>
                rw [hs] at hins
                refine .cons ⟨_, hins.2, fun i k hk => ?_⟩ ih
                by_cases hi : i = rows.length
                · subst hi
                  rw [if_pos rfl] at hk
                  cases hk
                  simp [keyAt, ukText, hempty]
                · rw [if_neg hi] at hk
                  exact keyAt_append_left (htext i k hk)

theorem Searchable.insRow {tab tab' : TabVer} {row : Row} {newId : Int} {res res' : DbRes}
    {ok : Bool} (h : tab.Searchable) (hrun : tab.insRow row newId res = (tab', res', ok)) :
    tab'.Searchable := by
  obtain ⟨key, hpk, hout, hfull⟩ := h.pk
  have hfresh : key tab.rows.length = none := hout _ le_rfl
  have hins := bptreeInsert_indexes hpk hfresh newId
  unfold TabVer.insRow at hrun
  split at hrun
  · cases hrun
    exact h
  rename_i hfree
  split at hrun
  · cases hrun
    exact h
  dsimp only at hrun
  split at hrun
  · -- the row has been added, and the PK tree has its key already
    rename_i hnone
    cases hrun
    rw [hnone] at hins
    obtain ⟨i, hi⟩ := hins
    have hnopk : tab.pkIdx = none := by
      by_contra hsome
      refine hfree ?_
      unfold chkDupPk
      rw [(hpk.search_eq_some newId i).2 hi]
      simpa [Option.isSome_iff_ne_none] using hsome
    refine ⟨⟨key, hpk, fun i hi => hout i ?_, fun hsome => ?_⟩, h.uk.widen row⟩
    · rw [List.length_append] at hi
      omega
    · rw [hnopk] at hsome
      cases hsome
  · rename_i pkTree hsome
    rw [hsome] at hins
    have hfiled : Searchable { tab with
        rows := tab.rows ++ [row]
        pkTree := pkTree
        ukTree := (ukEnter row tab.rows.length tab.ukIdx tab.ukTree).1 } := by
      refine ⟨⟨_, hins.2, fun i hi => ?_, fun hpkIdx i hi => ?_⟩,
        ukEnter_partly row h.uk⟩
      · rw [List.length_append, List.length_singleton] at hi
        rw [if_neg (by omega)]
        exact hout i (by omega)
      · rw [List.length_append, List.length_singleton] at hi
        by_cases hn : i = tab.rows.length
        · rw [if_pos hn]
          rfl
        · rw [if_neg hn]
          exact hfull hpkIdx i (by omega)
    split at hrun
    · cases hrun
      exact hfiled
    · cases hrun
      exact hfiled

theorem Searchable.insDo {tab tab' : TabVer} {stmt : Statement} {res res' : DbRes} {ok : Bool}
    (h : tab.Searchable) (hrun : tab.insDo stmt res = .ok (tab', res', ok)) : tab'.Searchable := by
  unfold TabVer.insDo at hrun
  dsimp only at hrun
  split at hrun
  · cases hrun
    exact h
  split at hrun
  · cases hrun
    exact h
  rename_i tab₁ hcap
  have h₁ : tab₁.Searchable := by
    rw [ensureRowCap_spec hcap]
    exact ⟨h.pk, h.uk⟩
  split at hrun
  · cases hrun
  split at hrun
  · cases hrun
    exact ⟨h₁.pk, h₁.uk⟩
  · rename_i nextId row newId _
    have h₂ : Searchable { tab₁ with nextId := nextId } := ⟨h₁.pk, h₁.uk⟩
    exact h₂.insRow (Except.ok.inj hrun)

theorem Built.searchable {tab : TabVer} (h : Built tab) : tab.Searchable := by
  induction h with
  | @build tab h =>
      have hb : tab.idxBuild = (tab.idxBuild.1, true) := Prod.ext rfl h
      obtain ⟨-, hcon, hidx⟩ := idxBuild_spec hb
      exact (hidx.accessible hcon).searchable
  | insert _ h ih => exact ih.insDo h
  | stamp ver _ ih => exact ⟨ih.pk, ih.uk⟩

theorem built_of_tabLoad {name : Bytes} {file : Option Bytes} {tab : TabVer}
    (h : tabLoad name file = .ok (some tab)) : Built tab := by
  unfold tabLoad at h
  split at h
  · cases h
  · split at h
    · cases h
    · rename_i header lines _
      cases hh : loadHdr header with
      | error e =>
          rw [hh] at h
          cases h
      | ok hdr =>
          rw [hh] at h
          have h' := Except.ok.inj h
          obtain ⟨tab₀, -, hb⟩ := Option.bind_eq_some_iff.1 h'
          split at hb
          · rename_i tab₁ hidx
            cases hb
            have h1 : tab₁ = tab₀.idxBuild.1 := by rw [hidx]
            rw [h1]
            exact Built.stamp 1 (Built.build (by rw [hidx]))
          · cases hb

/-- The file a query test starts from loads, and the table passes the test. -/
def loadsAnd (name file : Bytes) (test : TabVer → Bool) : Bool :=
  match tabLoad name (some file) with
  | .ok (some tab) => test tab
  | _ => false

theorem exists_of_loadsAnd (name file : Bytes) (test : TabVer → Bool)
    (h : loadsAnd name file test = true) :
    ∃ tab, tabLoad name (some file) = .ok (some tab) ∧ test tab = true := by
  unfold loadsAnd at h
  split at h
  · rename_i tab htab
    exact ⟨tab, htab, h⟩
  · cases h

/-- **Index path and full scan.**  A SELECT returns the rows of the full scan exactly
when no row it should return is out of reach of the path: on a UK path one with an
empty cell or one a failed INSERT has left unfiled, on a PK path one filed under an integer
that misses the literal. -/
theorem selDo_agrees_with_scan_iff {tab : TabVer} (h : Built tab) (stmt : Statement) (snap : Nat) :
    tab.AgreesWithScan stmt { snapId := snap } ↔ tab.selCols stmt = none ∨
      ∀ i row, tab.rows[i]? = some row → tab.rowMatch stmt row = true →
        tab.Reachable i row (tab.path stmt) :=
  h.searchable.agrees_iff stmt ⟨rfl, rfl⟩

/-- A UNIQUE column compared with a value that is there. -/
theorem selDo_agrees_with_scan_uk_value : ∃ tab stmt,
    tabLoad (str "t") (some (str "id(PK),u(UK)\n1,\n2,x\n")) = .ok (some tab) ∧
    parseStatement (str "SELECT * FROM t WHERE u = 'x'") = some stmt ∧
    (tab.selDo stmt {}).1.rows = [[(str "id", str "2"), (str "u", str "x")]] ∧
    (tab.AgreesWithScan stmt {} ↔ tab.selCols stmt = none ∨
      ∀ i row, tab.rows[i]? = some row → tab.rowMatch stmt row = true →
        tab.Reachable i row (tab.path stmt)) := by
  obtain ⟨tab, hload, htest⟩ := exists_of_loadsAnd (str "t") (str "id(PK),u(UK)\n1,\n2,x\n")
    (fun tab => (parseStatement (str "SELECT * FROM t WHERE u = 'x'")).any fun stmt =>
      (tab.selDo stmt {}).1.rows == [[(str "id", str "2"), (str "u", str "x")]])
    (by decide +kernel)
  obtain ⟨stmt, hparse, hrows⟩ := (Option.any_eq_true _ _).1 htest
  exact ⟨tab, stmt, hload, hparse, by simpa using hrows,
    selDo_agrees_with_scan_iff (built_of_tabLoad hload) stmt 0⟩

/-- The row with the empty UNIQUE cell matches, and the tree does not hold it. -/
theorem selDo_misses_empty_uk : ∃ tab stmt,
    tabLoad (str "t") (some (str "id(PK),u(UK)\n1,\n2,x\n")) = .ok (some tab) ∧ Built tab ∧
    parseStatement (str "SELECT * FROM t WHERE u = ''") = some stmt ∧
    ¬ tab.AgreesWithScan stmt {} := by
  obtain ⟨tab, hload, htest⟩ := exists_of_loadsAnd (str "t") (str "id(PK),u(UK)\n1,\n2,x\n")
    (fun tab => (parseStatement (str "SELECT * FROM t WHERE u = ''")).any fun stmt =>
      tab.selCols stmt == some [0, 1] && (tab.selDo stmt {}).2 &&
        (tab.selDo stmt {}).1.rows.length == 0 &&
        (tab.rows.filter (tab.rowMatch stmt)).length == 1)
    (by decide +kernel)
  obtain ⟨stmt, hparse, hrows⟩ := (Option.any_eq_true _ _).1 htest
  refine ⟨tab, stmt, hload, built_of_tabLoad hload, hparse, ?_⟩
  simp only [Bool.and_eq_true, beq_iff_eq] at hrows
  obtain ⟨⟨⟨hcols, hok⟩, hnone⟩, hone⟩ := hrows
  unfold AgreesWithScan
  rw [hcols]
  rintro (⟨-, hperm, -⟩ | ⟨-, hfail, -⟩)
  · have := hperm.length_eq
    rw [List.length_map] at this
    omega
  · rw [hok] at hfail
    cases hfail

/-- The second INSERT into a table without a PK fails and leaves its row, which only the scan
finds. -/
example : (loadsAnd (str "t") (str "a,u(UK)\n") fun tab =>
    (parseStatement (str "INSERT INTO t VALUES (p,x)")).any fun first =>
    (parseStatement (str "INSERT INTO t VALUES (q,y)")).any fun second =>
    (parseStatement (str "SELECT * FROM t WHERE u = 'y'")).any fun select =>
      ((tab.insDo first {}).toOption.bind fun r => (r.1.insDo second {}).toOption).any fun r =>
        !r.2.2 && (r.1.selDo select {}).1.rows.length == 0 &&
          (r.1.rows.filter (r.1.rowMatch select)).length == 1) = true := by
  decide +kernel

end TabVer

end MiniDbms
