import MiniDbms.Db.Shape

/-!
# Statements keep tables in shape

Every statement keeps the shape of a table.  A statement that succeeds also keeps
the NN, PK and UK constraints and the indexes, with one exception: `ins_do` files
a row under the integer `parse_l` finds in the VALUES text, of which it reads 255
bytes, while the cell holds the whole text trimmed.
-/

namespace MiniDbms

open Bptree

namespace TabVer

/-! ## `row_new` -/

theorem rowId_nextId {tab : TabVer} (h : LONG_MIN ≤ tab.nextId ∧ tab.nextId ≤ LONG_MAX)
    (pkSrc : Option Bytes) :
    LONG_MIN ≤ (tab.rowId pkSrc).1 ∧ (tab.rowId pkSrc).1 ≤ LONG_MAX := by
  unfold rowId
  split
  · exact h
  · dsimp only
    split
    · exact wrapL_range _
    · split
      · exact h
      · dsimp only
        split
        · exact wrapL_range _
        · exact h

theorem rowId_some {tab : TabVer} {pkSrc : Option Bytes} {nextId newId : Int} {auto : Bool} {p : Nat}
    (hp : tab.pkIdx = some p) (h : tab.rowId pkSrc = (nextId, some (newId, auto))) :
    (auto = true ∧ newId = tab.nextId) ∨
      (auto = false ∧ pkSrc.getD [] ≠ [] ∧ parseL (pkSrc.getD []) = some newId) := by
  unfold rowId at h
  rw [hp] at h
  dsimp only at h
  split at h
  · cases h
    exact Or.inl ⟨rfl, rfl⟩
  · rename_i hne
    split at h
    · cases h
    · rename_i id hid
      cases h
      exact Or.inr ⟨rfl, fun h0 => hne (Or.inl h0), hid⟩

/-- The parts of a row that `row_new` accepts. -/
structure NewRow (tab : TabVer) (vals : List Bytes) (nextId newId : Int) (row : Row) : Prop where
  cells : ∃ autoPk, row = (List.range tab.cols.length).map (fun i =>
      trimUq (tab.rowSrc vals (vals.length != tab.cols.length) newId autoPk i)) ∧
    tab.rowId (if vals.length != tab.cols.length then none else tab.pkIdx.bind fun p => vals[p]?) =
      (nextId, some (newId, autoPk))
  nn : ∀ i < tab.cols.length, tab.colType i = .nn → cell row i ≠ []

theorem rowNew_some {tab : TabVer} {vals : List Bytes} {nextId newId : Int} {row : Row}
    (h : tab.rowNew vals = (nextId, some (row, newId))) : NewRow tab vals nextId newId row := by
  unfold rowNew at h
  dsimp only at h
  split at h
  · cases h
  · split at h
    · cases h
    · rename_i nextId' newId' autoPk hid
      split at h
      · cases h
      · rename_i hnn
        cases h
        refine ⟨⟨_, rfl, hid⟩, ?_⟩
        intro i hi htype hempty
        apply hnn
        rw [List.any_eq_true]
        exact ⟨i, List.mem_range.2 hi, by simp [htype, hempty]⟩

theorem rowNew_nextId {tab : TabVer} (h : LONG_MIN ≤ tab.nextId ∧ tab.nextId ≤ LONG_MAX)
    (vals : List Bytes) : LONG_MIN ≤ (tab.rowNew vals).1 ∧ (tab.rowNew vals).1 ≤ LONG_MAX := by
  unfold rowNew
  dsimp only
  split
  · exact h
  · have hid := rowId_nextId h (if (vals.length != tab.cols.length) = true then none
      else tab.pkIdx.bind fun p => vals[p]?)
    split
    · rename_i heq
      rw [heq] at hid
      exact hid
    · rename_i heq
      rw [heq] at hid
      split <;> exact hid

theorem NewRow.length {tab : TabVer} {vals : List Bytes} {nextId newId : Int} {row : Row}
    (h : NewRow tab vals nextId newId row) : row.length = tab.cols.length := by
  obtain ⟨_, rfl, -⟩ := h.cells
  simp

theorem cell_map_range {n i : Nat} (f : Nat → Bytes) (hi : i < n) :
    cell ((List.range n).map f) i = f i := by
  simp [cell, hi]

theorem printL_noNul {n : Int} (h : LONG_MIN ≤ n ∧ n ≤ LONG_MAX) : ∀ b ∈ printL n, b ≠ 0 := by
  obtain ⟨ds, -, -, hds, -, hprint⟩ := printL_spec h.1 h.2
  intro b hb
  rw [hprint] at hb
  have hdig : ∀ d ∈ ds, d ≠ 0 := fun d hd => ne_of_isDigit (hds d hd) (by decide)
  split at hb
  · rcases List.mem_cons.1 hb with rfl | hb
    · decide
    · exact hdig b hb
  · exact hdig b hb

theorem getD_noNul {vals : List Bytes} (h : ∀ v ∈ vals, ∀ b ∈ v, b ≠ 0) (i : Nat) :
    ∀ b ∈ vals.getD i [], b ≠ 0 := by
  intro b hb
  rw [List.getD_eq_getElem?_getD] at hb
  cases hv : vals[i]? with
  | none => simp [hv] at hb
  | some v =>
      rw [hv] at hb
      exact h v (List.mem_of_getElem? hv) b hb

theorem NewRow.newId_range {tab : TabVer} {vals : List Bytes} {nextId newId : Int} {row : Row}
    (h : NewRow tab vals nextId newId row)
    (hid : LONG_MIN ≤ tab.nextId ∧ tab.nextId ≤ LONG_MAX) :
    LONG_MIN ≤ newId ∧ newId ≤ LONG_MAX := by
  obtain ⟨autoPk, -, hrow⟩ := h.cells
  cases hp : tab.pkIdx with
  | none =>
      unfold rowId at hrow
      rw [hp] at hrow
      cases hrow
      decide
  | some p =>
      rcases rowId_some hp hrow with ⟨-, rfl⟩ | ⟨-, -, hparse⟩
      · exact hid
      · exact parseL_range hparse

theorem NewRow.noNul {tab : TabVer} {vals : List Bytes} {nextId newId : Int} {row : Row}
    (h : NewRow tab vals nextId newId row)
    (hid : LONG_MIN ≤ tab.nextId ∧ tab.nextId ≤ LONG_MAX)
    (hvals : ∀ v ∈ vals, ∀ b ∈ v, b ≠ 0) : NoNul row := by
  have hnew := h.newId_range hid
  obtain ⟨autoPk, rfl, -⟩ := h.cells
  intro c hc b hb
  obtain ⟨i, -, rfl⟩ := List.mem_map.1 hc
  have hb' := mem_of_mem_trimUq hb
  unfold rowSrc at hb'
  split at hb'
  · exact printL_noNul hnew b hb'
  · split at hb'
    · exact getD_noNul hvals _ b hb'
    · exact getD_noNul hvals _ b hb'

/-- The text `row_new` reads the id of the row from.  There is none when it makes up the id,
because the PK is left out, empty or NULL; with any other number of values than one for each
column, or one less, `row_new` fails before it looks. -/
def pkText (tab : TabVer) (stmt : Statement) : Option Bytes :=
  let vals := splitCsv stmt.rowData.bytes
  if vals.length = tab.cols.length then
    (tab.pkIdx.bind fun p => vals[p]?).filter fun src => src != [] && !cmpV src (str "NULL")
  else none

/-- The integer in the PK text is not lost when the text is trimmed. -/
def PkTextKept (tab : TabVer) (stmt : Statement) : Prop :=
  ∀ src, tab.pkText stmt = some src → (parseL src).isSome → parseL (trimUq src) = parseL src

/-- Where the id of a row comes from: the counter, or the PK text. -/
theorem rowId_pkText {tab : TabVer} {stmt : Statement} {nextId newId : Int} {auto : Bool} {p : Nat}
    (hp : tab.pkIdx = some p)
    (h : tab.rowId (if (splitCsv stmt.rowData.bytes).length != tab.cols.length then none
      else tab.pkIdx.bind fun p => (splitCsv stmt.rowData.bytes)[p]?) =
        (nextId, some (newId, auto))) :
    (tab.pkText stmt = none ∧ auto = true ∧ newId = tab.nextId) ∨
      ∃ src, tab.pkText stmt = some src ∧ auto = false ∧ parseL src = some newId ∧
        (splitCsv stmt.rowData.bytes).length = tab.cols.length ∧
          (splitCsv stmt.rowData.bytes).getD p [] = src := by
  unfold pkText
  generalize splitCsv stmt.rowData.bytes = vals at h
  by_cases hlen : vals.length = tab.cols.length
  · have hsame : (vals.length != tab.cols.length) = false := by simpa using hlen
    rw [hsame, if_neg Bool.false_ne_true, hp, Option.bind_some] at h
    dsimp only
    rw [if_pos hlen, hp, Option.bind_some, List.getD_eq_getElem?_getD]
    unfold rowId at h
    rw [hp] at h
    dsimp only at h
    cases hv : vals[p]? with
    | none =>
        rw [hv, Option.getD_none, if_pos (Or.inl rfl)] at h
        cases h
        exact Or.inl ⟨rfl, rfl, rfl⟩
    | some src =>
        rw [hv, Option.getD_some] at h
        by_cases hauto : src = [] ∨ cmpV src (str "NULL") = true
        · rw [if_pos hauto] at h
          cases h
          refine Or.inl ⟨?_, rfl, rfl⟩
          rcases hauto with rfl | hnull
          · rfl
          · simp [Option.filter, hnull]
        · rw [if_neg hauto] at h
          obtain ⟨hne, hnull⟩ := not_or.1 hauto
          cases hparse : parseL src with
          | none =>
              rw [hparse] at h
              cases h
          | some id =>
              rw [hparse] at h
              cases h
              exact Or.inr ⟨src, by simp [Option.filter, hne, hnull], rfl, hparse, hlen, rfl⟩
  · have hother : (vals.length != tab.cols.length) = true := by simpa using hlen
    rw [hother, if_pos rfl] at h
    unfold rowId at h
    rw [hp] at h
    dsimp only at h
    rw [Option.getD_none, if_pos (Or.inl rfl)] at h
    cases h
    exact Or.inl ⟨if_neg hlen, rfl, rfl⟩

theorem NewRow.pkCell {tab : TabVer} {stmt : Statement} {nextId newId : Int} {row : Row} {p : Nat}
    (h : NewRow tab (splitCsv stmt.rowData.bytes) nextId newId row)
    (hid : LONG_MIN ≤ tab.nextId ∧ tab.nextId ≤ LONG_MAX) (hp : tab.pkIdx = some p)
    (hlt : p < tab.cols.length) :
    (tab.pkText stmt = none ∧ parseL (cell row p) = some newId) ∨
      ∃ src, tab.pkText stmt = some src ∧ parseL src = some newId ∧ cell row p = trimUq src := by
  obtain ⟨autoPk, rfl, hrow⟩ := h.cells
  rw [cell_map_range _ hlt]
  unfold rowSrc
  rcases rowId_pkText hp hrow with ⟨hnone, rfl, rfl⟩ | ⟨src, hsrc, rfl, hparse, hlen, hval⟩
  · have hprint := parseL_printL hid.1 hid.2
    rw [if_pos ⟨hp, rfl⟩, hprint.1, hprint.2]
    exact Or.inl ⟨hnone, rfl⟩
  · have hsame : ((splitCsv stmt.rowData.bytes).length != tab.cols.length) = false := by
      simpa using hlen
    rw [hsame, if_neg (by simp), if_neg (by simp), hval]
    exact Or.inr ⟨src, hsrc, hparse, rfl⟩

/-- The PK cell of a new row holds its id exactly when the text for it keeps its integer. -/
theorem NewRow.pk_iff {tab : TabVer} {stmt : Statement} {nextId newId : Int} {row : Row} {p : Nat}
    (h : NewRow tab (splitCsv stmt.rowData.bytes) nextId newId row)
    (hid : LONG_MIN ≤ tab.nextId ∧ tab.nextId ≤ LONG_MAX) (hp : tab.pkIdx = some p)
    (hlt : p < tab.cols.length) : parseL (cell row p) = some newId ↔ tab.PkTextKept stmt := by
  unfold PkTextKept
  rcases h.pkCell hid hp hlt with ⟨hnone, hcell⟩ | ⟨src, hsrc, hparse, hcell⟩
  · rw [hnone]
    refine iff_of_true hcell fun src hsrc => ?_
    cases hsrc
  · simp only [hsrc, Option.some.injEq, forall_eq', hparse, Option.isSome_some, forall_const, hcell]

theorem NewRow.pk {tab : TabVer} {stmt : Statement} {nextId newId : Int} {row : Row} {p : Nat}
    (h : NewRow tab (splitCsv stmt.rowData.bytes) nextId newId row)
    (hid : LONG_MIN ≤ tab.nextId ∧ tab.nextId ≤ LONG_MAX) (hp : tab.pkIdx = some p)
    (hlt : p < tab.cols.length) (hkept : tab.PkTextKept stmt) :
    parseL (cell row p) = some newId := (h.pk_iff hid hp hlt).2 hkept

/-! ## Shape -/

theorem insDo_schema {tab tab' : TabVer} {stmt : Statement} {res res' : DbRes} {ok : Bool}
    (h : tab.insDo stmt res = .ok (tab', res', ok)) : SameSchema tab tab' := by
  rw [insDo_same h]
  exact ⟨rfl, rfl, rfl, rfl⟩

theorem vals_noNul (stmt : Statement) : ∀ v ∈ splitCsv stmt.rowData.bytes, ∀ b ∈ v, b ≠ 0 :=
  fun _ hv b hb => stmt.rowData.noNul b (mem_of_mem_splitCsv hv hb)

theorem Shape.insDo {tab tab' : TabVer} {stmt : Statement} {res res' : DbRes} {ok : Bool}
    (hs : tab.Shape) (h : tab.insDo stmt res = .ok (tab', res', ok)) : tab'.Shape := by
  have hschema := insDo_schema h
  have hold : ∀ row ∈ tab.rows, row.length = tab.cols.length ∧ NoNul row := fun row hr =>
    ⟨hs.cells row hr, hs.noNul row hr⟩
  have hid := rowNew_nextId hs.nextId (splitCsv stmt.rowData.bytes)
  have hadd : ∀ row newId, tab.rowNew (splitCsv stmt.rowData.bytes) =
      (tab'.nextId, some (row, newId)) → tab.rows.length < MAX_RECORDS →
      tab'.rows = tab.rows ++ [row] → tab'.Shape := by
    intro row newId hrow hroom hrows
    have hnew := rowNew_some hrow
    rw [hrow] at hid
    refine hs.with_rows hschema ?_ ?_ hid
    · intro r hr
      rw [hrows] at hr
      rcases List.mem_append.1 hr with hr | hr
      · exact hold r hr
      · rw [List.mem_singleton.1 hr]
        exact ⟨hnew.length, hnew.noNul hs.nextId (vals_noNul stmt)⟩
    · rw [hrows, List.length_append, List.length_singleton]
      exact Nat.le_trans hroom (by decide)
  rcases insDo_cases h with ⟨-, hsame, hnext⟩ | ⟨-, row, newId, hrow, hroom, hframe, -⟩ |
    ⟨-, row, newId, -, he⟩
  · have hrows : tab'.rows = tab.rows := by rw [hsame]
    refine hs.with_rows hschema (by rw [hrows]; exact hold) (by rw [hrows]; exact hs.rows_le) ?_
    rcases hnext with hnext | hnext
    · rw [hnext]
      exact hs.nextId
    · rw [hnext]
      exact hid
  · exact hadd row newId hrow hroom (by rw [hframe])
  · exact hadd row newId he.values he.room (by rw [he.frame])

/-- `upd_do` and `del_do` change rows and trees only. -/
def SameButRows (tab tab' : TabVer) : Prop :=
  tab' = { tab with
    rows := tab'.rows, slots := tab'.slots, pkTree := tab'.pkTree, ukTree := tab'.ukTree }

theorem rebuild_cases {tab tab' : TabVer} {res res' : DbRes} {ok : Bool}
    (h : tab.rebuild res = (tab', res', ok)) :
    SameButTrees tab tab' ∧ (ok = true → res' = res ∧ tab'.Constraints ∧ tab'.Indexed) := by
  unfold rebuild at h
  have hb := tab.idxBuild_cases.1
  split at h
  · rename_i tab₁ hidx
    cases h
    rw [hidx] at hb
    exact ⟨hb, fun _ => ⟨rfl, (idxBuild_spec hidx).2⟩⟩
  · rename_i tab₁ hidx
    cases h
    rw [hidx] at hb
    exact ⟨hb, by simp⟩

theorem SameButTrees.schema {tab tab' : TabVer} (h : SameButTrees tab tab') :
    SameSchema tab tab' := by
  rw [h]
  exact ⟨rfl, rfl, rfl, rfl⟩

/-- An UPDATE that got past its checks. -/
structure Updated (tab tab' : TabVer) (stmt : Statement) (ok : Bool) (setIdx : Nat) : Prop where
  col : tab.colIdx stmt.setCol.bytes = some setIdx
  notPk : tab.pkIdx ≠ some setIdx
  nn : tab.colType setIdx = .nn → normV 256 stmt.setVal.bytes ≠ []
  frame : SameButRows tab tab'
  rows : tab'.rows = tab.updRows stmt setIdx (normV 256 stmt.setVal.bytes)
  slots : tab'.slots = tab.slots
  trees : ok = true → tab' = tab ∨ (tab'.Constraints ∧ tab'.Indexed)

theorem updRows_eq_self {tab : TabVer} {stmt : Statement} {setIdx : Nat} {setVal : Bytes}
    (h : tab.rows.countP (tab.rowMatch stmt) = 0) : tab.updRows stmt setIdx setVal = tab.rows := by
  unfold updRows
  rw [List.countP_eq_zero] at h
  conv_rhs => rw [← List.map_id tab.rows]
  refine List.map_congr_left fun row hr => ?_
  rw [if_neg (h row hr)]
  rfl

theorem updDo_cases {tab tab' : TabVer} {stmt : Statement} {res res' : DbRes} {ok : Bool}
    (h : tab.updDo stmt res = (tab', res', ok)) :
    (ok = false ∧ tab' = tab) ∨ ∃ setIdx, Updated tab tab' stmt ok setIdx := by
  unfold updDo at h
  split at h
  · cases h
    exact Or.inl ⟨rfl, rfl⟩
  · split at h
    · cases h
      exact Or.inl ⟨rfl, rfl⟩
    · rename_i setIdx hcol
      split at h
      · cases h
        exact Or.inl ⟨rfl, rfl⟩
      · rename_i hpk
        dsimp only at h
        split at h
        · cases h
          exact Or.inl ⟨rfl, rfl⟩
        · rename_i hnn
          split at h
          · cases h
            exact Or.inl ⟨rfl, rfl⟩
          · refine Or.inr ⟨setIdx, ?_⟩
            have hnn' : tab.colType setIdx = .nn → normV 256 stmt.setVal.bytes ≠ [] :=
              fun ht hv => hnn ⟨ht, hv⟩
            split at h
            · rename_i hzero
              have hself : tab.updRows stmt setIdx (normV 256 stmt.setVal.bytes) = tab.rows :=
                updRows_eq_self (Nat.eq_zero_of_add_eq_zero_left hzero)
              cases h
              exact ⟨hcol, hpk, hnn', rfl, rfl, rfl, fun _ => Or.inl (by rw [hself])⟩
            · obtain ⟨hsame, htrees⟩ := rebuild_cases h
              refine ⟨hcol, hpk, hnn', ?_, ?_, ?_, fun hok => Or.inr (htrees hok).2⟩
              · unfold SameButRows
                rw [hsame]
              · rw [hsame]
              · rw [hsame]

theorem delDo_cases {tab tab' : TabVer} {stmt : Statement} {res res' : DbRes} {ok : Bool}
    (h : tab.delDo stmt res = (tab', res', ok)) :
    (ok = false ∧ tab' = tab) ∨ (SameButRows tab tab' ∧
      tab'.rows = tab.rows.filter (fun row => !tab.rowMatch stmt row) ∧
      tab'.slots = tab.rows.length ∧
      (ok = true → tab'.Constraints ∧ tab'.Indexed)) := by
  unfold delDo at h
  split at h
  · cases h
    exact Or.inl ⟨rfl, rfl⟩
  · obtain ⟨hsame, htrees⟩ := rebuild_cases h
    refine Or.inr ⟨?_, ?_, ?_, fun hok => (htrees hok).2⟩
    · unfold SameButRows
      rw [hsame]
    · rw [hsame]
    · rw [hsame]

theorem SameButRows.schema {tab tab' : TabVer} (h : SameButRows tab tab') : SameSchema tab tab' := by
  rw [h]
  exact ⟨rfl, rfl, rfl, rfl⟩

theorem mem_normV {n : Nat} {s : Bytes} {b : UInt8} (h : b ∈ normV n s) : b ∈ s :=
  List.mem_of_mem_take (mem_of_mem_trimUq h)

theorem updRows_mem {tab : TabVer} {stmt : Statement} {setIdx : Nat} {setVal : Bytes} {row : Row}
    (h : row ∈ tab.updRows stmt setIdx setVal) :
    ∃ old ∈ tab.rows, row = old ∨ row = old.set setIdx setVal := by
  obtain ⟨old, hold, rfl⟩ := List.mem_map.1 h
  refine ⟨old, hold, ?_⟩
  split
  · exact Or.inr rfl
  · exact Or.inl rfl

theorem Shape.updated {tab tab' : TabVer} {stmt : Statement} {ok : Bool} {setIdx : Nat}
    (hs : tab.Shape) (h : Updated tab tab' stmt ok setIdx) : tab'.Shape := by
  have hid : tab'.nextId = tab.nextId := by rw [h.frame]
  refine hs.with_rows h.frame.schema ?_ ?_ (hid ▸ hs.nextId)
  · intro row hr
    rw [h.rows] at hr
    obtain ⟨old, hold, rfl | rfl⟩ := updRows_mem hr
    · exact ⟨hs.cells _ hold, hs.noNul _ hold⟩
    · refine ⟨by rw [List.length_set]; exact hs.cells _ hold, fun c hc b hb => ?_⟩
      rcases List.mem_or_eq_of_mem_set hc with hc | rfl
      · exact hs.noNul _ hold c hc b hb
      · exact stmt.setVal.noNul b (mem_normV hb)
  · rw [h.rows, updRows, List.length_map]
    exact hs.rows_le

theorem Shape.filtered {tab tab' : TabVer} (hs : tab.Shape) (hsame : SameButRows tab tab')
    (hsub : tab'.rows.Sublist tab.rows) : tab'.Shape := by
  have hid : tab'.nextId = tab.nextId := by rw [hsame]
  exact hs.with_rows hsame.schema
    (fun row hr => ⟨hs.cells _ (hsub.subset hr), hs.noNul _ (hsub.subset hr)⟩)
    (hsub.length_le.trans hs.rows_le) (hid ▸ hs.nextId)

/-- **Shape** survives every statement, whether it succeeds or not. -/
theorem Shape.execStmt {tab tab' : TabVer} {stmt : Statement} {res res' : DbRes} {ok : Bool}
    (hs : tab.Shape) (h : tab.execStmt stmt res = .ok (tab', res', ok)) :
    tab'.Shape ∧ SameSchema tab tab' := by
  unfold TabVer.execStmt at h
  split at h
  · cases h
    exact ⟨hs, SameSchema.refl tab⟩
  · exact ⟨hs.insDo h, insDo_schema h⟩
  · rcases updDo_cases (Except.ok.inj h) with ⟨-, rfl⟩ | ⟨setIdx, hu⟩
    · exact ⟨hs, SameSchema.refl _⟩
    · exact ⟨hs.updated hu, hu.frame.schema⟩
  · rcases delDo_cases (Except.ok.inj h) with ⟨-, rfl⟩ | ⟨hsame, hrows, -, -⟩
    · exact ⟨hs, SameSchema.refl _⟩
    · exact ⟨hs.filtered hsame (hrows ▸ List.filter_sublist), hsame.schema⟩
  · cases h
    exact ⟨hs, SameSchema.refl tab⟩

theorem Shape.tabClone {src dst : TabVer} (hs : src.Shape) (h : src.tabClone = some dst) :
    dst.Shape ∧ SameSchema src dst := by
  obtain ⟨hframe, -, -⟩ := tabClone_spec h
  have hschema : SameSchema src dst := by
    rw [hframe]
    exact ⟨rfl, rfl, rfl, rfl⟩
  refine ⟨hs.with_rows hschema ?_ ?_ ?_, hschema⟩
  · rw [hframe]
    exact fun row hr => ⟨hs.cells row hr, hs.noNul row hr⟩
  · rw [hframe]
    exact hs.rows_le
  · rw [hframe]
    exact hs.nextId

/-! ## Constraints and indexes -/

/-- The trees file exactly the current rows. -/
structure IndexOk (tab : TabVer) : Prop where
  pkInt : ∀ p, tab.pkIdx = some p → ∀ row ∈ tab.rows, (parseL (cell row p)).isSome
  pk : ∀ p, tab.pkIdx = some p → Indexes tab.pkTree (keyAt (pkVal tab.pkIdx) tab.rows)
  uk : UkFiled tab.rows tab.ukIdx tab.ukTree

/-- The cells of the NN columns are filled. -/
def NnOk (tab : TabVer) : Prop :=
  ∀ row ∈ tab.rows, ∀ i < tab.cols.length, tab.colType i = .nn → cell row i ≠ []

/-- The column constraints hold and the trees file exactly the current rows. -/
structure Sound (tab : TabVer) : Prop extends IndexOk tab where
  nn : tab.NnOk

theorem IndexOk.of_built {tab : TabVer} (hcon : tab.Constraints) (hidx : tab.Indexed) :
    tab.IndexOk := ⟨hcon.pkInt, fun _ _ => hidx.pk, hidx.uk⟩

theorem IndexOk.constraints {tab : TabVer} (h : tab.IndexOk) : tab.Constraints where
  pkInt := h.pkInt
  pkDistinct := by
    cases hp : tab.pkIdx with
    | none =>
        intro i j k hi
        obtain ⟨row, -, hk⟩ := Option.bind_eq_some_iff.1 hi
        cases hk
    | some p => exact hp ▸ (h.pk p hp).distinct
  ukDistinct := fun c hc => by
    obtain ⟨t, ht⟩ := h.uk.exists_of_mem hc
    exact ht.distinct

theorem Sound.tabClone {src dst : TabVer} (h : src.Sound) (hc : src.tabClone = some dst) :
    dst.Sound := by
  obtain ⟨hframe, hcon, hidx⟩ := tabClone_spec hc
  refine ⟨.of_built hcon hidx, ?_⟩
  rw [hframe]
  exact h.nn

theorem cell_set {row : Row} {i j : Nat} {v : Bytes} (hj : j < row.length) :
    cell (row.set i v) j = if i = j then v else cell row j := by
  unfold cell
  by_cases h : i = j
  · subst h
    simp [hj]
  · simp [h]

theorem insDo_entered {tab tab' : TabVer} {stmt : Statement} {res res' : DbRes}
    (h : tab.insDo stmt res = .ok (tab', res', true)) :
    ∃ row newId, res' = { res with count := 1, lastId := newId } ∧
      Entered tab tab' (splitCsv stmt.rowData.bytes) row newId := by
  rcases insDo_cases h with ⟨hok, -⟩ | ⟨hok, -⟩ | ⟨-, row, newId, hres, he⟩
  · cases hok
  · cases hok
  · exact ⟨row, newId, hres, he⟩

theorem IndexOk.insDo {tab tab' : TabVer} {stmt : Statement} {res res' : DbRes} (hs : tab.Shape)
    (hidx : tab.IndexOk) (hkept : tab.PkTextKept stmt)
    (h : tab.insDo stmt res = .ok (tab', res', true)) : tab'.IndexOk := by
  obtain ⟨row, newId, -, he⟩ := insDo_entered h
  have hnew := rowNew_some he.values
  have hschema := insDo_schema h
  have hrows : tab'.rows = tab.rows ++ [row] := by rw [he.frame]
  refine ⟨?_, ?_, ?_⟩
  · intro p hp r hr
    rw [hschema.pkIdx] at hp
    rw [hrows] at hr
    rcases List.mem_append.1 hr with hr | hr
    · exact hidx.pkInt p hp r hr
    · rw [List.mem_singleton.1 hr, hnew.pk hs.nextId hp (hs.pk_lt hp).1 hkept]
      rfl
  · intro p hp
    rw [hschema.pkIdx] at hp ⊢
    have hkey : pkVal tab.pkIdx row = some newId := by
      rw [pkVal, hp, Option.bind_some]
      exact hnew.pk hs.nextId hp (hs.pk_lt hp).1 hkept
    have hins := bptreeInsert_indexes (hidx.pk p hp) keyAt_length newId
    rw [he.pkTree] at hins
    rw [hrows, keyAt_append_of_some hkey]
    exact hins.2
  · have huk := ukEnter_spec row tab.rows tab.ukIdx tab.ukTree hidx.uk
    rw [he.ukTree] at huk
    rw [hrows, hschema.ukIdx]
    exact huk.1

theorem NnOk.insDo {tab tab' : TabVer} {stmt : Statement} {res res' : DbRes} (hnn : tab.NnOk)
    (h : tab.insDo stmt res = .ok (tab', res', true)) : tab'.NnOk := by
  obtain ⟨row, newId, -, he⟩ := insDo_entered h
  have hschema := insDo_schema h
  intro r hr i hi ht
  rw [hschema.cols] at hi
  rw [hschema.colType] at ht
  rw [he.frame] at hr
  rcases List.mem_append.1 hr with hr | hr
  · exact hnn r hr i hi ht
  · rw [List.mem_singleton.1 hr]
    exact (rowNew_some he.values).nn i hi ht

theorem IndexOk.updDo {tab tab' : TabVer} {stmt : Statement} {res res' : DbRes}
    (hidx : tab.IndexOk) (h : tab.updDo stmt res = (tab', res', true)) : tab'.IndexOk := by
  rcases updDo_cases h with ⟨hok, -⟩ | ⟨setIdx, hu⟩
  · cases hok
  · rcases hu.trees rfl with rfl | ⟨hcon, hidx'⟩
    · exact hidx
    · exact .of_built hcon hidx'

theorem NnOk.updDo {tab tab' : TabVer} {stmt : Statement} {res res' : DbRes} (hs : tab.Shape)
    (hnn : tab.NnOk) (h : tab.updDo stmt res = (tab', res', true)) : tab'.NnOk := by
  rcases updDo_cases h with ⟨hok, -⟩ | ⟨setIdx, hu⟩
  · cases hok
  · have hschema := hu.frame.schema
    intro row hr i hi ht
    rw [hschema.cols] at hi
    rw [hschema.colType] at ht
    rw [hu.rows] at hr
    obtain ⟨old, hold, rfl | rfl⟩ := updRows_mem hr
    · exact hnn _ hold i hi ht
    · rw [cell_set (by rw [hs.cells _ hold]; exact hi)]
      split
      · rename_i heq
        subst heq
        exact hu.nn ht
      · exact hnn _ hold i hi ht

theorem IndexOk.delDo {tab tab' : TabVer} {stmt : Statement} {res res' : DbRes}
    (h : tab.delDo stmt res = (tab', res', true)) : tab'.IndexOk := by
  rcases delDo_cases h with ⟨hok, -⟩ | ⟨-, -, -, htrees⟩
  · cases hok
  · obtain ⟨hcon, hidx⟩ := htrees rfl
    exact .of_built hcon hidx

theorem NnOk.delDo {tab tab' : TabVer} {stmt : Statement} {res res' : DbRes}
    (hnn : tab.NnOk) (h : tab.delDo stmt res = (tab', res', true)) : tab'.NnOk := by
  rcases delDo_cases h with ⟨hok, -⟩ | ⟨hsame, hrows, -, -⟩
  · cases hok
  · have hschema := hsame.schema
    intro row hr i hi ht
    rw [hschema.cols] at hi
    rw [hschema.colType] at ht
    rw [hrows] at hr
    exact hnn row (List.mem_of_mem_filter hr) i hi ht

/-- **Indexes** follow every successful statement. -/
theorem IndexOk.execStmt {tab tab' : TabVer} {stmt : Statement} {res res' : DbRes}
    (hs : tab.Shape) (hidx : tab.IndexOk) (hkept : stmt.type = .insert → tab.PkTextKept stmt)
    (h : tab.execStmt stmt res = .ok (tab', res', true)) : tab'.IndexOk := by
  unfold TabVer.execStmt at h
  split at h
  · have htab : tab = tab' := congrArg Prod.fst (Except.ok.inj h)
    exact htab ▸ hidx
  · rename_i htype
    exact hidx.insDo hs (hkept htype) h
  · exact hidx.updDo (Except.ok.inj h)
  · exact .delDo (Except.ok.inj h)
  · cases h

theorem NnOk.execStmt {tab tab' : TabVer} {stmt : Statement} {res res' : DbRes}
    (hs : tab.Shape) (hnn : tab.NnOk)
    (h : tab.execStmt stmt res = .ok (tab', res', true)) : tab'.NnOk := by
  unfold TabVer.execStmt at h
  split at h
  · have htab : tab = tab' := congrArg Prod.fst (Except.ok.inj h)
    exact htab ▸ hnn
  · exact hnn.insDo h
  · exact hnn.updDo hs (Except.ok.inj h)
  · exact hnn.delDo (Except.ok.inj h)
  · cases h

/-- **Constraints and indexes** survive every successful statement. -/
theorem Sound.execStmt {tab tab' : TabVer} {stmt : Statement} {res res' : DbRes} (hs : tab.Shape)
    (hsound : tab.Sound) (hkept : stmt.type = .insert → tab.PkTextKept stmt)
    (h : tab.execStmt stmt res = .ok (tab', res', true)) : tab'.Sound :=
  ⟨hsound.toIndexOk.execStmt hs hkept h, hsound.nn.execStmt hs h⟩

end TabVer

end MiniDbms
