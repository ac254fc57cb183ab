import MiniDbms.Legacy.Rewrites
import MiniDbms.Legacy.Select

/-!
# Which rows a WHERE clause denotes

The rows that SELECT prints, UPDATE changes and DELETE removes for one clause, as sets of
slots.  UPDATE does not compare the row of a single equality again, SELECT does not see the
rows without a text in the index of a range, and its scan compares the first 255 bytes of a
field only.
-/

namespace MiniDbms.Legacy

open Bptree

namespace TableCache

variable {tc : TableCache} {conds : List WhereCondition}

/-! ## Matching a row -/

/-- Only a single equality is compared in the text of the row. -/
theorem rowMatches_eq_fields (h : ∀ cond, conds = [cond] → cond.type ≠ .eq) (schema : Schema)
    (row : Bytes) : rowMatchesStatement schema conds row =
      rowFieldsMatchStatement schema conds (parseCsvRow row) := by
  match conds with
  | [] => rfl
  | [cond] => simp only [rowMatchesStatement, if_neg (h cond rfl)]
  | _ :: _ :: _ => rfl

theorem rowFieldsMatch_single {schema : Schema} {cond : WhereCondition} {col : Nat}
    (heq : cond.type = .eq) (hcol : schema.conditionColumnIndex cond = some col) (row : Bytes) :
    rowFieldsMatchStatement schema [cond] (parseCsvRow row) =
      compareValue ((field row col).getD []) cond.val.bytes := by
  simp only [rowFieldsMatchStatement, List.all_cons, List.all_nil, Bool.and_true,
    conditionMatches, hcol, heq, field]

theorem range_of_matches {schema : Schema} {cond : WhereCondition} {col : Nat} {row : Bytes}
    (hmem : cond ∈ conds) (htype : cond.type = .between)
    (hcol : schema.conditionColumnIndex cond = some col)
    (h : rowMatchesStatement schema conds row = true) :
    compareRangeValue schema col (field row col) cond = true := by
  have hsingle : ∀ c, conds = [c] → c.type ≠ .eq := by
    rintro c rfl heq
    rw [List.mem_singleton.1 hmem, heq] at htype
    cases htype
  rw [rowMatches_eq_fields hsingle] at h
  have hcond := List.all_eq_true.1 h cond hmem
  unfold conditionMatches at hcond
  rw [hcol] at hcond
  simp only [htype] at hcond
  exact hcond

theorem mem_filter_rows {p : Bytes → Bool} {i : Nat} :
    i ∈ (tc.rows.filter fun e => p e.2).map Prod.fst ↔
      ∃ row, tc.slotRow i = some row ∧ p row = true := by
  rw [List.mem_map]
  constructor
  · rintro ⟨e, he, rfl⟩
    obtain ⟨he, hmatch⟩ := List.mem_filter.1 he
    exact ⟨e.2, mem_rows.1 he, hmatch⟩
  · rintro ⟨row, hrow, hmatch⟩
    exact ⟨(i, row), List.mem_filter.2 ⟨mem_rows.2 hrow, hmatch⟩, rfl⟩

/-! ## SELECT -/

theorem matchingRow_eq_some {i j : Nat} {row : Bytes} : tc.matchingRow conds i = some (j, row) ↔
    j = i ∧ tc.slotRow i = some row ∧ rowMatchesStatement tc.schema conds row = true := by
  unfold matchingRow
  rw [Option.map_eq_some_iff]
  simp only [Option.filter_eq_some_iff, Prod.mk.injEq]
  constructor
  · rintro ⟨row', hrow', rfl, rfl⟩
    exact ⟨rfl, hrow'⟩
  · rintro ⟨rfl, hrow⟩
    exact ⟨row, hrow, rfl, rfl⟩

theorem mem_rangeRows {α : Type} [LinearOrder α] {tree : BPlusTree α} {m : α → Option Nat}
    (hm : IsMap tree m) {lo hi : α} {i : Nat} {row : Bytes} :
    (i, row) ∈ (rangeSearch tree lo hi (tc.printRangeRow conds) []).1 ↔
      (∃ key, (lo ≤ key ∧ key ≤ hi) ∧ m key = some i) ∧ tc.slotRow i = some row ∧
        rowMatchesStatement tc.schema conds row = true := by
  obtain ⟨L, -, hmem, hvisit⟩ := hm.range lo hi
  have hfold : ∀ (L : List (α × Nat)) (rows : List (Nat × Bytes)),
      (i, row) ∈ L.foldl (fun s e => s ++ (tc.matchingRow conds e.2).toList) rows ↔
        (i, row) ∈ rows ∨ (∃ key, (key, i) ∈ L) ∧ tc.matchingRow conds i = some (i, row) := by
    intro L
    induction L with
    | nil => intro rows; simp
    | cons e L ih =>
        intro rows
        have hslot : (i, row) ∈ (tc.matchingRow conds e.2).toList ↔
            e.2 = i ∧ tc.matchingRow conds i = some (i, row) := by
          rw [Option.mem_toList]
          constructor
          · intro he
            obtain rfl := (matchingRow_eq_some.1 he).1
            exact ⟨rfl, he⟩
          · rintro ⟨rfl, he⟩
            exact he
        rw [List.foldl_cons, ih, List.mem_append, hslot, or_assoc]
        refine or_congr_right ?_
        constructor
        · rintro (⟨heq, hrow⟩ | ⟨⟨key, hkey⟩, hrow⟩)
          · exact ⟨⟨e.1, heq ▸ List.mem_cons_self⟩, hrow⟩
          · exact ⟨⟨key, List.mem_cons_of_mem e hkey⟩, hrow⟩
        · rintro ⟨⟨key, hkey⟩, hrow⟩
          obtain heq | hkey := List.mem_cons.1 hkey
          · exact Or.inl ⟨congrArg Prod.snd heq.symm, hrow⟩
          · exact Or.inr ⟨⟨key, hkey⟩, hrow⟩
  have hrows : (rangeSearch tree lo hi (tc.printRangeRow conds) []).1 =
      L.foldl (fun s e => s ++ (tc.matchingRow conds e.2).toList) [] := by
    refine (congrArg Prod.fst (hvisit (tc.printRangeRow conds) [])).trans ?_
    unfold printRangeRow
    rw [visitEntries_fold]
  rw [hrows, hfold, matchingRow_eq_some]
  simp only [List.not_mem_nil, false_or, true_and, hmem]

/-- What a SELECT prints; nothing where it fails. -/
def printed (tc : TableCache) (stmt : Statement) : Emitted :=
  match tc.executeSelect stmt with
  | .ok (_, emitted) => emitted
  | .error _ => {}

/-- The slots whose rows a SELECT prints. -/
def printedSlots (tc : TableCache) (stmt : Statement) : List Nat :=
  (tc.printed stmt).slots.map Prod.fst

/-- The columns of a SELECT are columns of the table. -/
def Selects (tc : TableCache) (stmt : Statement) : Prop :=
  stmt.selectAll = true ∨
    ∀ name ∈ stmt.selectCols, (tc.schema.getColIdx name.bytes).isSome = true

theorem executeSelect_eq {stmt : Statement} (hcols : tc.Selects stmt)
    (hwhere : tc.schema.unknownColumn stmt.whereConditions = none) :
    ∃ cols, tc.executeSelect stmt = (tc.selectRows stmt.whereConditions).map (cols, ·) := by
  unfold executeSelect
  rw [hwhere]
  by_cases hall : stmt.selectAll = true
  · exact ⟨none, by simp only [if_pos hall]⟩
  · have hnone : stmt.selectCols.find?
        (fun name => tc.schema.getColIdx name.bytes = none) = none := by
      refine List.find?_eq_none.2 fun name hname => ?_
      obtain ⟨col, hcol⟩ := Option.isSome_iff_exists.1 (hcols.resolve_left hall name hname)
      simp [hcol]
    simp only [if_neg hall, hnone]
    exact ⟨_, rfl⟩

theorem mem_printedSlots {stmt : Statement} (hcols : tc.Selects stmt)
    (hwhere : tc.schema.unknownColumn stmt.whereConditions = none) {i : Nat} :
    i ∈ tc.printedSlots stmt ↔
      ∃ emitted row, tc.selectRows stmt.whereConditions = .ok emitted ∧
        (i, row) ∈ emitted.slots := by
  obtain ⟨cols, hselect⟩ := executeSelect_eq hcols hwhere
  unfold printedSlots printed
  rw [hselect]
  cases tc.selectRows stmt.whereConditions with
  | error e => simp [Except.map]
  | ok emitted => simp [Except.map]

theorem executeSelect_ok {stmt : Statement} {cols : Option (List Nat)} {emitted : Emitted}
    (h : tc.executeSelect stmt = .ok (cols, emitted)) :
    tc.selectRows stmt.whereConditions = .ok emitted := by
  have hmap : ∀ {cols' : Option (List Nat)}, (tc.selectRows stmt.whereConditions).map (cols', ·) =
      .ok (cols, emitted) → tc.selectRows stmt.whereConditions = .ok emitted := by
    intro cols' h
    cases hresult : tc.selectRows stmt.whereConditions with
    | error e =>
        rw [hresult] at h
        cases h
    | ok emitted' =>
        rw [hresult] at h
        cases h
        rfl
  unfold executeSelect at h
  split at h
  · cases h
  · split at h
    · exact hmap h
    · split at h
      · cases h
      · exact hmap h

theorem printed_tail (hstart : tc.uncachedStart = none) (stmt : Statement) :
    (tc.printed stmt).tail = [] := by
  have htail : ∀ rows, tc.ifTruncated rows = [] := fun rows => by
    unfold ifTruncated
    rw [hstart]
    rfl
  have hrows : ∀ conds emitted, tc.selectRows conds = .ok emitted → emitted.tail = [] := by
    intro conds emitted h
    unfold selectRows at h
    split at h
    · split at h
      · split at h
        · unfold selectPkRange at h
          split at h
          · cases h
            exact htail _
          · cases h
        · cases h
          unfold selectUkRange
          simp only
          split
          · rfl
          · exact htail _
      · split at h
        · unfold selectPk at h
          rw [hstart] at h
          split at h
          · cases h
          · split at h <;> cases h <;> rfl
        · cases h
          unfold selectUk
          split
          · rfl
          · exact htail _
    · cases h
      exact htail _
  unfold printed
  split
  · rename_i emitted h
    exact hrows _ _ (executeSelect_ok h)
  · rfl

theorem mem_selectPkRange (h : tc.Consistent) {cond : WhereCondition} {col : Nat}
    (hmem : cond ∈ conds) (htype : cond.type = .between)
    (hcol : tc.schema.conditionColumnIndex cond = some col) (hpk : tc.schema.pkIdx = some col)
    {i : Nat} :
    (∃ emitted row, tc.selectPkRange conds cond col = .ok emitted ∧ (i, row) ∈ emitted.slots) ↔
      ∃ row, tc.slotRow i = some row ∧ rowMatchesStatement tc.schema conds row = true := by
  obtain ⟨m, hm, hiff⟩ := h.exact.id
  have hkey : ∀ row, tc.rowIndexKey row i = fieldLong row col := fun row => by
    unfold rowIndexKey
    rw [hpk]
  -- a row that matches has a number, which lies between those of the clause
  have hrange : ∀ row, rowMatchesStatement tc.schema conds row = true →
      ∃ key lo hi, fieldLong row col = some key ∧ parseLongValue cond.val.bytes = some lo ∧
        parseLongValue cond.endVal.bytes = some hi ∧ lo ≤ key ∧ key ≤ hi := by
    intro row hrow
    have hcmp := range_of_matches hmem htype hcol hrow
    unfold compareRangeValue at hcmp
    unfold fieldLong
    cases hfield : field row col with
    | none =>
        rw [hfield] at hcmp
        cases hcmp
    | some text =>
        rw [hfield] at hcmp
        simp only [if_pos hpk] at hcmp
        split at hcmp
        · rename_i key lo hi hkey hlo hhi
          simp only [Bool.and_eq_true, decide_eq_true_eq] at hcmp
          exact ⟨key, lo, hi, hkey, hlo, hhi, hcmp⟩
        · cases hcmp
  unfold selectPkRange
  constructor
  · rintro ⟨emitted, row, hemitted, hslot⟩
    split at hemitted
    · cases hemitted
      obtain ⟨-, hrow⟩ := (mem_rangeRows hm).1 hslot
      exact ⟨row, hrow⟩
    · cases hemitted
  · rintro ⟨row, hrow, hmatch⟩
    obtain ⟨key, lo, hi, hnumber, hlo, hhi, hin⟩ := hrange row hmatch
    rw [hlo, hhi]
    refine ⟨_, row, rfl, (mem_rangeRows hm).2 ⟨⟨key, hin, ?_⟩, hrow, hmatch⟩⟩
    exact (hiff key i).2 ⟨row, hrow, (hkey row).trans hnumber⟩

/-- The slots of a range on a UK column: those that match and have a text in the index. -/
theorem mem_selectUkRange (h : tc.Consistent) {cond : WhereCondition} {col : Nat}
    (hmem : cond ∈ conds) (htype : cond.type = .between)
    (hcol : tc.schema.conditionColumnIndex cond = some col) (hpk : tc.schema.pkIdx ≠ some col)
    (huk : (tc.getUkSlot col).isSome = true) {i : Nat} :
    (∃ row, (i, row) ∈ (tc.selectUkRange conds cond col).slots) ↔
      ∃ row, tc.slotRow i = some row ∧ rowMatchesStatement tc.schema conds row = true ∧
        ukKey row col ≠ [] := by
  obtain ⟨uk, huk⟩ := Option.isSome_iff_exists.1 huk
  have hindices := getUkSlot_spec huk
  rw [← h.exact.cols, List.getElem?_map] at hindices
  obtain ⟨index, hindex, hidx⟩ := Option.map_eq_some_iff.1 hindices
  obtain ⟨m, hm, hiff⟩ := h.exact.uk index (List.mem_of_getElem? hindex)
  rw [hidx] at hiff
  have hrange : ∀ row, rowMatchesStatement tc.schema conds row = true →
      normV RECORD_SIZE cond.val.bytes ≤ ukKey row col ∧
        ukKey row col ≤ normV RECORD_SIZE cond.endVal.bytes := by
    intro row hrow
    have hcmp := range_of_matches hmem htype hcol hrow
    unfold compareRangeValue at hcmp
    unfold ukKey
    cases hfield : field row col with
    | none =>
        rw [hfield] at hcmp
        cases hcmp
    | some text =>
        rw [hfield] at hcmp
        simp only [if_neg hpk] at hcmp
        simpa [cmpRng] using hcmp
  unfold selectUkRange
  rw [huk, Option.bind_some, hindex]
  refine exists_congr fun row => ?_
  rw [mem_rangeRows hm]
  constructor
  · rintro ⟨⟨key, -, hkey⟩, hrow, hmatch⟩
    obtain ⟨hne, row', hrow', rfl⟩ := (hiff key i).1 hkey
    obtain rfl : row' = row := Option.some.inj (hrow'.symm.trans hrow)
    exact ⟨hrow, hmatch, hne⟩
  · rintro ⟨hrow, hmatch, hne⟩
    exact ⟨⟨ukKey row col, hrange row hmatch, (hiff _ i).2 ⟨hne, row, hrow, rfl⟩⟩, hrow, hmatch⟩

theorem mem_selectFound {cond : WhereCondition} {col : Nat} {i : Nat} :
    (∃ emitted row, (if tc.schema.pkIdx = some col then tc.selectPk conds cond
        else .ok (tc.selectUk conds cond col)) = .ok emitted ∧ (i, row) ∈ emitted.slots) ↔
      tc.foundRow cond col = some i ∧
        ∃ row, tc.slotRow i = some row ∧ rowMatchesStatement tc.schema conds row = true := by
  have hfound : ∀ {j : Nat}, (∃ row, (i, row) ∈ (tc.matchingRow conds j).toList) ↔
      j = i ∧ ∃ row, tc.slotRow i = some row ∧
        rowMatchesStatement tc.schema conds row = true := by
    intro j
    simp only [Option.mem_toList, matchingRow_eq_some]
    constructor
    · rintro ⟨row, rfl, hrow⟩
      exact ⟨rfl, row, hrow⟩
    · rintro ⟨rfl, row, hrow⟩
      exact ⟨row, rfl, hrow⟩
  -- an entry for a slot without a row finds nothing in either way
  have hactive : ∀ found : Option Nat, (∃ j, found = some j ∧ j = i ∧
      ∃ row, tc.slotRow i = some row ∧ rowMatchesStatement tc.schema conds row = true) ↔
      found.filter tc.slotIsActive = some i ∧
        ∃ row, tc.slotRow i = some row ∧ rowMatchesStatement tc.schema conds row = true := by
    intro found
    rw [Option.filter_eq_some_iff]
    constructor
    · rintro ⟨j, rfl, rfl, row, hrow, hmatch⟩
      exact ⟨⟨rfl, slotIsActive_of_row hrow⟩, row, hrow, hmatch⟩
    · rintro ⟨⟨rfl, -⟩, hrow⟩
      exact ⟨i, rfl, rfl, hrow⟩
  unfold foundRow
  split
  · rename_i hpk
    unfold findPkRow selectPk
    rw [if_neg (by rw [hpk]; simp)]
    cases parseLongValue cond.val.bytes with
    | none => simp
    | some key =>
        simp only [Option.bind_some]
        rw [← hactive]
        cases search tc.idIndex key with
        | none =>
            refine iff_of_false ?_ (by rintro ⟨j, hj, -⟩; cases hj)
            rintro ⟨emitted, row, hemitted, hslot⟩
            have hnone : emitted.slots = [] := by
              simp only at hemitted
              split at hemitted
              · split at hemitted <;> exact (Except.ok.inj hemitted) ▸ rfl
              · exact (Except.ok.inj hemitted) ▸ rfl
            rw [hnone] at hslot
            cases hslot
        | some j =>
            constructor
            · rintro ⟨emitted, row, hemitted, hslot⟩
              cases hemitted
              exact ⟨j, rfl, hfound.1 ⟨row, hslot⟩⟩
            · rintro ⟨j', hj', hrow⟩
              cases hj'
              obtain ⟨row, hslot⟩ := hfound.2 hrow
              exact ⟨_, row, rfl, hslot⟩
  · unfold selectUk
    cases tc.findUkRow col cond.val.bytes with
    | none =>
        refine iff_of_false ?_ fun hj => by cases hj.1
        rintro ⟨emitted, row, hemitted, hslot⟩
        cases hemitted
        cases hslot
    | some j =>
        constructor
        · rintro ⟨emitted, row, hemitted, hslot⟩
          cases hemitted
          obtain ⟨rfl, hrow⟩ := hfound.1 ⟨row, hslot⟩
          exact ⟨rfl, hrow⟩
        · rintro ⟨hj, hrow⟩
          obtain ⟨row, hslot⟩ := hfound.2 ⟨Option.some.inj hj, hrow⟩
          exact ⟨_, row, rfl, hslot⟩

/-- A SELECT prints the row of this slot. -/
def SelectHits (tc : TableCache) (conds : List WhereCondition) (i : Nat) (row : Bytes) : Prop :=
  match tc.chooseIndexCondition true conds with
  | some (cond, col) => rowMatchesStatement tc.schema conds row = true ∧
      (cond.type = .eq → tc.foundRow cond col = some i) ∧
      (cond.type ≠ .eq → tc.schema.pkIdx ≠ some col → ukKey row col ≠ [])
  | none => rowFieldsMatchStatement tc.schema conds (parseCsvRow row) = true

theorem mem_printed (h : tc.Consistent) {stmt : Statement} (hcols : tc.Selects stmt)
    (hwhere : stmt.whereConditions = conds) (hknown : tc.schema.unknownColumn conds = none)
    {i : Nat} :
    i ∈ tc.printedSlots stmt ↔ ∃ row, tc.slotRow i = some row ∧ tc.SelectHits conds i row := by
  unfold SelectHits
  subst hwhere
  rw [mem_printedSlots hcols hknown]
  unfold selectRows
  cases hchoose : tc.chooseIndexCondition true stmt.whereConditions with
  | none =>
      simp only
      unfold selectScan
      constructor
      · rintro ⟨emitted, row, hemitted, hslot⟩
        cases hemitted
        obtain ⟨hrow, hmatch⟩ := List.mem_filter.1 hslot
        exact ⟨row, mem_rows.1 hrow, hmatch⟩
      · rintro ⟨row, hrow, hmatch⟩
        exact ⟨_, row, rfl, List.mem_filter.2 ⟨mem_rows.2 hrow, hmatch⟩⟩
  | some best =>
      obtain ⟨cond, col⟩ := best
      have hchosen := chosen_of_choose hchoose
      simp only
      by_cases htype : cond.type = .between
      · have heq : cond.type ≠ .eq := by
          rw [htype]
          decide
        rw [if_pos htype]
        by_cases hpk : tc.schema.pkIdx = some col
        · rw [if_pos hpk, mem_selectPkRange h hchosen.mem htype hchosen.col hpk]
          simp [heq, hpk]
        · have huk : (tc.getUkSlot col).isSome = true := by
            have hscore := hchosen.score
            unfold conditionScore at hscore
            simp only [heq, hpk, false_and, and_false, if_false] at hscore
            by_contra hno
            simp [hno] at hscore
          rw [if_neg hpk]
          have hrange := @mem_selectUkRange tc stmt.whereConditions h cond col hchosen.mem htype
            hchosen.col hpk huk i
          constructor
          · rintro ⟨emitted, row, hemitted, hslot⟩
            cases hemitted
            obtain ⟨row, hrow, hmatch, hne⟩ := hrange.1 ⟨row, hslot⟩
            exact ⟨row, hrow, hmatch, fun hno => absurd hno heq, fun _ _ => hne⟩
          · rintro ⟨row, hrow, hmatch, -, hne⟩
            obtain ⟨row, hslot⟩ := hrange.2 ⟨row, hrow, hmatch, hne heq hpk⟩
            exact ⟨_, row, rfl, hslot⟩
      · have heq : cond.type = .eq := by
          have hscore := hchosen.score
          unfold conditionScore at hscore
          by_contra hno
          simp [htype, hno] at hscore
        rw [if_neg htype, mem_selectFound]
        constructor
        · rintro ⟨hfound, row, hrow, hmatch⟩
          exact ⟨row, hrow, hmatch, fun _ => hfound, fun hno => absurd heq hno⟩
        · rintro ⟨row, hrow, hmatch, hfound, -⟩
          exact ⟨hfound heq, row, hrow, hmatch⟩

end TableCache

/-! ## UPDATE and DELETE -/

namespace TableCache

/-- An UPDATE goes for the row of this slot; the row that an index finds is compared with the
clause only where that has several conditions. -/
def UpdateHits (tc : TableCache) (conds : List WhereCondition) (i : Nat) (row : Bytes) : Prop :=
  match tc.chooseIndexCondition false conds with
  | some (cond, col) => tc.foundRow cond col = some i ∧
      (conds.length = 1 ∨ rowMatchesStatement tc.schema conds row = true)
  | none => rowMatchesStatement tc.schema conds row = true

/-- A DELETE goes for the row of this slot. -/
def DeleteHits (tc : TableCache) (conds : List WhereCondition) (i : Nat) (row : Bytes) : Prop :=
  match tc.chooseIndexCondition false conds with
  | some (cond, col) => tc.foundRow cond col = some i ∧
      rowMatchesStatement tc.schema conds row = true
  | none => rowMatchesStatement tc.schema conds row = true

/-- The new row of a slot that an UPDATE changes. -/
def updatedRow (tc : TableCache) (stmt : Statement) (row : Bytes) : Option Bytes :=
  match tc.schema.getColIdx stmt.setCol.bytes with
  | none => none
  | some setIdx =>
    match tc.chooseIndexCondition false stmt.whereConditions with
    | some _ => buildUpdatedRow tc.schema row setIdx (setValue stmt)
    | none => executeUpdateRow tc.schema row setIdx (setValue stmt)

end TableCache

namespace Opened

variable {st st' : Opened} {conds : List WhereCondition} {slotIds : List Nat}

/-- The slots that an UPDATE reports as changed. -/
def changedSlots (st : Opened) (stmt : Statement) : List Nat :=
  match (st.executeUpdate stmt).2 with
  | .ok (.slots slotIds _) => slotIds
  | _ => []

/-- The slots that a DELETE reports as emptied. -/
def removedSlots (st : Opened) (conds : List WhereCondition) : List Nat :=
  match (st.executeDelete conds).2 with
  | .ok (.slots slotIds _) => slotIds
  | _ => []

theorem changedSlots_finish {stmt : Statement}
    (h : st.executeUpdate stmt = st'.finishUpdate slotIds) : st.changedSlots stmt = slotIds := by
  unfold changedSlots
  rw [h]
  rfl

theorem removedSlots_finish (h : st.executeDelete conds = st'.finishDelete slotIds) :
    st.removedSlots conds = slotIds := by
  unfold removedSlots
  rw [h]
  rfl

theorem executeUpdate_ok {stmt : Statement} {u : Updated}
    (hstart : st.table.uncachedStart = none) (hok : (st.executeUpdate stmt).2 = .ok u) :
    st.table.schema.unknownColumn stmt.whereConditions = none ∧ stmt.whereConditions ≠ [] ∧
      ∃ setIdx uk, st.table.schema.getColIdx stmt.setCol.bytes = some setIdx ∧
        st.executeUpdate stmt =
          match st.table.chooseIndexCondition false stmt.whereConditions with
          | some (cond, col) =>
            st.updateSingleRow stmt.whereConditions cond col setIdx (setValue stmt) uk
          | none => st.updateMatching stmt.whereConditions setIdx (setValue stmt) uk := by
  unfold executeUpdate at hok ⊢
  simp only at hok ⊢
  split at hok
  · cases hok
  · rename_i hcolumn
    by_cases hne : stmt.whereConditions = []
    · rw [if_pos hne] at hok
      cases hok
    · rw [if_neg hne] at hok ⊢
      refine ⟨hcolumn, hne, ?_⟩
      split at hok
      · cases hok
      · rename_i setIdx hset
        refine ⟨setIdx, ((st.table.schema.cols[setIdx]?).map (·.type)).getD .normal = .uk,
          hset, ?_⟩
        split at hok
        · cases hok
        · rename_i hpk
          rw [if_neg hpk]
          split at hok
          · cases hok
          · rename_i hnn
            rewrite [if_neg hnn, hstart, if_neg (by simp)]
            cases st.table.chooseIndexCondition false stmt.whereConditions <;> rfl

/-- An UPDATE rewrites the rows it goes for. -/
theorem executeUpdate_rewrites {stmt : Statement} {u : Updated}
    (hstart : st.table.uncachedStart = none) (hok : (st.executeUpdate stmt).2 = .ok u) :
    (∃ (st' : Opened) (slotIds : List Nat), st.executeUpdate stmt = st'.finishUpdate slotIds ∧
      st.table.Rewrites st'.table slotIds (st.table.updatedRow stmt) ∧
      ∀ i, i ∈ slotIds ↔ ∃ row, st.table.slotRow i = some row ∧
        st.table.UpdateHits stmt.whereConditions i row) ∨
    st.executeUpdate stmt = (some st, .ok .nothing) ∧
      ∀ i row, st.table.slotRow i = some row →
        ¬ st.table.UpdateHits stmt.whereConditions i row := by
  obtain ⟨-, -, setIdx, uk, hset, hupdate⟩ := executeUpdate_ok hstart hok
  unfold TableCache.UpdateHits TableCache.updatedRow
  rw [hset]
  rw [hupdate] at hok ⊢
  cases hchoose : st.table.chooseIndexCondition false stmt.whereConditions with
  | some best =>
      obtain ⟨cond, col⟩ := best
      rw [hchoose] at hok
      simp only at hok ⊢
      obtain ⟨hnothing, hmiss⟩ | ⟨target, row, st', hfound, hrow, hyes, hfinish, hrows⟩ :=
        updateSingleRow_cases hok
      · refine Or.inr ⟨hnothing, fun i row hrow hhit => ?_⟩
        obtain ⟨hlen, hno⟩ := hmiss i row hhit.1 hrow
        rw [hno] at hhit
        exact hhit.2.elim hlen Bool.false_ne_true
      · refine Or.inl ⟨st', [target], hfinish, hrows, fun i => ?_⟩
        rw [List.mem_singleton, hfound, Option.some.injEq]
        constructor
        · rintro rfl
          exact ⟨row, hrow, rfl, hyes⟩
        · rintro ⟨-, -, rfl, -⟩
          rfl
  | none =>
      rw [hchoose] at hok
      simp only at hok ⊢
      obtain ⟨hnothing, hnone⟩ | ⟨st', hfinish, hrows⟩ := updateMatching_cases hok
      · refine Or.inr ⟨hnothing, fun i row hrow hmatch => ?_⟩
        have hmem := TableCache.mem_filter_rows.2 ⟨row, hrow, hmatch⟩
        rw [hnone] at hmem
        cases hmem
      · exact Or.inl ⟨st', _, hfinish, hrows, fun i => TableCache.mem_filter_rows⟩

theorem executeDelete_eq (hstart : st.table.uncachedStart = none)
    (hwhere : st.table.schema.unknownColumn conds = none) (hne : conds ≠ []) :
    st.executeDelete conds =
      if st.table.slots = [] then (some st, .ok .nothing)
      else
        match st.table.chooseIndexCondition false conds with
        | some (cond, col) => st.deleteIndexed conds cond col
        | none => st.deleteMatching conds := by
  have hnot : ¬ st.table.uncachedStart.isSome = true := by
    rw [hstart]
    exact Bool.false_ne_true
  unfold executeDelete
  rw [hwhere]
  exact (if_neg hne).trans (if_neg hnot)

/-- A DELETE empties the slots of the rows it goes for. -/
theorem executeDelete_rewrites (h : st.table.Consistent) (hstart : st.table.uncachedStart = none)
    (hwhere : st.table.schema.unknownColumn conds = none) (hne : conds ≠ []) :
    (∃ (st' : Opened) (slotIds : List Nat), st.executeDelete conds = st'.finishDelete slotIds ∧
      st.table.Rewrites st'.table slotIds (fun _ => none) ∧
      ∀ i, i ∈ slotIds ↔ ∃ row, st.table.slotRow i = some row ∧ st.table.DeleteHits conds i row) ∨
    ∃ st' : Opened, st.executeDelete conds = (some st', .ok .nothing) ∧
      (∀ i, st'.table.slotRow i = st.table.slotRow i) ∧
      ∀ i row, st.table.slotRow i = some row → ¬ st.table.DeleteHits conds i row := by
  rw [executeDelete_eq hstart hwhere hne]
  unfold TableCache.DeleteHits
  by_cases hempty : st.table.slots = []
  · rw [if_pos hempty]
    refine Or.inr ⟨st, rfl, fun _ => rfl, fun i row hrow => ?_⟩
    unfold TableCache.slotRow at hrow
    rw [hempty] at hrow
    cases hrow
  · rw [if_neg hempty]
    cases hchoose : st.table.chooseIndexCondition false conds with
    | some best =>
        obtain ⟨cond, col⟩ := best
        simp only
        obtain ⟨st', hnothing, hsame, hmiss⟩ |
            ⟨target, row, st', hfound, hrow, hmatch, hfinish, hrows⟩ :=
          deleteIndexed_cases h (TableCache.chosen_of_choose hchoose)
        · refine Or.inr ⟨st', hnothing, hsame, fun i row hrow hhit => ?_⟩
          rw [hmiss i row hhit.1 hrow] at hhit
          exact Bool.false_ne_true hhit.2
        · refine Or.inl ⟨st', [target], hfinish, hrows, fun i => ?_⟩
          rw [List.mem_singleton, hfound, Option.some.injEq]
          constructor
          · rintro rfl
            exact ⟨row, hrow, rfl, hmatch⟩
          · rintro ⟨-, -, rfl, -⟩
            rfl
    | none =>
        simp only
        obtain ⟨hnothing, hnone⟩ | ⟨st', hfinish, hrows⟩ := deleteMatching_cases h
        · refine Or.inr ⟨st, hnothing, fun _ => rfl, fun i row hrow hmatch => ?_⟩
          have hmem := TableCache.mem_filter_rows.2 ⟨row, hrow, hmatch⟩
          rw [hnone] at hmem
          cases hmem
        · exact Or.inl ⟨st', _, hfinish, hrows, fun i => TableCache.mem_filter_rows⟩

end Opened

/-! ## The same rows -/

namespace TableCache

/-- No row is denoted in one way and not in another.  The row that one equality finds in an
index has its text; a range on a UK column leaves no row without a text there out; and where
one equality is looked for in all rows, the first 255 bytes of a field decide. -/
def Unambiguous (tc : TableCache) (conds : List WhereCondition) : Prop :=
  match tc.chooseIndexCondition false conds with
  | some (cond, col) => conds.length = 1 → ∀ i row, tc.foundRow cond col = some i →
      tc.slotRow i = some row → rowFieldEquals row col cond.val.bytes = true
  | none =>
    match tc.chooseIndexCondition true conds with
    | some (_, col) => tc.schema.pkIdx = some col ∨ ∀ i row, tc.slotRow i = some row →
        rowMatchesStatement tc.schema conds row = true → ukKey row col ≠ []
    | none => ∀ cond col, conds = [cond] → cond.type = .eq →
        tc.schema.conditionColumnIndex cond = some col → ∀ i row, tc.slotRow i = some row →
          compareValue ((field row col).getD []) cond.val.bytes =
            rowFieldEquals row col cond.val.bytes

end TableCache

namespace TableCache

variable {tc : TableCache} {conds : List WhereCondition}

/-- The three statements go for the same rows. -/
def SameHits (tc : TableCache) (conds : List WhereCondition) : Prop :=
  ∀ i row, tc.slotRow i = some row → (tc.SelectHits conds i row ↔ tc.UpdateHits conds i row) ∧
    (tc.UpdateHits conds i row ↔ tc.DeleteHits conds i row)

theorem sameHits_indexed {cond : WhereCondition} {col : Nat}
    (hchoose : tc.chooseIndexCondition false conds = some (cond, col)) :
    tc.SameHits conds ↔ tc.Unambiguous conds := by
  have hchosen := chosen_of_choose hchoose
  unfold SameHits SelectHits UpdateHits DeleteHits Unambiguous
  rw [choose_true_of_false hchoose, hchoose]
  simp only
  constructor
  · intro hsame hlen i row hfound hrow
    have hmatch := ((hsame i row hrow).2.1 ⟨hfound, Or.inl hlen⟩).2
    obtain ⟨c, rfl⟩ := List.length_eq_one_iff.1 hlen
    obtain rfl : cond = c := List.mem_singleton.1 hchosen.mem
    rwa [rowMatches_single hchosen.eq.1 hchosen.col] at hmatch
  · intro hsafe i row hrow
    -- a row that is found matches, whether it is compared or not
    have hmatches : tc.foundRow cond col = some i →
        conds.length = 1 ∨ rowMatchesStatement tc.schema conds row = true →
          rowMatchesStatement tc.schema conds row = true := by
      rintro hfound (hlen | hmatch)
      · have htext := hsafe hlen i row hfound hrow
        obtain ⟨c, rfl⟩ := List.length_eq_one_iff.1 hlen
        obtain rfl : cond = c := List.mem_singleton.1 hchosen.mem
        rwa [rowMatches_single hchosen.eq.1 hchosen.col]
      · exact hmatch
    constructor
    · constructor
      · rintro ⟨hmatch, hfound, -⟩
        exact ⟨hfound hchosen.eq.1, Or.inr hmatch⟩
      · rintro ⟨hfound, hyes⟩
        exact ⟨hmatches hfound hyes, fun _ => hfound, fun hno => absurd hchosen.eq.1 hno⟩
    · constructor
      · rintro ⟨hfound, hyes⟩
        exact ⟨hfound, hmatches hfound hyes⟩
      · rintro ⟨hfound, hmatch⟩
        exact ⟨hfound, Or.inr hmatch⟩

/-- Only SELECT uses an index, for a range. -/
theorem sameHits_range {cond : WhereCondition} {col : Nat}
    (hchoose : tc.chooseIndexCondition false conds = none)
    (hrange : tc.chooseIndexCondition true conds = some (cond, col)) :
    tc.SameHits conds ↔ tc.Unambiguous conds := by
  have hchosen := chosen_of_choose hrange
  have htype : cond.type ≠ .eq := by
    intro heq
    have hscore := hchosen.score
    rw [conditionScore_eq true heq,
      score_of_choose_none hchoose hchosen.mem hchosen.col] at hscore
    exact Nat.lt_irrefl 0 hscore
  unfold SameHits SelectHits UpdateHits DeleteHits Unambiguous
  rw [hchoose, hrange]
  simp only [iff_self, and_true]
  constructor
  · intro hsame
    by_cases hpk : tc.schema.pkIdx = some col
    · exact Or.inl hpk
    · exact Or.inr fun i row hrow hmatch => ((hsame i row hrow).2 hmatch).2.2 htype hpk
  · intro hsafe i row hrow
    constructor
    · exact fun hhit => hhit.1
    · intro hmatch
      exact ⟨hmatch, fun heq => absurd heq htype,
        fun _ hpk => hsafe.resolve_left hpk i row hrow hmatch⟩

theorem sameHits_scan (hknown : tc.schema.unknownColumn conds = none)
    (hchoose : tc.chooseIndexCondition false conds = none)
    (hrange : tc.chooseIndexCondition true conds = none) :
    tc.SameHits conds ↔ tc.Unambiguous conds := by
  unfold SameHits SelectHits UpdateHits DeleteHits Unambiguous
  rw [hchoose, hrange]
  simp only [iff_self, and_true]
  constructor
  · rintro hsame cond col rfl heq hcol i row hrow
    have hiff := hsame i row hrow
    rw [rowMatches_single heq hcol, rowFieldsMatch_single heq hcol] at hiff
    exact Bool.eq_iff_iff.2 hiff
  · intro hsafe i row hrow
    by_cases hsingle : ∃ cond, conds = [cond] ∧ cond.type = .eq
    · obtain ⟨cond, rfl, heq⟩ := hsingle
      obtain ⟨col, hcol⟩ : ∃ col, tc.schema.conditionColumnIndex cond = some col := by
        by_contra hno
        have hnone := Option.eq_none_iff_forall_ne_some.2 fun col hcol => hno ⟨col, hcol⟩
        unfold Schema.unknownColumn at hknown
        simp [hnone] at hknown
      rw [rowMatches_single heq hcol, rowFieldsMatch_single heq hcol,
        hsafe cond col rfl heq hcol i row hrow]
    · rw [rowMatches_eq_fields fun cond hcond heq => hsingle ⟨cond, hcond, heq⟩]

theorem sameHits_iff (hknown : tc.schema.unknownColumn conds = none) :
    tc.SameHits conds ↔ tc.Unambiguous conds := by
  cases hchoose : tc.chooseIndexCondition false conds with
  | some best => exact sameHits_indexed hchoose
  | none =>
      cases hrange : tc.chooseIndexCondition true conds with
      | some best => exact sameHits_range hchoose hrange
      | none => exact sameHits_scan hknown hchoose hrange

end TableCache

namespace Opened

variable {st : Opened} {conds : List WhereCondition}

/-- SELECT prints, UPDATE changes and DELETE removes the rows of the same slots: the UPDATE
rewrites these and no others, and the DELETE empties these and no others. -/
structure SameRows (st : Opened) (select update : Statement) (conds : List WhereCondition) :
    Prop where
  tail : (st.table.printed select).tail = []
  changed : ∀ i, i ∈ st.table.printedSlots select ↔ i ∈ st.changedSlots update
  removed : ∀ i, i ∈ st.changedSlots update ↔ i ∈ st.removedSlots conds
  rewritten : ∃ st' : Opened, st.UpdatesTo update (st.changedSlots update) st' ∧
    st.table.Rewrites st'.table (st.changedSlots update) (st.table.updatedRow update)
  emptied : ∃ st' : Opened, st.DeletesTo conds (st.removedSlots conds) st' ∧
    st.table.Rewrites st'.table (st.removedSlots conds) fun _ => none

/-- The slots that an UPDATE reports are those it rewrites. -/
theorem changedSlots_spec {update : Statement} {u : Updated}
    (hstart : st.table.uncachedStart = none) (hok : (st.executeUpdate update).2 = .ok u) :
    (∀ i, i ∈ st.changedSlots update ↔ ∃ row, st.table.slotRow i = some row ∧
      st.table.UpdateHits update.whereConditions i row) ∧
    ∃ st' : Opened, st.UpdatesTo update (st.changedSlots update) st' ∧
      st.table.Rewrites st'.table (st.changedSlots update) (st.table.updatedRow update) := by
  obtain ⟨st', slotIds, hfinish, hrows, hmem⟩ | ⟨hnothing, hmiss⟩ :=
    executeUpdate_rewrites hstart hok
  · rw [changedSlots_finish hfinish]
    exact ⟨hmem, st', updatesTo_finish hfinish, hrows⟩
  · have hnone : st.changedSlots update = [] := by
      unfold changedSlots
      rw [hnothing]
    rw [hnone]
    refine ⟨fun i => iff_of_false List.not_mem_nil ?_, st, updatesTo_nothing hnothing,
      TableCache.rewrites_nothing fun _ => rfl⟩
    rintro ⟨row, hrow, hhit⟩
    exact hmiss i row hrow hhit

/-- The slots that a DELETE reports are those it empties. -/
theorem removedSlots_spec (h : st.table.Consistent) (hstart : st.table.uncachedStart = none)
    (hwhere : st.table.schema.unknownColumn conds = none) (hne : conds ≠ []) :
    (∀ i, i ∈ st.removedSlots conds ↔ ∃ row, st.table.slotRow i = some row ∧
      st.table.DeleteHits conds i row) ∧
    ∃ st' : Opened, st.DeletesTo conds (st.removedSlots conds) st' ∧
      st.table.Rewrites st'.table (st.removedSlots conds) fun _ => none := by
  obtain ⟨st', slotIds, hfinish, hrows, hmem⟩ | ⟨st', hnothing, hsame, hmiss⟩ :=
    executeDelete_rewrites h hstart hwhere hne
  · rw [removedSlots_finish hfinish]
    have hempty : ∀ i ∈ slotIds, st'.table.slotRow i = none := by
      intro i hi
      rw [hrows.inside i hi]
      cases st.table.slotRow i <;> rfl
    exact ⟨hmem, st', deletesTo_finish hfinish hempty, hrows⟩
  · have hnone : st.removedSlots conds = [] := by
      unfold removedSlots
      rw [hnothing]
    rw [hnone]
    refine ⟨fun i => iff_of_false List.not_mem_nil ?_, st', deletesTo_nothing hnothing,
      TableCache.rewrites_nothing hsame⟩
    rintro ⟨row, hrow, hhit⟩
    exact hmiss i row hrow hhit

end Opened

/-! ## A number in another spelling -/

theorem peopleOpened_consistent : peopleOpened.table.Consistent where
  exact := peopleOpened_exact
  sound := peopleOpened_sound
  keyed := by
    have hkeyed : ∀ e ∈ peopleOpened.table.rows,
        (peopleOpened.table.rowIndexKey e.2 e.1).isSome = true := by decide +kernel
    exact fun i row hrow => hkeyed (i, row) (TableCache.mem_rows.2 hrow)

/-- `SELECT * … WHERE id = 'val'`. -/
def selectId (val : String) : Statement :=
  { type := .select, selectAll := true, whereConditions := [equality "id" val] }

/-- `UPDATE … SET name = 'zed' WHERE id = 'val'`. -/
def updateId (val : String) : Statement :=
  { type := .update, setCol := strncpy 49 (str "name"), setVal := strncpy 255 (str "zed")
    whereConditions := [equality "id" val] }

end MiniDbms.Legacy
