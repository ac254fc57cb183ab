import MiniDbms.Legacy.Indexes
import MiniDbms.Legacy.Insert
import MiniDbms.Legacy.Rebuild

/-!
# WHERE clauses of the legacy executor

The routines that match a row, and the choice of the condition that is looked up in an
index.  A single equality compares the text of the field in the row; any other clause
compares the fields that `parse_csv_row` cuts out.
-/

namespace MiniDbms.Legacy

open Bptree

/-! ## Matching -/

/-- `get_col_idx`. -/
def Schema.getColIdx (schema : Schema) (name : Bytes) : Option Nat :=
  if name = [] then none else schema.cols.findIdx? (·.name.bytes == name)

/-- `condition_column_index`. -/
def Schema.conditionColumnIndex (schema : Schema) (cond : WhereCondition) : Option Nat :=
  if cond.type = .none then none else schema.getColIdx cond.col.bytes

/-- `row_field_equals`. -/
def rowFieldEquals (row : Bytes) (col : Nat) (searchVal : Bytes) : Bool :=
  match findField col row with
  | none => false
  | some (_, text, _) => normV RECORD_SIZE text == normV RECORD_SIZE searchVal

/-- `compare_range_value`, on a field that may be missing. -/
def compareRangeValue (schema : Schema) (col : Nat) (field : Option Bytes)
    (cond : WhereCondition) : Bool :=
  match field with
  | none => false
  | some text =>
    if schema.pkIdx = some col then
      match parseLongValue text, parseLongValue cond.val.bytes,
        parseLongValue cond.endVal.bytes with
      | some rowKey, some startKey, some endKey =>
        decide (startKey ≤ rowKey) && decide (rowKey ≤ endKey)
      | _, _, _ => false
    else cmpRng text cond.val.bytes cond.endVal.bytes

/-- One round of the loop of `row_fields_match_statement`. -/
def conditionMatches (schema : Schema) (fields : List Bytes) (cond : WhereCondition) : Bool :=
  match schema.conditionColumnIndex cond with
  | none => false
  | some col =>
    match cond.type with
    | .eq => compareValue ((fields[col]?).getD []) cond.val.bytes
    | .between => compareRangeValue schema col fields[col]? cond
    | .none => false

/-- `row_fields_match_statement`. -/
def rowFieldsMatchStatement (schema : Schema) (conds : List WhereCondition)
    (fields : List Bytes) : Bool :=
  conds.all (conditionMatches schema fields)

/-- `row_matches_statement`. -/
def rowMatchesStatement (schema : Schema) (conds : List WhereCondition) (row : Bytes) : Bool :=
  match conds with
  | [cond] =>
    if cond.type = .eq then
      match schema.conditionColumnIndex cond with
      | none => false
      | some col => rowFieldEquals row col cond.val.bytes
    else rowFieldsMatchStatement schema [cond] (parseCsvRow row)
  | _ => rowFieldsMatchStatement schema conds (parseCsvRow row)

/-- `validate_where_columns`: the first name that is no column. -/
def Schema.unknownColumn (schema : Schema) (conds : List WhereCondition) : Option Bytes :=
  (conds.find? fun cond => schema.conditionColumnIndex cond = none).map (·.col.bytes)

/-! ## The access path -/

namespace TableCache

variable (tc : TableCache)

/-- The score of a condition in `choose_index_condition`. -/
def conditionScore (allowRange : Bool) (cond : WhereCondition) (col : Nat) : Nat :=
  if cond.type = .eq ∧ tc.schema.pkIdx = some col then 100
  else if cond.type = .eq ∧ (tc.getUkSlot col).isSome then 90
  else if allowRange ∧ cond.type = .between ∧ tc.schema.pkIdx = some col then 80
  else if allowRange ∧ cond.type = .between ∧ (tc.getUkSlot col).isSome then 70
  else 0

/-- One round of `choose_index_condition`; `best` is a condition with its column. -/
def betterIndex (allowRange : Bool) (best : Option (WhereCondition × Nat))
    (cond : WhereCondition) : Option (WhereCondition × Nat) :=
  match tc.schema.conditionColumnIndex cond with
  | none => best
  | some col =>
    let bestScore := (best.map fun e => tc.conditionScore allowRange e.1 e.2).getD 0
    if bestScore < tc.conditionScore allowRange cond col then some (cond, col) else best

/-- `choose_index_condition`. -/
def chooseIndexCondition (allowRange : Bool) (conds : List WhereCondition) :
    Option (WhereCondition × Nat) :=
  conds.foldl (tc.betterIndex allowRange) none

/-- `find_pk_row`. -/
def findPkRow (value : Bytes) : Option Nat :=
  if tc.schema.pkIdx = none then none
  else (parseLongValue value).bind fun key => (search tc.idIndex key).filter tc.slotIsActive

/-- `find_uk_row`. -/
def findUkRow (col : Nat) (value : Bytes) : Option Nat :=
  (tc.getUkSlot col).bind fun uk => tc.uniqueIndexFind uk (normV RECORD_SIZE value)

end TableCache

/-! ## The chosen condition -/

namespace TableCache

variable {tc : TableCache}

/-- A condition that is chosen stands in the clause, has this column, and is an equality
or a range on an indexed column. -/
structure Chosen (tc : TableCache) (allowRange : Bool) (conds : List WhereCondition)
    (best : WhereCondition × Nat) : Prop where
  mem : best.1 ∈ conds
  col : tc.schema.conditionColumnIndex best.1 = some best.2
  score : 0 < tc.conditionScore allowRange best.1 best.2

theorem chosen_of_choose {allowRange : Bool} {conds : List WhereCondition}
    {best : WhereCondition × Nat} (h : tc.chooseIndexCondition allowRange conds = some best) :
    tc.Chosen allowRange conds best := by
  have hloop : ∀ (todo : List WhereCondition) (best₀ : Option (WhereCondition × Nat)),
      (∀ c ∈ todo, c ∈ conds) → (∀ b, best₀ = some b → tc.Chosen allowRange conds b) →
        ∀ b, todo.foldl (tc.betterIndex allowRange) best₀ = some b →
          tc.Chosen allowRange conds b := by
    intro todo
    induction todo with
    | nil => exact fun best₀ _ hbest b hb => hbest b hb
    | cons cond todo ih =>
        intro best₀ hsub hbest
        refine ih _ (fun c hc => hsub c (List.mem_cons_of_mem cond hc)) fun b hb => ?_
        unfold betterIndex at hb
        split at hb
        · exact hbest b hb
        · rename_i col hcol
          simp only at hb
          split at hb
          · rename_i hscore
            cases hb
            exact ⟨hsub cond List.mem_cons_self, hcol, Nat.lt_of_le_of_lt (Nat.zero_le _) hscore⟩
          · exact hbest b hb
  exact hloop conds none (fun _ hc => hc) (fun b hb => by cases hb) best h

theorem score_of_choose_none {allowRange : Bool} {conds : List WhereCondition}
    (h : tc.chooseIndexCondition allowRange conds = none) {cond : WhereCondition}
    (hcond : cond ∈ conds) {col : Nat} (hcol : tc.schema.conditionColumnIndex cond = some col) :
    tc.conditionScore allowRange cond col = 0 := by
  have hloop : ∀ (todo : List WhereCondition) (best₀ : Option (WhereCondition × Nat)),
      todo.foldl (tc.betterIndex allowRange) best₀ = none → best₀ = none ∧
        ∀ c ∈ todo, ∀ col, tc.schema.conditionColumnIndex c = some col →
          tc.conditionScore allowRange c col = 0 := by
    intro todo
    induction todo with
    | nil => exact fun best₀ hnone => ⟨hnone, fun c hc => absurd hc List.not_mem_nil⟩
    | cons cond todo ih =>
        intro best₀ hnone
        obtain ⟨hbest, htodo⟩ := ih _ hnone
        unfold betterIndex at hbest
        cases hcol : tc.schema.conditionColumnIndex cond with
        | none =>
            rw [hcol] at hbest
            refine ⟨hbest, fun c hc col' hcol' => ?_⟩
            obtain rfl | hc := List.mem_cons.1 hc
            · rw [hcol] at hcol'
              cases hcol'
            · exact htodo c hc col' hcol'
        | some col =>
            rw [hcol] at hbest
            simp only at hbest
            split at hbest
            · cases hbest
            · rename_i hscore
              refine ⟨hbest, fun c hc col' hcol' => ?_⟩
              obtain rfl | hc := List.mem_cons.1 hc
              · rw [hcol] at hcol'
                cases hcol'
                exact Nat.eq_zero_of_not_pos fun hpos =>
                  hscore (by rw [hbest, Option.map_none, Option.getD_none]; exact hpos)
              · exact htodo c hc col' hcol'
  exact (hloop conds none h).2 cond hcond col hcol

/-- Without ranges only an equality is chosen, on the PK or on a UK column. -/
theorem Chosen.eq {conds : List WhereCondition} {best : WhereCondition × Nat}
    (h : tc.Chosen false conds best) : best.1.type = .eq ∧
      (tc.schema.pkIdx = some best.2 ∨ (tc.getUkSlot best.2).isSome = true) := by
  have hscore := h.score
  unfold conditionScore at hscore
  split at hscore
  · rename_i heq
    exact ⟨heq.1, Or.inl heq.2⟩
  · split at hscore
    · rename_i heq
      exact ⟨heq.1, Or.inr heq.2⟩
    · simp at hscore

theorem conditionScore_eq (allowRange : Bool) {cond : WhereCondition} (h : cond.type = .eq)
    (col : Nat) : tc.conditionScore allowRange cond col = tc.conditionScore false cond col := by
  unfold conditionScore
  simp [h]

theorem conditionScore_le (allowRange : Bool) {cond : WhereCondition} (h : cond.type ≠ .eq)
    (col : Nat) : tc.conditionScore allowRange cond col ≤ 80 ∧
      tc.conditionScore false cond col = 0 := by
  unfold conditionScore
  simp only [h, false_and, if_false, Bool.false_eq_true]
  refine ⟨?_, trivial⟩
  split
  · exact Nat.le_refl 80
  · split <;> omega

theorem le_conditionScore {cond : WhereCondition} {col : Nat}
    (h : 0 < tc.conditionScore false cond col) : 90 ≤ tc.conditionScore false cond col := by
  unfold conditionScore at h ⊢
  simp only [Bool.false_eq_true, false_and, if_false] at h ⊢
  split
  · omega
  · rename_i hpk
    rw [if_neg hpk] at h
    split
    · omega
    · rename_i huk
      rw [if_neg huk] at h
      omega

/-- A SELECT, which may use ranges, chooses the same equality where there is one. -/
theorem choose_true_of_false {conds : List WhereCondition} {best : WhereCondition × Nat}
    (h : tc.chooseIndexCondition false conds = some best) :
    tc.chooseIndexCondition true conds = some best := by
  -- where the choice without ranges has nothing yet, the other one has a range at most
  have hloop : ∀ (todo : List WhereCondition) (b b' : Option (WhereCondition × Nat)),
      ((∃ e, b = some e ∧ b' = some e ∧ e.1.type = .eq ∧
          0 < tc.conditionScore false e.1 e.2) ∨
        b = none ∧ (b'.map fun e => tc.conditionScore true e.1 e.2).getD 0 ≤ 80) →
      ∀ e, todo.foldl (tc.betterIndex false) b = some e →
        todo.foldl (tc.betterIndex true) b' = some e := by
    intro todo
    induction todo with
    | nil =>
        intro b b' hb e he
        obtain ⟨e', rfl, rfl, -⟩ | ⟨rfl, -⟩ := hb
        · exact he
        · cases he
    | cons cond todo ih =>
        intro b b' hb e he
        refine ih _ _ ?_ e he
        unfold betterIndex
        cases hcol : tc.schema.conditionColumnIndex cond with
        | none => exact hb
        | some col =>
            simp only
            by_cases heq : cond.type = .eq
            · rw [conditionScore_eq true heq]
              obtain ⟨e', rfl, rfl, heq', hpos⟩ | ⟨rfl, hle⟩ := hb
              · simp only [Option.map_some, Option.getD_some, conditionScore_eq true heq']
                split
                · rename_i hlt
                  exact Or.inl ⟨_, rfl, rfl, heq, Nat.lt_of_le_of_lt (Nat.zero_le _) hlt⟩
                · exact Or.inl ⟨_, rfl, rfl, heq', hpos⟩
              · simp only [Option.map_none, Option.getD_none]
                by_cases hpos : 0 < tc.conditionScore false cond col
                · have hninety := le_conditionScore hpos
                  rw [if_pos hpos, if_pos (by omega)]
                  exact Or.inl ⟨_, rfl, rfl, heq, hpos⟩
                · rw [if_neg hpos, if_neg (by omega)]
                  exact Or.inr ⟨rfl, hle⟩
            · obtain ⟨hle80, hzero⟩ := @conditionScore_le tc true cond heq col
              rw [hzero, if_neg (Nat.not_lt_zero _)]
              obtain ⟨e', rfl, rfl, heq', hpos⟩ | ⟨rfl, hle⟩ := hb
              · have hninety := le_conditionScore hpos
                simp only [Option.map_some, Option.getD_some, conditionScore_eq true heq']
                rw [if_neg (by omega)]
                exact Or.inl ⟨_, rfl, rfl, heq', hpos⟩
              · refine Or.inr ⟨rfl, ?_⟩
                split
                · exact hle80
                · exact hle
  exact hloop conds none none (Or.inr ⟨rfl, Nat.zero_le _⟩) best h

/-! ## Finding a row -/

theorem getUkSlot_spec {col uk : Nat} (h : tc.getUkSlot col = some uk) :
    tc.schema.ukIndices[uk]? = some col := by
  unfold getUkSlot at h
  obtain ⟨hlt, hcol, -⟩ := List.findIdx?_eq_some_iff_getElem.1 h
  rw [List.getElem?_eq_getElem hlt]
  simpa using hcol

theorem findPkRow_eq_some (h : tc.IndexesExact) {pk : Nat} (hpk : tc.schema.pkIdx = some pk)
    {value : Bytes} {i : Nat} : tc.findPkRow value = some i ↔
      ∃ key, parseLongValue value = some key ∧
        ∃ row, tc.slotRow i = some row ∧ fieldLong row pk = some key := by
  obtain ⟨m, hm, hiff⟩ := h.id
  unfold findPkRow
  rw [hpk, if_neg (by simp), Option.bind_eq_some_iff]
  refine exists_congr fun key => and_congr_right fun _ => ?_
  rw [hm.search, Option.filter_eq_some_iff, hiff]
  have hkey : ∀ row, tc.rowIndexKey row i = fieldLong row pk := fun row => by
    unfold rowIndexKey
    rw [hpk]
  simp only [hkey]
  exact ⟨fun hrow => hrow.1, fun hrow => ⟨hrow, by
    obtain ⟨row, hrow, -⟩ := hrow
    exact slotIsActive_of_row hrow⟩⟩

theorem findUkRow_eq_some (h : tc.IndexesExact) {col : Nat} (hcol : (tc.getUkSlot col).isSome)
    {value : Bytes} {i : Nat} : tc.findUkRow col value = some i ↔
      normV RECORD_SIZE value ≠ [] ∧
        ∃ row, tc.slotRow i = some row ∧ ukKey row col = normV RECORD_SIZE value := by
  obtain ⟨uk, huk⟩ := Option.isSome_iff_exists.1 hcol
  have hindices := getUkSlot_spec huk
  rw [← h.cols, List.getElem?_map] at hindices
  obtain ⟨index, hindex, hidx⟩ := Option.map_eq_some_iff.1 hindices
  obtain ⟨m, hm, hiff⟩ := h.uk index (List.mem_of_getElem? hindex)
  rw [hidx] at hiff
  unfold findUkRow uniqueIndexFind ukSearch
  rw [huk, Option.bind_some, hindex, Option.bind_some, hm.search]
  by_cases hempty : normV RECORD_SIZE value = []
  · rw [if_pos hempty]
    simp [hempty]
  · rw [if_neg hempty, Option.filter_eq_some_iff, hiff]
    refine ⟨fun hrow => hrow.1, fun hrow => ⟨hrow, ?_⟩⟩
    obtain ⟨-, row, hrow, -⟩ := hrow
    exact slotIsActive_of_row hrow

end TableCache

end MiniDbms.Legacy
