import MiniDbms.Legacy.Opened
import MiniDbms.Legacy.Intact

/-!
# DELETE of the legacy executor

`execute_delete`: a row that an equality finds in an index, or all rows that match the
clause.  A row that an index finds and the clause does not match counts as a stale entry,
which is deleted from the index; but the indexes compare numbers and normalized texts where
the clause compares the text of the field.
-/

namespace MiniDbms.Legacy

open Bptree

/-- The messages of `execute_delete`. -/
inductive DeleteError
  | unknownColumn (column : Bytes)
  | whereRequired
  | scanFallback
  | notLoaded
  | indexRemoval
  | deltaAppend
deriving DecidableEq

/-- The text behind `[error] DELETE failed`. -/
def DeleteError.text : DeleteError → Bytes
  | .unknownColumn column => str ": WHERE column '" ++ column ++ str "' does not exist."
  | .whereRequired => str ": WHERE condition is required."
  | .scanFallback => str " while using CSV scan fallback."
  | .notLoaded => str ": target row could not be loaded."
  | .indexRemoval => str ": index removal failed; memory unchanged."
  | .deltaAppend => str ": delta log append failed; memory restored."

/-- What a DELETE without an error has done: which slots it has emptied and whether the
compaction of the log failed, or how many lines it has left out of the file. -/
inductive Deleted
  | nothing
  | slots (slotIds : List Nat) (warned : Bool)
  | lines (count : Nat)
deriving DecidableEq

namespace TableCache

variable (tc : TableCache)

/-- The row that the chosen equality finds in an index. -/
def foundRow (cond : WhereCondition) (col : Nat) : Option Nat :=
  if tc.schema.pkIdx = some col then tc.findPkRow cond.val.bytes
  else tc.findUkRow col cond.val.bytes

/-- The lines that `rewrite_truncated_delete` goes through. -/
def scanRows : List Bytes :=
  ((readLines RECORD_SIZE (fgets RECORD_SIZE tc.file).2).map fun line =>
    (cstr line).takeWhile (!isLineEnd ·)).filter (· ≠ [])

/-- `bptree_delete` of a key in the id index, whether it is there or not. -/
def dropIdKey (key : Int) : TableCache :=
  match bptreeDelete tc.idIndex key with
  | some tree => { tc with idIndex := tree }
  | none => tc

/-- `bptree_string_delete` of a key in the index of a UK column. -/
def dropUkKey (col : Nat) (key : Bytes) : TableCache :=
  match tc.getUkSlot col with
  | none => tc
  | some uk =>
    match tc.ukIndexes[uk]? with
    | none => tc
    | some index =>
      match bptreeStringDelete index.tree key with
      | some tree => { tc with ukIndexes := tc.ukIndexes.set uk { index with tree := tree } }
      | none => tc

/-- The entries of the row that is looked up by a number. -/
def removeByKey (key : Int) (row : Bytes) : TableCache × Bool :=
  match bptreeDelete tc.idIndex key with
  | none => (tc, false)
  | some tree => { tc with idIndex := tree }.removeRecordUkIndexes row

/-- The slots become inactive, with all that is in them. -/
def deactivateAll (slotIds : List Nat) : TableCache :=
  slotIds.foldl (fun tc i =>
    match tc.slots[i]? with
    | some slot =>
      if slot.active then
        { tc.setSlot i { slot with active := false } with activeTally := tc.activeTally - 1 }
      else tc
    | none => tc) tc

/-- The slots become active again. -/
def reactivateAll (slotIds : List Nat) : TableCache :=
  slotIds.foldl (fun tc i =>
    match tc.slots[i]? with
    | some slot =>
      { tc.setSlot i { slot with active := true } with activeTally := tc.activeTally + 1 }
    | none => tc) tc

/-- The texts of the slots are freed, and the slots go on the free list. -/
def releaseAll (slotIds : List Nat) : TableCache :=
  slotIds.foldl (fun tc i =>
    { tc.setSlot i
        { (tc.slots[i]?).getD {} with store := .none, offset := 0, record := none } with
      freeSlots := tc.freeSlots ++ [i] }) tc

/-- The entries of the matching rows are taken out; a failure puts those of the earlier
ones back. -/
def removeMatched : TableCache → List (Nat × Bytes) → List Nat → TableCache × Bool
  | tc, [], _ => (tc, true)
  | tc, (i, row) :: rest, done =>
    match tc.removeRecordIndexes i row with
    | (tc, true) => removeMatched tc rest (done ++ [i])
    | (tc, false) => (done.foldl (fun tc j => (tc.restoreRecordIndexes j).1) tc, false)

/-- The operations of the deleted rows; a row without a key stops them. -/
def appendDeletes : List (Nat × Bytes) → DeltaFile → DeltaFile × Bool
  | [], log => (log, true)
  | (i, row) :: rest, log =>
    match tc.rowIndexKey row i with
    | none => (log, false)
    | some id => appendDeletes rest (log.appendOp (.delete id))

end TableCache

namespace Opened

variable (st : Opened)

/-- The log is compacted if it is due, and the slots are given back. -/
def finishDelete (slotIds : List Nat) : Option Opened × Except DeleteError Deleted :=
  match st.maybeCompactDeltaLog with
  | (st', ok) =>
    (st'.map fun st' => { st' with table := st'.table.releaseAll slotIds },
      .ok (.slots slotIds (!ok)))

/-- `rewrite_truncated_delete`. -/
def rewriteTruncatedDelete (conds : List WhereCondition) :
    Option Opened × Except DeleteError Deleted :=
  let schema := st.table.schema
  let kept := st.table.scanRows.filter fun row => !rowMatchesStatement schema conds row
  let count := st.table.scanRows.length - kept.length
  if st.table.file = [] then (some { st with table := st.table.seekEnd }, .error .scanFallback)
  else if count = 0 then (some { st with table := st.table.seekEnd }, .ok .nothing)
  else
    match st.reload (headerText schema ++ unlines kept) with
    | none => (none, .error .scanFallback)
    | some st' => (some st', .ok (.lines count))

/-- The row that an index has found, with the number of the clause if that is all there is
to it. -/
def deleteFound (conds : List WhereCondition) (cond : WhereCondition) (col target : Nat)
    (row : Bytes) (pkKey : Option Int) : Option Opened × Except DeleteError Deleted :=
  let tc := st.table
  match pkKey with
  | some key =>
    if rowFieldEquals row col cond.val.bytes then
      match tc.removeByKey key row with
      | (tc', false) => (some { st with table := tc' }, .error .indexRemoval)
      | (tc', true) =>
        finishDelete
          { table := tc'.deactivateAll [target], log := st.log.appendOp (.delete key) } [target]
    else (some { st with table := tc.dropIdKey key }, .ok .nothing)
  | none =>
    if rowMatchesStatement tc.schema conds row then
      match tc.removeRecordIndexes target row with
      | (tc', false) => (some { st with table := tc' }, .error .indexRemoval)
      | (tc', true) =>
        match (tc'.deactivateAll [target]).appendDeletes [(target, row)] st.log with
        | (_, false) =>
          (some { st with
              table := (((tc'.deactivateAll [target]).reactivateAll [target]).restoreRecordIndexes
                target).1 }, .error .deltaAppend)
        | (log, true) => finishDelete { table := tc'.deactivateAll [target], log := log } [target]
    else if tc.schema.pkIdx ≠ some col ∧ conds.length = 1 then
      let key := normV RECORD_SIZE cond.val.bytes
      (some { st with table := if key = [] then tc else tc.dropUkKey col key }, .ok .nothing)
    else (some st, .ok .nothing)

/-- The branch of `execute_delete` for an equality on an indexed column. -/
def deleteIndexed (conds : List WhereCondition) (cond : WhereCondition) (col : Nat) :
    Option Opened × Except DeleteError Deleted :=
  match st.table.foundRow cond col with
  | none => (some st, .ok .nothing)
  | some target =>
    match st.table.slotRow target with
    | none => (some st, .error .notLoaded)
    | some row =>
      st.deleteFound conds cond col target row
        (if st.table.schema.pkIdx = some col ∧ conds.length = 1 then
          parseLongValue cond.val.bytes else none)

/-- The branch of `execute_delete` that goes through all rows. -/
def deleteMatching (conds : List WhereCondition) : Option Opened × Except DeleteError Deleted :=
  let matched := st.table.rows.filter fun e => rowMatchesStatement st.table.schema conds e.2
  if matched = [] then (some st, .ok .nothing)
  else
    match st.table.removeMatched matched [] with
    | (tc, false) => (some { st with table := tc }, .error .indexRemoval)
    | (tc, true) =>
      let tc := tc.deactivateAll (matched.map Prod.fst)
      match tc.appendDeletes matched st.log.beginBatch with
      | (log, false) =>
        (some
          { table := (matched.map Prod.fst).foldl (fun tc i => (tc.restoreRecordIndexes i).1)
              (tc.reactivateAll (matched.map Prod.fst))
            log := log }, .error .deltaAppend)
      | (log, true) => finishDelete { table := tc, log := log } (matched.map Prod.fst)

/-- `execute_delete`. -/
def executeDelete (conds : List WhereCondition) : Option Opened × Except DeleteError Deleted :=
  match st.table.schema.unknownColumn conds with
  | some column => (some st, .error (.unknownColumn column))
  | none =>
    if conds = [] then (some st, .error .whereRequired)
    else if st.table.uncachedStart.isSome then st.rewriteTruncatedDelete conds
    else if st.table.slots = [] then (some st, .ok .nothing)
    else
      match st.table.chooseIndexCondition false conds with
      | some (cond, col) => st.deleteIndexed conds cond col
      | none => st.deleteMatching conds

end Opened

/-! ## When nothing matches -/

namespace TableCache

variable {tc : TableCache}

/-- No row of the table matches; those of a truncated table are the lines of its file. -/
def NoMatch (tc : TableCache) (conds : List WhereCondition) : Prop :=
  (∀ i row, tc.slotRow i = some row → rowMatchesStatement tc.schema conds row = false) ∧
    (tc.uncachedStart.isSome = true →
      ∀ row ∈ tc.scanRows, rowMatchesStatement tc.schema conds row = false)

/-- The clause is one equality, and an index finds an active row for it. -/
def StaleLookup (tc : TableCache) (conds : List WhereCondition) : Prop :=
  tc.uncachedStart = none ∧ ∃ cond col, conds = [cond] ∧
    tc.chooseIndexCondition false [cond] = some (cond, col) ∧ (tc.foundRow cond col).isSome = true

theorem slotRow_of_foundRow (h : tc.IndexesExact) {conds : List WhereCondition}
    {cond : WhereCondition} {col target : Nat} (hchosen : tc.Chosen false conds (cond, col))
    (hfound : tc.foundRow cond col = some target) : ∃ row, tc.slotRow target = some row := by
  unfold foundRow at hfound
  split at hfound
  · rename_i hpk
    obtain ⟨key, -, row, hrow, -⟩ := (findPkRow_eq_some h hpk).1 hfound
    exact ⟨row, hrow⟩
  · rename_i hpk
    have huk := hchosen.eq.2.resolve_left hpk
    obtain ⟨-, row, hrow, -⟩ := (findUkRow_eq_some h huk).1 hfound
    exact ⟨row, hrow⟩

theorem rowMatches_single {schema : Schema} {cond : WhereCondition} {col : Nat}
    (heq : cond.type = .eq) (hcol : schema.conditionColumnIndex cond = some col) (row : Bytes) :
    rowMatchesStatement schema [cond] row = rowFieldEquals row col cond.val.bytes := by
  simp only [rowMatchesStatement, if_pos heq, hcol]

theorem search_dropIdKey (hsound : Sound tc) {key : Int} {i : Nat}
    (h : search tc.idIndex key = some i) : search (tc.dropIdKey key).idIndex key = none := by
  obtain ⟨m, hm⟩ := hsound.id
  unfold dropIdKey
  cases hdel : bptreeDelete tc.idIndex key with
  | none =>
      have hspec := hm.delete key
      unfold bptreeDelete at hdel
      rw [hdel] at hspec
      rw [hm.search_eq, hspec] at h
      cases h
  | some tree => exact ((holds_bptreeDelete hm hdel).2.search_eq key).trans (put_self m key none)

theorem ukSearch_dropUkKey (hsound : Sound tc) {col uk i : Nat} {key : Bytes}
    (huk : tc.getUkSlot col = some uk) (hkey : key ≠ []) (h : tc.ukSearch uk key = some i) :
    (tc.dropUkKey col key).ukSearch uk key = none := by
  obtain ⟨index, hindex, hsearch⟩ := Option.bind_eq_some_iff.1 h
  obtain ⟨m, hm⟩ := hsound.uk index (List.mem_of_getElem? hindex)
  obtain ⟨hlt, -⟩ := List.getElem?_eq_some_iff.1 hindex
  unfold dropUkKey
  rw [huk]
  simp only [hindex]
  cases hdel : bptreeStringDelete index.tree key with
  | none =>
      have hspec := hm.delete key
      unfold bptreeStringDelete at hdel
      rw [if_neg hkey] at hdel
      rw [hdel] at hspec
      rw [hm.search_eq, hspec] at hsearch
      cases hsearch
  | some tree =>
      unfold ukSearch
      simp only [List.getElem?_set_self hlt, Option.bind_some]
      exact ((holds_stringDelete hm hdel).2.search_eq key).trans (put_self m key none)

end TableCache

namespace Opened

variable {st : Opened}

/-- The rows, the indexes, the file and the delta log are as before. -/
def Unchanged (st : Opened) (result : Option Opened) : Prop :=
  ∃ st', result = some st' ∧ SameAs st.table st'.table ∧ st'.log = st.log

theorem unchanged_self (st : Opened) : Unchanged st (some st) :=
  ⟨st, rfl, TableCache.sameAs_refl st.table, rfl⟩

theorem unchanged_seekEnd (st : Opened) :
    Unchanged st (some { st with table := st.table.seekEnd }) :=
  ⟨_, rfl, ⟨fun _ => rfl, fun _ => rfl, fun _ => rfl, fun _ _ => rfl, rfl⟩, rfl⟩

theorem rewriteTruncatedDelete_unchanged {conds : List WhereCondition}
    (h : ∀ row ∈ st.table.scanRows, rowMatchesStatement st.table.schema conds row = false) :
    Unchanged st (st.rewriteTruncatedDelete conds).1 := by
  have hall : st.table.scanRows.filter
      (fun row => !rowMatchesStatement st.table.schema conds row) = st.table.scanRows :=
    List.filter_eq_self.2 fun row hrow => by rw [h row hrow]; rfl
  unfold rewriteTruncatedDelete
  simp only [hall, Nat.sub_self, if_true]
  split <;> exact unchanged_seekEnd st

theorem deleteMatching_unchanged {conds : List WhereCondition}
    (h : ∀ i row, st.table.slotRow i = some row →
      rowMatchesStatement st.table.schema conds row = false) :
    Unchanged st (st.deleteMatching conds).1 := by
  have hnone : st.table.rows.filter
      (fun e => rowMatchesStatement st.table.schema conds e.2) = [] := by
    refine List.filter_eq_nil_iff.2 fun e he => ?_
    rw [h e.1 e.2 (TableCache.mem_rows.1 he)]
    exact Bool.false_ne_true
  unfold deleteMatching
  simp only [hnone, if_true]
  exact unchanged_self st

/-- A lookup in an index that finds no row, or one of several conditions, changes nothing. -/
theorem deleteIndexed_unchanged {conds : List WhereCondition} {cond : WhereCondition} {col : Nat}
    (h : ∀ i row, st.table.slotRow i = some row →
      rowMatchesStatement st.table.schema conds row = false)
    (hsafe : st.table.foundRow cond col = none ∨ conds.length ≠ 1) :
    Unchanged st (st.deleteIndexed conds cond col).1 := by
  unfold deleteIndexed
  cases hfound : st.table.foundRow cond col with
  | none => exact unchanged_self st
  | some target =>
      have hlen : conds.length ≠ 1 := hsafe.resolve_left (by rw [hfound]; simp)
      simp only
      cases hrow : st.table.slotRow target with
      | none => exact unchanged_self st
      | some row =>
          simp only
          rw [if_neg fun hone => hlen hone.2]
          unfold deleteFound
          simp only
          rw [h target row hrow, if_neg Bool.false_ne_true, if_neg fun hone => hlen hone.2]
          exact unchanged_self st

/-- The lookup of a single equality takes a valid entry out of the index. -/
theorem deleteIndexed_drops (hexact : st.table.IndexesExact) (hsound : Sound st.table)
    {cond : WhereCondition} {col : Nat} (hchosen : st.table.Chosen false [cond] (cond, col))
    (h : ∀ i row, st.table.slotRow i = some row →
      rowMatchesStatement st.table.schema [cond] row = false)
    (hfound : (st.table.foundRow cond col).isSome = true) :
    ¬ Unchanged st (st.deleteIndexed [cond] cond col).1 := by
  obtain ⟨target, htarget⟩ := Option.isSome_iff_exists.1 hfound
  obtain ⟨row, hrow⟩ := TableCache.slotRow_of_foundRow hexact hchosen htarget
  have hfield : rowFieldEquals row col cond.val.bytes = false := by
    rw [← TableCache.rowMatches_single hchosen.eq.1 hchosen.col]
    exact h target row hrow
  unfold deleteIndexed
  rw [htarget]
  simp only [hrow]
  by_cases hpk : st.table.schema.pkIdx = some col
  · rw [if_pos ⟨hpk, rfl⟩]
    unfold TableCache.foundRow at htarget
    rw [if_pos hpk] at htarget
    unfold TableCache.findPkRow at htarget
    rw [if_neg (by rw [hpk]; simp)] at htarget
    obtain ⟨key, hkey, hsearch⟩ := Option.bind_eq_some_iff.1 htarget
    have hentry := (Option.filter_eq_some_iff.1 hsearch).1
    rw [hkey]
    unfold deleteFound
    simp only [hfield, Bool.false_eq_true, if_false]
    rintro ⟨st', hst', hsame, -⟩
    cases hst'
    have hid := hsame.id key
    rw [TableCache.search_dropIdKey hsound hentry, hentry] at hid
    cases hid
  · rw [if_neg fun hone => hpk hone.1]
    have huk := hchosen.eq.2.resolve_left hpk
    unfold TableCache.foundRow at htarget
    rw [if_neg hpk] at htarget
    obtain ⟨hkey, -⟩ := (TableCache.findUkRow_eq_some hexact huk).1 htarget
    obtain ⟨uk, huk'⟩ := Option.isSome_iff_exists.1 huk
    unfold TableCache.findUkRow TableCache.uniqueIndexFind at htarget
    rw [huk', Option.bind_some, if_neg hkey] at htarget
    have hentry := (Option.filter_eq_some_iff.1 htarget).1
    unfold deleteFound
    simp only
    rw [h target row hrow, if_neg Bool.false_ne_true, if_pos ⟨hpk, rfl⟩, if_neg hkey]
    rintro ⟨st', hst', hsame, -⟩
    cases hst'
    have huk := hsame.uk uk (normV RECORD_SIZE cond.val.bytes)
    rw [TableCache.ukSearch_dropUkKey hsound huk' hkey hentry, hentry] at huk
    cases huk

/-- A DELETE that matches nothing changes nothing, except where its only condition is an
equality for which an index finds a row. -/
theorem delete_nothing_iff (st : Opened) (conds : List WhereCondition)
    (hexact : st.table.IndexesExact) (hsound : Sound st.table) (h : st.table.NoMatch conds) :
    Unchanged st (st.executeDelete conds).1 ↔ ¬ st.table.StaleLookup conds := by
  unfold executeDelete
  cases hcols : st.table.schema.unknownColumn conds with
  | some column =>
      refine iff_of_true (unchanged_self st) ?_
      rintro ⟨-, cond, col, rfl, hchoose, -⟩
      have hcol := (TableCache.chosen_of_choose hchoose).col
      obtain ⟨c, hc, -⟩ := Option.map_eq_some_iff.1 hcols
      have hmem := List.mem_of_find?_eq_some hc
      have hnone := List.find?_some hc
      rw [List.mem_singleton.1 hmem, decide_eq_true_eq, hcol] at hnone
      cases hnone
  | none =>
      simp only
      by_cases hnil : conds = []
      · rw [if_pos hnil]
        refine iff_of_true (unchanged_self st) ?_
        rintro ⟨-, cond, col, hone, -⟩
        rw [hnil] at hone
        cases hone
      · rw [if_neg hnil]
        by_cases htrunc : st.table.uncachedStart.isSome = true
        · rw [if_pos htrunc]
          refine iff_of_true (rewriteTruncatedDelete_unchanged (h.2 htrunc)) ?_
          rintro ⟨hstart, -⟩
          rw [hstart] at htrunc
          cases htrunc
        · have hstart : st.table.uncachedStart = none := by simpa using htrunc
          rw [if_neg htrunc]
          by_cases hslots : st.table.slots = []
          · rw [if_pos hslots]
            refine iff_of_true (unchanged_self st) ?_
            rintro ⟨-, cond, col, -, hchoose, hfound⟩
            obtain ⟨target, htarget⟩ := Option.isSome_iff_exists.1 hfound
            obtain ⟨row, hrow⟩ := TableCache.slotRow_of_foundRow hexact
              (TableCache.chosen_of_choose hchoose) htarget
            unfold TableCache.slotRow at hrow
            rw [hslots] at hrow
            cases hrow
          · rw [if_neg hslots]
            cases hchoose : st.table.chooseIndexCondition false conds with
            | none =>
                refine iff_of_true (deleteMatching_unchanged h.1) ?_
                rintro ⟨-, cond, col, rfl, hchoose', -⟩
                rw [hchoose] at hchoose'
                cases hchoose'
            | some best =>
                obtain ⟨cond, col⟩ := best
                simp only
                have hchosen := TableCache.chosen_of_choose hchoose
                by_cases hstale : st.table.StaleLookup conds
                · refine iff_of_false ?_ (not_not_intro hstale)
                  obtain ⟨-, cond', col', rfl, hchoose', hfound⟩ := hstale
                  rw [hchoose] at hchoose'
                  cases hchoose'
                  exact deleteIndexed_drops hexact hsound hchosen h.1 hfound
                · refine iff_of_true (deleteIndexed_unchanged h.1 ?_) hstale
                  by_contra hboth
                  rw [not_or, not_not] at hboth
                  obtain ⟨c, rfl⟩ := List.length_eq_one_iff.1 hboth.2
                  obtain rfl : cond = c := List.mem_singleton.1 hchosen.mem
                  exact hstale ⟨hstart, cond, col, rfl, hchoose, Option.isSome_iff_ne_none.2 hboth.1⟩

end Opened

/-! ## A number in another spelling -/

/-- `col = 'val'`. -/
def equality (col val : String) : WhereCondition :=
  { type := .eq, col := strncpy 49 (str col), val := strncpy 255 (str val), endVal := .empty }

def people : Bytes := str "id(PK),name\n1,ann\n2,bob\n"

theorem people_loads : (loadTableContents people none).isSome = true := by decide +kernel

def peopleOpened : Opened := { table := (loadTableContents people none).get people_loads }

theorem peopleOpened_sound : Sound peopleOpened.table :=
  (Reachable.load (Option.some_get people_loads).symm).sound

theorem peopleOpened_exact : peopleOpened.table.IndexesExact :=
  peopleOpened_sound.indexesExact (by decide +kernel) (by decide +kernel) (by decide +kernel)

theorem TableCache.noMatch_of_rows {tc : TableCache} {conds : List WhereCondition}
    (hstart : tc.uncachedStart = none)
    (hrows : ∀ e ∈ tc.rows, rowMatchesStatement tc.schema conds e.2 = false) : tc.NoMatch conds :=
  ⟨fun i row hrow => hrows (i, row) (mem_rows.2 hrow), fun htrunc => by
    rw [hstart] at htrunc
    cases htrunc⟩

theorem people_delete_five :
    Opened.Unchanged peopleOpened (peopleOpened.executeDelete [equality "id" "5"]).1 := by
  refine (Opened.delete_nothing_iff peopleOpened [equality "id" "5"] peopleOpened_exact
    peopleOpened_sound (TableCache.noMatch_of_rows (by decide +kernel) (by decide +kernel))).2 ?_
  rintro ⟨-, cond, col, hone, hchoose, hfound⟩
  cases hone
  have hcol : peopleOpened.table.chooseIndexCondition false [equality "id" "5"] =
      some (equality "id" "5", 0) := by decide +kernel
  rw [hcol] at hchoose
  cases hchoose
  exact absurd hfound (by decide +kernel)

/-- `DELETE … WHERE id = '01'` matches no row, and takes the entry of row 1 out of the id
index. -/
theorem people_delete_drops_entry :
    Reachable peopleOpened.table ∧ peopleOpened.table.IndexesExact ∧
      peopleOpened.table.NoMatch [equality "id" "01"] ∧
      ¬ Opened.Unchanged peopleOpened (peopleOpened.executeDelete [equality "id" "01"]).1 := by
  refine ⟨Reachable.load (Option.some_get people_loads).symm, peopleOpened_exact,
    TableCache.noMatch_of_rows (by decide +kernel) (by decide +kernel), ?_⟩
  rintro ⟨st', hst', hsame, -⟩
  have hbefore : search peopleOpened.table.idIndex 1 = some 0 := by decide +kernel
  have hafter : ((peopleOpened.executeDelete [equality "id" "01"]).1.bind fun st =>
      search st.table.idIndex 1) = none := by decide +kernel
  rw [hst', Option.bind_some, hsame.id, hbefore] at hafter
  cases hafter

end MiniDbms.Legacy
