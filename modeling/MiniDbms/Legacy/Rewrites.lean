import MiniDbms.Legacy.Entries
import MiniDbms.Legacy.Update

/-!
# The rows behind a statement

What UPDATE and DELETE make of the rows of a table: those of the slots they report are
rewritten or gone, all others stay.  Where the log is compacted behind the statement the
table is then loaded anew, with other slots.
-/

namespace MiniDbms.Legacy

open Bptree

namespace TableCache

variable {tc tc' : TableCache} {slotIds : List Nat}

/-- The rows of these slots are replaced by new ones, or by none, and all others stay. -/
structure Rewrites (tc tc' : TableCache) (slotIds : List Nat) (new : Bytes → Option Bytes) :
    Prop where
  inside : ∀ i ∈ slotIds, tc'.slotRow i = (tc.slotRow i).bind new
  outside : ∀ i ∉ slotIds, tc'.slotRow i = tc.slotRow i

theorem rewrites_nothing {new : Bytes → Option Bytes}
    (h : ∀ i, tc'.slotRow i = tc.slotRow i) : tc.Rewrites tc' [] new :=
  ⟨fun _ hi => absurd hi List.not_mem_nil, fun i _ => h i⟩

theorem Rewrites.congr {tc₀ tc₁ : TableCache} {slotIds : List Nat} {new : Bytes → Option Bytes}
    (h : tc.Rewrites tc' slotIds new) (hbefore : ∀ i, tc.slotRow i = tc₀.slotRow i)
    (hbehind : ∀ i, tc₁.slotRow i = tc'.slotRow i) : tc₀.Rewrites tc₁ slotIds new where
  inside := fun i hi => by rw [hbehind, h.inside i hi, hbefore]
  outside := fun i hi => by rw [hbehind, h.outside i hi, hbefore]

/-! ## The UK indexes -/

/-- Only the UK indexes are other. -/
def UksOnly (tc tc' : TableCache) : Prop := ∃ indexes, tc' = { tc with ukIndexes := indexes }

theorem UksOnly.refl (tc : TableCache) : UksOnly tc tc := ⟨tc.ukIndexes, rfl⟩

theorem UksOnly.trans {tc'' : TableCache} (h : UksOnly tc tc') (h' : UksOnly tc' tc'') :
    UksOnly tc tc'' := by
  obtain ⟨indexes, rfl⟩ := h
  obtain ⟨indexes', rfl⟩ := h'
  exact ⟨indexes', rfl⟩

theorem UksOnly.slotRow (h : UksOnly tc tc') (i : Nat) : tc'.slotRow i = tc.slotRow i := by
  obtain ⟨indexes, rfl⟩ := h
  rfl

theorem uksOnly_insertUkKey (i : Nat) (index : UniqueIndex) (key : Bytes) (slotId : Nat) :
    UksOnly tc (tc.insertUkKey i index key slotId).1 := by
  unfold insertUkKey
  split <;> exact ⟨_, rfl⟩

theorem uksOnly_uniqueIndexInsert (i : Nat) (key : Bytes) (slotId : Nat) :
    UksOnly tc (tc.uniqueIndexInsert i key slotId).1 := by
  unfold uniqueIndexInsert
  split
  · exact UksOnly.refl tc
  · split
    · exact UksOnly.refl tc
    · split
      · exact uksOnly_insertUkKey i _ key slotId
      · split
        · exact UksOnly.refl tc
        · split
          · exact uksOnly_insertUkKey i _ key slotId
          · split
            · exact UksOnly.refl tc
            · rename_i hbuilt
              obtain ⟨indexes, -, rfl⟩ := Option.map_eq_some_iff.1 hbuilt
              have h : UksOnly tc { tc with ukIndexes := indexes } := ⟨indexes, rfl⟩
              split
              · exact h
              · exact h.trans (uksOnly_insertUkKey i _ key slotId)

theorem uksOnly_removeSingleUk (row : Bytes) (col : Nat) :
    UksOnly tc (tc.removeSingleUk row col).1 := by
  unfold removeSingleUk
  split
  · exact UksOnly.refl tc
  · split
    · exact UksOnly.refl tc
    · split
      · exact UksOnly.refl tc
      · split
        · exact UksOnly.refl tc
        · exact ⟨_, rfl⟩

theorem uksOnly_indexSingleUk (slotId col : Nat) : UksOnly tc (tc.indexSingleUk slotId col).1 := by
  unfold indexSingleUk
  split
  · exact UksOnly.refl tc
  · split
    · exact UksOnly.refl tc
    · exact uksOnly_uniqueIndexInsert _ _ slotId

theorem uksOnly_moveUkKeys {setIdx : Nat} : ∀ {rows : List (Nat × Bytes)} {tc : TableCache},
    UksOnly tc (tc.moveUkKeys setIdx rows).1
  | [], tc => UksOnly.refl tc
  | (i, row) :: rest, tc => by
      have hremove := @uksOnly_removeSingleUk tc row setIdx
      rw [moveUkKeys]
      split
      · rename_i hfail
        rwa [hfail] at hremove
      · rename_i tc₁ hremoved
        rw [hremoved] at hremove
        have hindex := @uksOnly_indexSingleUk tc₁ i setIdx
        split
        · rename_i hfail
          rw [hfail] at hindex
          exact hremove.trans hindex
        · rename_i hindexed
          rw [hindexed] at hindex
          exact (hremove.trans hindex).trans uksOnly_moveUkKeys

/-! ## The slots -/

theorem rows_nodup (tc : TableCache) : (tc.rows.map Prod.fst).Nodup := by
  have hsnd : (tc.slots.zipIdx.map Prod.snd).Nodup := by
    rw [List.zipIdx_map_snd]
    exact List.nodup_range'
  unfold rows
  rw [List.Nodup, List.pairwise_map]
  refine (List.pairwise_map.1 hsnd).filterMap _ fun a a' hne b hb b' hb' => ?_
  obtain ⟨row, -, rfl⟩ := Option.map_eq_some_iff.1 hb
  obtain ⟨row', -, rfl⟩ := Option.map_eq_some_iff.1 hb'
  exact hne

theorem slotRow_setRecord {i : Nat} {row : Bytes} (hrow : tc.slotRow i = some row)
    (newRow : Bytes) (j : Nat) :
    (tc.setRecord i newRow).slotRow j = if j = i then some newRow else tc.slotRow j := by
  obtain ⟨slot, hslot, hactive⟩ := (Option.any_eq_true _ _).1 (slotIsActive_of_row hrow)
  obtain ⟨hlt, -⟩ := List.getElem?_eq_some_iff.1 hslot
  unfold setRecord
  rw [slotRow_setSlot]
  by_cases hji : j = i
  · rw [if_pos ⟨hji, hlt⟩, if_pos hji, hslot]
    exact if_pos hactive
  · rw [if_neg fun h => hji h.1, if_neg hji]

theorem rewrites_setRecord {i : Nat} {row newRow : Bytes} {new : Bytes → Option Bytes}
    (hrow : tc.slotRow i = some row) (hnew : new row = some newRow) :
    tc.Rewrites (tc.setRecord i newRow) [i] new where
  inside := by
    intro j hj
    obtain rfl := List.mem_singleton.1 hj
    rw [slotRow_setRecord hrow, if_pos rfl, hrow, Option.bind_some, hnew]
  outside := by
    intro j hj
    rw [slotRow_setRecord hrow, if_neg fun h => hj (List.mem_singleton.2 h)]

/-- The loop over the matching rows: each slot gets the new row of its own. -/
theorem updateRows_rewrites {setIdx : Nat} {value : Bytes} :
    ∀ {rows done : List (Nat × Bytes)} {tc tc' : TableCache},
      tc.updateRows setIdx value rows done = (tc', true) → (rows.map Prod.fst).Nodup →
        (∀ e ∈ rows, tc.slotRow e.1 = some e.2) →
          tc.Rewrites tc' (rows.map Prod.fst) (executeUpdateRow tc.schema · setIdx value)
  | [], _, tc, tc', h, _, _ => by
      cases h
      exact rewrites_nothing fun _ => rfl
  | (i, row) :: rest, done, tc, tc', h, hnodup, hrows => by
      rw [List.map_cons, List.nodup_cons] at hnodup
      have hrow : tc.slotRow i = some row := hrows (i, row) List.mem_cons_self
      rw [updateRows] at h
      split at h
      · cases h
      · rename_i newRow hnew
        have hset := slotRow_setRecord hrow newRow
        have hrest : ∀ e ∈ rest, (tc.setRecord i newRow).slotRow e.1 = some e.2 := by
          intro e he
          have hne : e.1 ≠ i := by
            intro hei
            rw [← hei] at hnodup
            exact hnodup.1 (List.mem_map.2 ⟨e, he, rfl⟩)
          rw [hset, if_neg hne]
          exact hrows e (List.mem_cons_of_mem _ he)
        have hloop := updateRows_rewrites h hnodup.2 hrest
        constructor
        · intro j hj
          obtain rfl | hj := List.mem_cons.1 hj
          · rw [hloop.outside j hnodup.1, hset, if_pos rfl, hrow, Option.bind_some, hnew]
          · have hne : j ≠ i := fun h => hnodup.1 (h ▸ hj)
            rw [hloop.inside j hj, hset, if_neg hne]
            rfl
        · intro j hj
          rw [List.map_cons, List.mem_cons, not_or] at hj
          rw [hloop.outside j hj.2, hset, if_neg hj.1]

theorem slotRow_foldl {f : TableCache → Nat → TableCache}
    (hone : ∀ tc i j, (f tc i).slotRow j = if j = i then none else tc.slotRow j) :
    ∀ (slotIds : List Nat) (tc : TableCache) (j : Nat),
      (slotIds.foldl f tc).slotRow j = if j ∈ slotIds then none else tc.slotRow j
  | [], tc, j => by
      rw [if_neg List.not_mem_nil]
      rfl
  | i :: rest, tc, j => by
      rw [List.foldl_cons, slotRow_foldl hone rest, hone]
      by_cases hmem : j ∈ rest
      · rw [if_pos hmem, if_pos (List.mem_cons_of_mem i hmem)]
      · rw [if_neg hmem]
        by_cases hji : j = i
        · rw [if_pos hji, if_pos (hji ▸ List.mem_cons_self)]
        · rw [if_neg hji, if_neg fun h => (List.mem_cons.1 h).elim hji hmem]

theorem slotRow_setSlot_none {slot : Slot} (hnone : slot.row tc.file = none) (i j : Nat) :
    (tc.setSlot i slot).slotRow j = if j = i then none else tc.slotRow j := by
  rw [slotRow_setSlot, hnone]
  by_cases hji : j = i
  · by_cases hlt : i < tc.slots.length
    · rw [if_pos ⟨hji, hlt⟩, if_pos hji]
    · have hout : tc.slots[i]? = none := List.getElem?_eq_none (Nat.le_of_not_lt hlt)
      rw [if_neg fun h => hlt h.2, if_pos hji, hji]
      unfold slotRow
      rw [hout]
      rfl
  · rw [if_neg fun h => hji h.1, if_neg hji]

theorem slotRow_deactivateAll (slotIds : List Nat) (tc : TableCache) (j : Nat) :
    (tc.deactivateAll slotIds).slotRow j = if j ∈ slotIds then none else tc.slotRow j := by
  refine slotRow_foldl (fun tc i j => ?_) slotIds tc j
  cases hslot : tc.slots[i]? with
  | none =>
      by_cases hji : j = i
      · rw [if_pos hji, hji]
        unfold slotRow
        simp only [hslot]
        rfl
      · rw [if_neg hji]
  | some slot =>
      simp only
      by_cases hactive : slot.active = true
      · rw [if_pos hactive]
        exact @slotRow_setSlot_none tc { slot with active := false } rfl i j
      · rw [if_neg hactive]
        by_cases hji : j = i
        · rw [if_pos hji, hji]
          unfold slotRow
          rw [hslot]
          exact if_neg hactive
        · rw [if_neg hji]

theorem slotRow_releaseAll (slotIds : List Nat) (tc : TableCache) (j : Nat) :
    (tc.releaseAll slotIds).slotRow j = if j ∈ slotIds then none else tc.slotRow j := by
  refine slotRow_foldl (fun tc i j => ?_) slotIds tc j
  refine @slotRow_setSlot_none tc _ ?_ i j
  unfold Slot.row
  simp

theorem rewrites_none (h : ∀ j, tc'.slotRow j = if j ∈ slotIds then none else tc.slotRow j) :
    tc.Rewrites tc' slotIds fun _ => none where
  inside := by
    intro i hi
    rw [h, if_pos hi]
    cases tc.slotRow i <;> rfl
  outside := fun i hi => by rw [h, if_neg hi]

end TableCache

namespace Opened

variable {st st' : Opened} {conds : List WhereCondition} {slotIds : List Nat}

/-! ## The log behind a statement -/

/-- The log is compacted behind the statement that leaves this. -/
def Compacts (st : Opened) : Prop :=
  DELTA_COMPACT_CHECK_INTERVAL ≤ st.log.opsSinceCompactCheck + 1 ∧
    DELTA_COMPACT_BYTES ≤ st.log.bytesSinceCompact ∧ DELTA_COMPACT_BYTES ≤ st.log.closeBatch.size

theorem maybeCompactDeltaLog_keeps (h : ¬ st.Compacts) :
    ∃ log ok, st.maybeCompactDeltaLog = (some { st with log := log }, ok) := by
  unfold maybeCompactDeltaLog
  simp only
  split
  · exact ⟨st.log, true, rfl⟩
  · split
    · exact ⟨_, true, rfl⟩
    · split
      · exact ⟨_, true, rfl⟩
      · split
        · exact ⟨_, true, rfl⟩
        · rename_i hops hbytes hsize
          refine absurd ⟨Nat.le_of_not_lt hops, Nat.le_of_not_lt hbytes, ?_⟩ h
          have hclose : ({ st.log with opsSinceCompactCheck := 0 } : DeltaFile).closeBatch.size =
              st.log.closeBatch.size := by
            unfold DeltaFile.closeBatch DeltaFile.size DeltaFile.writeLine
            cases st.log.batchOpen <;> rfl
          rw [← hclose]
          exact Nat.le_of_not_lt hsize

theorem finishUpdate_rows (h : ¬ st.Compacts) (slotIds : List Nat) :
    ∃ st' : Opened, (st.finishUpdate slotIds).1 = some st' ∧ st'.table = st.table := by
  obtain ⟨log, ok, hlog⟩ := maybeCompactDeltaLog_keeps h
  unfold finishUpdate
  rw [hlog]
  exact ⟨_, rfl, rfl⟩

theorem finishDelete_rows (h : ¬ st.Compacts) (slotIds : List Nat) :
    ∃ st' : Opened, (st.finishDelete slotIds).1 = some st' ∧ st'.table = st.table.releaseAll slotIds := by
  obtain ⟨log, ok, hlog⟩ := maybeCompactDeltaLog_keeps h
  unfold finishDelete
  rw [hlog]
  exact ⟨_, rfl, rfl⟩

/-- The rows behind a statement are those of `st'`. -/
def RowsOf (result : Option Opened) (st' : Opened) : Prop :=
  ∃ after : Opened, result = some after ∧ ∀ i, after.table.slotRow i = st'.table.slotRow i

/-- An UPDATE that has come to these rows is done, but for the check of the log; they are the
rows behind it unless the log is compacted there. -/
structure UpdatesTo (st : Opened) (update : Statement) (slotIds : List Nat) (st' : Opened) :
    Prop where
  ends : st.executeUpdate update = (some st', .ok .nothing) ∧ slotIds = [] ∨
    st.executeUpdate update = st'.finishUpdate slotIds
  rows : ¬ st'.Compacts → RowsOf (st.executeUpdate update).1 st'

/-- A DELETE that has come to these rows frees the slots it has emptied, behind the check of
the log. -/
structure DeletesTo (st : Opened) (conds : List WhereCondition) (slotIds : List Nat)
    (st' : Opened) : Prop where
  ends : st.executeDelete conds = (some st', .ok .nothing) ∧ slotIds = [] ∨
    st.executeDelete conds = st'.finishDelete slotIds
  rows : ¬ st'.Compacts → RowsOf (st.executeDelete conds).1 st'

theorem updatesTo_nothing {update : Statement}
    (h : st.executeUpdate update = (some st', .ok .nothing)) : st.UpdatesTo update [] st' where
  ends := Or.inl ⟨h, rfl⟩
  rows := fun _ => ⟨st', by rw [h], fun _ => rfl⟩

theorem updatesTo_finish {update : Statement}
    (h : st.executeUpdate update = st'.finishUpdate slotIds) : st.UpdatesTo update slotIds st' where
  ends := Or.inr h
  rows := by
    intro hkeeps
    obtain ⟨after, hafter, htable⟩ := finishUpdate_rows hkeeps slotIds
    exact ⟨after, by rw [h, hafter], fun i => by rw [htable]⟩

theorem deletesTo_nothing (h : st.executeDelete conds = (some st', .ok .nothing)) :
    st.DeletesTo conds [] st' where
  ends := Or.inl ⟨h, rfl⟩
  rows := fun _ => ⟨st', by rw [h], fun _ => rfl⟩

theorem deletesTo_finish (h : st.executeDelete conds = st'.finishDelete slotIds)
    (hempty : ∀ i ∈ slotIds, st'.table.slotRow i = none) : st.DeletesTo conds slotIds st' where
  ends := Or.inr h
  rows := by
    intro hkeeps
    obtain ⟨after, hafter, htable⟩ := finishDelete_rows hkeeps slotIds
    refine ⟨after, by rw [h, hafter], fun i => ?_⟩
    rw [htable, TableCache.slotRow_releaseAll]
    by_cases hi : i ∈ slotIds
    · rw [if_pos hi, hempty i hi]
    · rw [if_neg hi]

/-! ## UPDATE -/

theorem replaceFound_cases {target setIdx : Nat} {row newRow : Bytes} {uk : Bool}
    {pkKey : Option Int} {u : Updated} {new : Bytes → Option Bytes}
    (hrow : st.table.slotRow target = some row) (hnew : new row = some newRow)
    (h : (st.replaceFound target row newRow setIdx uk pkKey).2 = .ok u) :
    ∃ st' : Opened, st.replaceFound target row newRow setIdx uk pkKey = st'.finishUpdate [target] ∧
      st.table.Rewrites st'.table [target] new := by
  have hremove : TableCache.UksOnly st.table
      (if uk then st.table.removeSingleUk row setIdx else (st.table, true)).1 := by
    cases uk with
    | true => exact TableCache.uksOnly_removeSingleUk row setIdx
    | false => exact TableCache.UksOnly.refl st.table
  have hindex : ∀ tc : TableCache, TableCache.UksOnly tc
      (if uk then tc.indexSingleUk target setIdx else (tc, true)).1 := by
    intro tc
    cases uk with
    | true => exact TableCache.uksOnly_indexSingleUk target setIdx
    | false => exact TableCache.UksOnly.refl tc
  unfold replaceFound at h ⊢
  split at h
  · cases h
  · rename_i tc₁ hremoved
    rw [hremoved] at hremove
    split at h
    · cases h
    · rename_i tc₂ hindexed
      have htc₂ := hindex (tc₁.setRecord target newRow)
      rw [hindexed] at htc₂
      split at h
      · cases h
      · have hrow₁ : tc₁.slotRow target = some row := (hremove.slotRow target).trans hrow
        exact ⟨_, rfl, (TableCache.rewrites_setRecord hrow₁ hnew).congr hremove.slotRow
          htc₂.slotRow⟩

/-- One row that an equality finds in an index: it is not there, or the clause has other
conditions and does not match it, or it is rewritten. -/
theorem updateSingleRow_cases {cond : WhereCondition} {col setIdx : Nat} {value : Bytes}
    {uk : Bool} {u : Updated}
    (h : (st.updateSingleRow conds cond col setIdx value uk).2 = .ok u) :
    (st.updateSingleRow conds cond col setIdx value uk = (some st, .ok .nothing) ∧
      ∀ i row, st.table.foundRow cond col = some i → st.table.slotRow i = some row →
        conds.length ≠ 1 ∧ rowMatchesStatement st.table.schema conds row = false) ∨
    ∃ (target : Nat) (row : Bytes) (st' : Opened), st.table.foundRow cond col = some target ∧
      st.table.slotRow target = some row ∧
      (conds.length = 1 ∨ rowMatchesStatement st.table.schema conds row = true) ∧
      st.updateSingleRow conds cond col setIdx value uk = st'.finishUpdate [target] ∧
      st.table.Rewrites st'.table [target] (buildUpdatedRow st.table.schema · setIdx value) := by
  unfold updateSingleRow at h ⊢
  simp only at h ⊢
  cases hfound : st.table.foundRow cond col with
  | none => exact Or.inl ⟨rfl, fun _ _ hi => by cases hi⟩
  | some target =>
      rw [hfound] at h
      simp only at h ⊢
      cases hrow : st.table.slotRow target with
      | none =>
          rw [hrow] at h
          cases h
      | some row =>
          rw [hrow] at h
          simp only at h ⊢
          by_cases hno : conds.length ≠ 1 ∧ rowMatchesStatement st.table.schema conds row = false
          · rw [if_pos hno]
            refine Or.inl ⟨rfl, fun i row' hi hrow' => ?_⟩
            cases hi
            rw [hrow] at hrow'
            cases hrow'
            exact hno
          · rw [if_neg hno] at h ⊢
            have hyes : conds.length = 1 ∨
                rowMatchesStatement st.table.schema conds row = true := by
              by_contra hcon
              rw [not_or, Bool.not_eq_true] at hcon
              exact hno hcon
            split at h
            · cases h
            · split at h
              · cases h
              · rename_i newRow hbuild
                obtain ⟨st', hst', hrows⟩ :
                    ∃ st' : Opened, _ = _ ∧ st.table.Rewrites st'.table [target]
                      (buildUpdatedRow st.table.schema · setIdx value) :=
                  replaceFound_cases hrow hbuild h
                exact Or.inr ⟨target, row, st', rfl, hrow, hyes, hst', hrows⟩

theorem updateMatching_cases {setIdx : Nat} {value : Bytes} {uk : Bool} {u : Updated}
    (h : (st.updateMatching conds setIdx value uk).2 = .ok u) :
    (st.updateMatching conds setIdx value uk = (some st, .ok .nothing) ∧
      st.table.rows.filter (fun e => rowMatchesStatement st.table.schema conds e.2) = []) ∨
    ∃ st' : Opened, st.updateMatching conds setIdx value uk = st'.finishUpdate
        ((st.table.rows.filter fun e =>
          rowMatchesStatement st.table.schema conds e.2).map Prod.fst) ∧
      st.table.Rewrites st'.table
        ((st.table.rows.filter fun e =>
          rowMatchesStatement st.table.schema conds e.2).map Prod.fst)
        (executeUpdateRow st.table.schema · setIdx value) := by
  unfold updateMatching at h ⊢
  simp only at h ⊢
  have hrows : ∀ e ∈ st.table.rows.filter (fun e =>
      rowMatchesStatement st.table.schema conds e.2), st.table.slotRow e.1 = some e.2 :=
    fun e he => TableCache.mem_rows.1 (List.mem_filter.1 he).1
  have hnodup : ((st.table.rows.filter fun e =>
      rowMatchesStatement st.table.schema conds e.2).map Prod.fst).Nodup :=
    (TableCache.rows_nodup st.table).sublist (List.filter_sublist.map Prod.fst)
  generalize st.table.rows.filter (fun e =>
    rowMatchesStatement st.table.schema conds e.2) = matched at h hrows hnodup ⊢
  by_cases hnone : matched = []
  · rw [if_pos hnone]
    exact Or.inl ⟨rfl, hnone⟩
  · rw [if_neg hnone] at h ⊢
    split at h
    · cases h
    · rename_i hmany
      rw [if_neg hmany]
      split at h
      · cases h
      · split at h
        · cases h
        · rename_i tc₁ hupdated
          have hwritten := TableCache.updateRows_rewrites hupdated hnodup hrows
          have hmove : TableCache.UksOnly tc₁
              (if uk then tc₁.moveUkKeys setIdx matched else (tc₁, true)).1 := by
            cases uk with
            | true => exact TableCache.uksOnly_moveUkKeys
            | false => exact TableCache.UksOnly.refl tc₁
          split at h
          · cases h
          · rename_i tc₂ hmoved
            rw [hmoved] at hmove
            split at h
            · cases h
            · exact Or.inr ⟨_, rfl, hwritten.congr (fun _ => rfl) hmove.slotRow⟩

/-! ## DELETE -/

/-- One row that an equality finds in an index: it is not there, or the clause does not
match it, or it is gone. -/
theorem deleteIndexed_cases (h : st.table.Consistent) {cond : WhereCondition} {col : Nat}
    (hchosen : st.table.Chosen false conds (cond, col)) :
    (∃ st' : Opened, st.deleteIndexed conds cond col = (some st', .ok .nothing) ∧
      (∀ i, st'.table.slotRow i = st.table.slotRow i) ∧
      ∀ i row, st.table.foundRow cond col = some i → st.table.slotRow i = some row →
        rowMatchesStatement st.table.schema conds row = false) ∨
    ∃ (target : Nat) (row : Bytes) (st' : Opened), st.table.foundRow cond col = some target ∧
      st.table.slotRow target = some row ∧
      rowMatchesStatement st.table.schema conds row = true ∧
      st.deleteIndexed conds cond col = st'.finishDelete [target] ∧
      st.table.Rewrites st'.table [target] fun _ => none := by
  have hone := TableCache.oneRow_slotRow st.table
  unfold deleteIndexed
  cases hfound : st.table.foundRow cond col with
  | none => exact Or.inl ⟨st, rfl, fun _ => rfl, fun _ _ hi => by cases hi⟩
  | some target =>
      obtain ⟨row, hrow⟩ := TableCache.slotRow_of_foundRow h.exact hchosen hfound
      obtain ⟨tree, indexes, hremove, -, -⟩ := h.holding.remove hone hrow (h.keyed target row hrow)
      -- the table without the row, whatever the log
      have hgone : st.table.Rewrites (({ st.table with idIndex := tree, ukIndexes := indexes } :
          TableCache).deactivateAll [target]) [target] fun _ => none :=
        TableCache.rewrites_none fun j => TableCache.slotRow_deactivateAll [target] _ j
      have hmiss : rowMatchesStatement st.table.schema conds row = false →
          ∀ i row', some target = some i → st.table.slotRow i = some row' →
            rowMatchesStatement st.table.schema conds row' = false := by
        intro hno i row' hi hrow'
        cases hi
        rw [hrow] at hrow'
        cases hrow'
        exact hno
      simp only [hrow]
      unfold deleteFound
      simp only
      split
      · rename_i key hkey
        obtain ⟨⟨hpk, hlen⟩, hparse⟩ : (st.table.schema.pkIdx = some col ∧ conds.length = 1) ∧
            parseLongValue cond.val.bytes = some key := by
          split at hkey
          · exact ⟨‹_›, hkey⟩
          · cases hkey
        obtain ⟨c, rfl⟩ := List.length_eq_one_iff.1 hlen
        obtain rfl : cond = c := List.mem_singleton.1 hchosen.mem
        have hid : st.table.rowIndexKey row target = some key := by
          unfold TableCache.foundRow at hfound
          rw [if_pos hpk] at hfound
          obtain ⟨key', hkey', row', hrow', hnumber⟩ :=
            (TableCache.findPkRow_eq_some h.exact hpk).1 hfound
          rw [hparse] at hkey'
          cases hkey'
          rw [hrow] at hrow'
          cases hrow'
          unfold TableCache.rowIndexKey
          rw [hpk]
          exact hnumber
        have hsingle := TableCache.rowMatches_single hchosen.eq.1 hchosen.col row
        rw [TableCache.removeByKey_eq hid, hremove]
        by_cases hmatch : rowFieldEquals row col cond.val.bytes = true
        · rw [if_pos hmatch]
          exact Or.inr ⟨target, row, _, rfl, hrow, hsingle.trans hmatch, rfl, hgone⟩
        · rw [if_neg hmatch]
          refine Or.inl ⟨_, rfl, fun i => ?_, hmiss (hsingle.trans (Bool.not_eq_true _ ▸ hmatch))⟩
          simp only [TableCache.dropIdKey]
          split <;> rfl
      · rw [hremove]
        by_cases hmatch : rowMatchesStatement st.table.schema conds row = true
        · rw [if_pos hmatch]
          have hlog : ((({ st.table with idIndex := tree, ukIndexes := indexes } :
              TableCache).deactivateAll [target]).appendDeletes [(target, row)] st.log).2 =
                true := by
            refine TableCache.appendDeletes_ok fun e he => ?_
            rw [List.mem_singleton.1 he, TableCache.rowIndexKey_deactivateAll]
            exact h.keyed target row hrow
          simp only
          split
          · rename_i hfail
            rw [hfail] at hlog
            cases hlog
          · exact Or.inr ⟨target, row, _, rfl, hrow, hmatch, rfl, hgone⟩
        · rw [if_neg hmatch]
          have hno := hmiss (Bool.not_eq_true _ ▸ hmatch)
          split
          · refine Or.inl ⟨_, rfl, fun i => ?_, hno⟩
            split
            · rfl
            · simp only [TableCache.dropUkKey]
              split
              · rfl
              · split
                · rfl
                · split <;> rfl
          · exact Or.inl ⟨st, rfl, fun _ => rfl, hno⟩

theorem deleteMatching_cases (h : st.table.Consistent) :
    (st.deleteMatching conds = (some st, .ok .nothing) ∧
      st.table.rows.filter (fun e => rowMatchesStatement st.table.schema conds e.2) = []) ∨
    ∃ st' : Opened, st.deleteMatching conds = st'.finishDelete
        ((st.table.rows.filter fun e =>
          rowMatchesStatement st.table.schema conds e.2).map Prod.fst) ∧
      st.table.Rewrites st'.table
        ((st.table.rows.filter fun e =>
          rowMatchesStatement st.table.schema conds e.2).map Prod.fst) fun _ => none := by
  unfold deleteMatching
  simp only
  have hrows : ∀ e ∈ st.table.rows.filter (fun e =>
      rowMatchesStatement st.table.schema conds e.2), st.table.slotRow e.1 = some e.2 :=
    fun e he => TableCache.mem_rows.1 (List.mem_filter.1 he).1
  have hnodup : ((st.table.rows.filter fun e =>
      rowMatchesStatement st.table.schema conds e.2).map Prod.fst).Nodup :=
    (TableCache.rows_nodup st.table).sublist (List.filter_sublist.map Prod.fst)
  generalize st.table.rows.filter (fun e =>
    rowMatchesStatement st.table.schema conds e.2) = matched at hrows hnodup ⊢
  obtain ⟨tree, indexes, hremove, -, -⟩ := @TableCache.Holding.removeMatched matched st.table _ []
    h.holding (TableCache.oneRow_slotRow st.table) hnodup fun e he =>
      ⟨hrows e he, h.keyed e.1 e.2 (hrows e he)⟩
  by_cases hnone : matched = []
  · rw [if_pos hnone]
    exact Or.inl ⟨rfl, hnone⟩
  · have hlog : ((({ st.table with idIndex := tree, ukIndexes := indexes } :
        TableCache).deactivateAll (matched.map Prod.fst)).appendDeletes matched
          st.log.beginBatch).2 = true := by
      refine TableCache.appendDeletes_ok fun e he => ?_
      rw [TableCache.rowIndexKey_deactivateAll]
      exact h.keyed e.1 e.2 (hrows e he)
    rw [if_neg hnone, hremove]
    simp only
    split
    · rename_i hfail
      rw [hfail] at hlog
      cases hlog
    · exact Or.inr ⟨_, rfl, TableCache.rewrites_none fun j =>
        TableCache.slotRow_deactivateAll (matched.map Prod.fst) _ j⟩

end Opened

end MiniDbms.Legacy
