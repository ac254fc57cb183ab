import MiniDbms.Legacy.Insert
import MiniDbms.Lib.Lists

/-!
# The file and the schema behind a table

The operations on slots and indexes leave the CSV file, the place where it is written and
the schema as they are.
-/

namespace MiniDbms.Legacy

structure SameSource (tc tc' : TableCache) : Prop where
  file : tc'.file = tc.file
  schema : tc'.schema = tc.schema
  writePos : tc'.writePos = tc.writePos

namespace SameSource

variable {tc tc' tc'' : TableCache}

theorem refl (tc : TableCache) : SameSource tc tc := ⟨rfl, rfl, rfl⟩

theorem trans (h : SameSource tc tc') (h' : SameSource tc' tc'') : SameSource tc tc'' :=
  ⟨h'.file.trans h.file, h'.schema.trans h.schema, h'.writePos.trans h.writePos⟩

end SameSource

namespace TableCache

variable {tc tc' : TableCache}

theorem succeeded_eq_some {r : TableCache × Bool} (h : succeeded r = some tc') :
    r = (tc', true) := by
  obtain ⟨t, ok⟩ := r
  cases ok with
  | true =>
      cases h
      rfl
  | false => cases h

theorem source_rebuildIdIndex (h : tc.rebuildIdIndex = some tc') : SameSource tc tc' := by
  unfold rebuildIdIndex at h
  split at h
  · cases h
  · split at h
    · cases h
    · cases h
      exact ⟨rfl, rfl, rfl⟩

theorem source_rebuildUkIndexes (h : tc.rebuildUkIndexes = some tc') : SameSource tc tc' := by
  unfold rebuildUkIndexes at h
  obtain ⟨indexes, -, rfl⟩ := Option.map_eq_some_iff.1 h
  exact ⟨rfl, rfl, rfl⟩

theorem source_insertUkKey (i : Nat) (index : UniqueIndex) (key : Bytes) (slotId : Nat) :
    SameSource tc (tc.insertUkKey i index key slotId).1 := by
  unfold insertUkKey
  split <;> exact ⟨rfl, rfl, rfl⟩

theorem source_uniqueIndexInsert (i : Nat) (key : Bytes) (slotId : Nat) :
    SameSource tc (tc.uniqueIndexInsert i key slotId).1 := by
  unfold uniqueIndexInsert
  split
  · exact SameSource.refl tc
  · split
    · exact SameSource.refl tc
    · split
      · exact source_insertUkKey i _ key slotId
      · split
        · exact SameSource.refl tc
        · split
          · exact source_insertUkKey i _ key slotId
          · split
            · exact SameSource.refl tc
            · rename_i hbuilt
              have h := source_rebuildUkIndexes hbuilt
              split
              · exact h
              · exact h.trans (source_insertUkKey i _ key slotId)

theorem source_indexRecordUksFromRow (row : Bytes) (slotId : Nat) :
    SameSource tc (tc.indexRecordUksFromRow row slotId).1 := by
  rw [indexRecordUksFromRow_eq]
  have hloop : ∀ (l : List Nat) (state : TableCache × Bool), SameSource tc state.1 →
      SameSource tc (l.foldl (ukRound row slotId) state).1 := by
    intro l
    induction l with
    | nil => exact fun _ h => h
    | cons i l ih =>
        intro state h
        refine ih _ ?_
        obtain ⟨tc₁, ok⟩ := state
        cases ok with
        | false => exact h
        | true =>
            cases hi : tc₁.ukIndexes[i]? with
            | none =>
                rw [ukRound_none tc₁ row slotId hi]
                exact h
            | some index =>
                rw [ukRound_some tc₁ row slotId hi]
                exact h.trans (source_uniqueIndexInsert i _ slotId)
  exact hloop _ _ (SameSource.refl tc)

theorem source_removeRecordIndexes (slotId : Nat) (row : Bytes) :
    SameSource tc (tc.removeRecordIndexes slotId row).1 := by
  unfold removeRecordIndexes
  split
  · exact SameSource.refl tc
  · split
    · exact SameSource.refl tc
    · exact ⟨rfl, rfl, rfl⟩

theorem source_replaceRecordAt {slotId : Nat} {row : Bytes}
    (h : tc.replaceRecordAt slotId row = some tc') : SameSource tc tc' := by
  unfold replaceRecordAt at h
  split at h
  · split at h
    · cases h
      exact ⟨rfl, rfl, rfl⟩
    · cases h
  · cases h

theorem source_deactivateSlot {slotId : Nat} (h : tc.deactivateSlot slotId = some tc') :
    SameSource tc tc' := by
  unfold deactivateSlot at h
  split at h
  · cases h
    exact ⟨rfl, rfl, rfl⟩
  · cases h

theorem source_restoreRecordIndexes (slotId : Nat) :
    SameSource tc (tc.restoreRecordIndexes slotId).1 := by
  unfold restoreRecordIndexes
  split
  · exact SameSource.refl tc
  · split
    · exact SameSource.refl tc
    · rename_i tree _
      have hid : SameSource tc { tc with idIndex := tree } := ⟨rfl, rfl, rfl⟩
      unfold indexRecordUks
      split
      · exact hid
      · exact hid.trans (source_indexRecordUksFromRow _ slotId)

/-! ## Loading -/

theorem source_dropOldRow {slotId : Nat} (h : tc.dropOldRow slotId = some tc') :
    SameSource tc tc' := by
  unfold dropOldRow at h
  split at h
  · cases h
    exact SameSource.refl tc
  · rename_i row _
    have hrem := @source_removeRecordIndexes tc slotId row
    rw [succeeded_eq_some h] at hrem
    exact hrem

theorem source_applyDeltaOp {op : DeltaOp} (h : tc.applyDeltaOp op = some tc') :
    SameSource tc tc' := by
  cases op with
  | update id row =>
      rw [applyDeltaOp] at h
      split at h
      · cases h
        exact SameSource.refl tc
      · rename_i slotId _
        obtain ⟨tc₁, h₁, h⟩ := Option.bind_eq_some_iff.1 h
        obtain ⟨tc₂, h₂, h⟩ := Option.bind_eq_some_iff.1 h
        have hres := @source_restoreRecordIndexes tc₂ slotId
        rw [succeeded_eq_some h] at hres
        exact ((source_dropOldRow h₁).trans (source_replaceRecordAt h₂)).trans hres
  | delete id =>
      rw [applyDeltaOp] at h
      split at h
      · cases h
        exact SameSource.refl tc
      · obtain ⟨tc₁, h₁, h⟩ := Option.bind_eq_some_iff.1 h
        exact (source_dropOldRow h₁).trans (source_deactivateSlot h)

theorem source_applyDeltaOps {ops : List DeltaOp} (h : tc.applyDeltaOps ops = some tc') :
    SameSource tc tc' :=
  foldlM_keeps (P := SameSource tc) (fun _ _ _ hs hop => hs.trans (source_applyDeltaOp hop))
    (SameSource.refl tc) h

theorem source_replayLine {state state' : ReplayState TableCache} {line : Bytes}
    (h : replayLine applyDeltaOps state line = some state') : SameSource state.1 state'.1 := by
  obtain ⟨tc₀, batch⟩ := state
  simp only [replayLine] at h
  by_cases hbegin : line = str "B"
  · rw [if_pos hbegin] at h
    cases h
    exact SameSource.refl _
  · rw [if_neg hbegin] at h
    by_cases hend : line = str "E"
    · rw [if_pos hend] at h
      cases batch with
      | none =>
          cases h
          exact SameSource.refl _
      | some ops =>
          obtain ⟨tc₁, h₁, rfl⟩ := Option.map_eq_some_iff.1 h
          exact source_applyDeltaOps h₁
    · rw [if_neg hend] at h
      split at h
      all_goals
        cases h
        exact SameSource.refl _

theorem source_replayDeltaLog {log : Bytes}
    (h : replayDeltaLog applyDeltaOps log tc = some tc') : SameSource tc tc' := by
  unfold replayDeltaLog at h
  obtain ⟨state, hstate, rfl⟩ := Option.map_eq_some_iff.1 h
  refine foldlM_keeps (P := fun state => SameSource tc state.1) (fun state line state' hs hround => ?_)
    (SameSource.refl tc) hstate
  obtain ⟨text, -, hline⟩ := Option.bind_eq_some_iff.1 hround
  exact hs.trans (source_replayLine hline)

theorem source_scanRow {hasDelta : Bool} {id : Int} {row : Bytes} {offset : Nat}
    (h : tc.scanRow hasDelta id row offset = some tc') : SameSource tc tc' := by
  simp only [scanRow] at h
  split at h
  · obtain ⟨tc₁, h₁, h⟩ := Option.bind_eq_some_iff.1 h
    have hraw : SameSource tc tc₁ := by
      unfold appendRecordRawMemory at h₁
      split at h₁
      · cases h₁
      · cases h₁
        exact ⟨rfl, rfl, rfl⟩
    split at h
    · cases h
      exact hraw
    · unfold indexLoadedRow at h
      split at h
      · cases h
      · rename_i tree _
        have hid : SameSource tc { tc₁ with idIndex := tree } := ⟨hraw.file, hraw.schema, hraw.writePos⟩
        have huk := @source_indexRecordUksFromRow { tc₁ with idIndex := tree } row
          tc.slots.length
        rw [succeeded_eq_some h] at huk
        exact hid.trans huk
  · cases h
    exact ⟨rfl, rfl, rfl⟩

theorem source_scanLine {hasDelta : Bool} {scan scan' : Scan} {line : Bytes}
    (h : scanLine hasDelta scan line = some scan') : SameSource scan.tc scan'.tc := by
  obtain ⟨row, -, h⟩ := Option.bind_eq_some_iff.1 h
  simp only at h
  split at h
  · cases h
    exact SameSource.refl _
  · obtain ⟨id, -, h⟩ := Option.bind_eq_some_iff.1 h
    obtain ⟨tc₁, h₁, h⟩ := Option.bind_eq_some_iff.1 h
    cases h
    exact source_scanRow h₁

theorem source_loadTableContents {file : Bytes} {delta : Option Bytes}
    (h : loadTableContents file delta = some tc) : SameSource (openTable file) tc := by
  obtain ⟨scan, hscan, h⟩ := Option.bind_eq_some_iff.1 h
  have hrows : SameSource (openTable file) scan.tc :=
    foldlM_keeps (P := fun scan => SameSource (openTable file) scan.tc)
      (fun _ _ _ hs hline => hs.trans (source_scanLine hline)) (SameSource.refl _) hscan
  cases delta with
  | none =>
      cases h
      exact ⟨hrows.file, hrows.schema, hrows.writePos⟩
  | some log =>
      simp only at h
      split at h
      · cases h
        exact ⟨hrows.file, hrows.schema, hrows.writePos⟩
      · obtain ⟨tc₁, h₁, h⟩ := Option.bind_eq_some_iff.1 h
        obtain ⟨tc₂, h₂, h⟩ := Option.bind_eq_some_iff.1 h
        obtain ⟨tc₃, h₃, h⟩ := Option.bind_eq_some_iff.1 h
        cases h
        have hall := ((hrows.trans (source_replayDeltaLog h₁)).trans
          (source_rebuildIdIndex h₂)).trans (source_rebuildUkIndexes h₃)
        exact ⟨hall.file, hall.schema, hall.writePos⟩

/-! ## INSERT -/

theorem source_clearIdKey (key : Int) (slotId : Nat) :
    SameSource tc (tc.clearIdKey key slotId).1 := by
  unfold clearIdKey
  split
  · exact SameSource.refl tc
  · split
    · exact SameSource.refl tc
    · split
      · exact ⟨rfl, rfl, rfl⟩
      · split
        · rename_i h
          exact source_rebuildIdIndex h
        · exact SameSource.refl tc

theorem source_enterRow (key : Int) (row : Bytes) (slotId : Nat) :
    SameSource tc (tc.enterRow key row slotId).1 := by
  unfold enterRow
  split
  · exact SameSource.refl tc
  · rename_i tree _
    have hid : SameSource tc { tc with idIndex := tree } := ⟨rfl, rfl, rfl⟩
    exact hid.trans (source_indexRecordUksFromRow row slotId)

theorem source_appendRecordCsvIndexed {row : Bytes} {id : Int} {offset : Nat}
    (h : tc.appendRecordCsvIndexed row id offset = (tc', true)) : SameSource tc tc' := by
  unfold appendRecordCsvIndexed at h
  split at h
  · cases h
  · rename_i slotId taken htaken
    have htake : SameSource tc (taken.placeRow slotId offset) := by
      unfold takeRecordSlot at htaken
      split at htaken
      · cases htaken
        exact ⟨rfl, rfl, rfl⟩
      · split at htaken
        · cases htaken
        · cases htaken
          exact ⟨rfl, rfl, rfl⟩
    have hclear := @source_clearIdKey (taken.placeRow slotId offset) (tc.newKey id) slotId
    split at h
    · cases h
    · rename_i tc₁ hclear'
      rw [hclear'] at hclear
      have henter := @source_enterRow tc₁ (tc.newKey id) row slotId
      split at h
      · cases h
      · rename_i tc₂ henter'
        rw [henter'] at henter
        cases h
        have hall := (htake.trans hclear).trans henter
        exact ⟨hall.file, hall.schema, hall.writePos⟩

end TableCache

end MiniDbms.Legacy
