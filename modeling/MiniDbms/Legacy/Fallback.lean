import MiniDbms.Legacy.Snapshot

/-!
# Falling back from a snapshot

`load_table_parse_snapshot` writes to the table while it reads, so a snapshot that it refuses
behind the line `ROWS` has left its slots there.  One that is refused before leaves the table
as it was, and the rows are read as if there were no snapshot.
-/

namespace MiniDbms.Legacy

open Bptree

/-- Two tables that cannot be told apart, but for the shape of their trees. -/
structure SameLookups (tc tc' : TableCache) : Prop where
  rest : { tc with idIndex := tc'.idIndex, ukIndexes := tc'.ukIndexes } = tc'
  id : ∀ key, search tc'.idIndex key = search tc.idIndex key
  uk : ∀ i key, tc'.ukSearch i key = tc.ukSearch i key

namespace TableCache

variable {tc tc' : TableCache}

/-! ## The sections -/

theorem length_readSlots : ∀ (todo i : Nat) (seen : Int) (tc : TableCache) (lines : List Bytes),
    (readSlots todo i seen tc lines).1.slots.length = tc.slots.length := by
  intro todo
  induction todo with
  | zero => exact fun _ _ _ _ => rfl
  | succ todo ih =>
      intro i seen tc lines
      rw [readSlots]
      split
      · split
        · rfl
        · split
          · rw [ih]
            exact List.length_set
          · rw [ih]
            exact List.length_set
      · rfl

/-- The slots that are announced stay there, whatever follows. -/
theorem length_readSections (rows : RowsLine) (lines : List Bytes) :
    (tc.readSections rows lines).1.slots.length = rows.recordCount.toNat := by
  have hannounced : (tc.announceSlots rows.recordCount.toNat).slots.length =
      rows.recordCount.toNat := by
    unfold announceSlots
    rw [List.length_map, List.length_range]
  have hslots : ∀ n lines, (readSlots n 0 0 (tc.announceSlots rows.recordCount.toNat)
      lines).1.slots.length = rows.recordCount.toNat := fun n lines =>
    (length_readSlots n 0 0 _ lines).trans hannounced
  unfold readSections
  simp only
  split
  · rename_i slotCount rest _
    have hread := hslots slotCount.toNat rest
    split
    · exact hannounced
    · split
      · rename_i heq
        rw [heq] at hread
        exact hread
      · rename_i heq
        rw [heq] at hread
        simp only at hread
        split
        · exact hread
        · split
          · exact hread
          · split
            · exact hread
            · split <;> exact hread
  · exact hannounced

/-- A refused snapshot of no slots leaves an empty table, with an id index of another order. -/
theorem readSections_empty {file : Bytes} {rows : RowsLine} {lines : List Bytes}
    (hrows : rows.recordCount = 0)
    (h : (openTable file).readSections rows lines = (tc', false)) :
    ∃ tree, tc' = { openTable file with idIndex := tree } ∧ Holds tree fun _ => none := by
  have hsame : ∃ tree, openTable file = { openTable file with idIndex := tree } ∧
      Holds tree fun _ => none := ⟨(openTable file).idIndex, rfl, holds_create Int⟩
  have hannounced : (openTable file).announceSlots rows.recordCount.toNat = openTable file := by
    rw [hrows]
    rfl
  unfold readSections at h
  rw [hannounced] at h
  simp only at h
  split at h
  · rename_i slotCount rest hline
    split at h
    · cases h
      exact hsame
    · rename_i hslots
      obtain rfl : slotCount = 0 := by omega
      rw [Int.toNat_zero, readSlots] at h
      simp only at h
      split at h
      · cases h
        exact hsame
      · have htally : ({ openTable file with activeTally := 0 } : TableCache) = openTable file :=
          rfl
        rw [htally] at h
        split at h
        · cases h
          exact hsame
        · rename_i idPairs rest' hids
          -- no active slot, so no pairs, and the tree is built anew
          have hpairs : idPairs = [] := by
            unfold readIds at hids
            split at hids
            · split at hids
              · rename_i count _ _ hcount
                rw [hcount] at hids
                cases hids
                rfl
              · cases hids
            · cases hids
          subst hpairs
          split at h
          · rename_i tree hbuild
            cases hbuild
          · rename_i tree hbuild
            have hholds := holds_bptreeBuild hbuild
            split at h
            · cases h
              exact ⟨tree, rfl, hholds⟩
            · cases h
  · cases h
    exact hsame

/-! ## Tables with another tree for the same ids -/

def withId (tc : TableCache) (tree : BPlusTree Int) : TableCache := { tc with idIndex := tree }

/-- Two tables whose id indexes hold the same entries, and that are the same otherwise. -/
def Twin (tc tc' : TableCache) : Prop :=
  ∃ tree m, tc' = tc.withId tree ∧ Holds tc.idIndex m ∧ Holds tree m

/-- A function that does not see the shape of the id index. -/
def Blind (f : TableCache → Option TableCache) : Prop :=
  ∀ tc tc' s, Twin tc tc' → f tc = some s → ∃ s', f tc' = some s' ∧ Twin s s'

theorem Twin.symm (h : Twin tc tc') : Twin tc' tc := by
  obtain ⟨tree, m, rfl, hm, htree⟩ := h
  exact ⟨tc.idIndex, m, rfl, htree, hm⟩

theorem Blind.congr {f g : TableCache → Option TableCache} (hg : Blind g)
    (h : ∀ tc, f tc = g tc) : Blind f := (funext h : f = g) ▸ hg

theorem Blind.bind {f g : TableCache → Option TableCache} (hf : Blind f) (hg : Blind g) :
    Blind fun tc => (f tc).bind g := by
  intro tc tc' s h hs
  obtain ⟨mid, hmid, hs⟩ := Option.bind_eq_some_iff.1 hs
  obtain ⟨mid', hmid', htwin⟩ := hf tc tc' mid h hmid
  obtain ⟨s', hs', htwin'⟩ := hg mid mid' s htwin hs
  exact ⟨s', Option.bind_eq_some_iff.2 ⟨mid', hmid', hs'⟩, htwin'⟩

theorem Blind.of_comm {f : TableCache → Option TableCache}
    (h : ∀ tc tree, f (tc.withId tree) = (f tc).map (·.withId tree)) : Blind f := by
  rintro tc _ s ⟨tree, m, rfl, hm, htree⟩ hs
  have hkeep : s = s.withId tc.idIndex := by
    have hself := h tc tc.idIndex
    have htc : tc.withId tc.idIndex = tc := rfl
    rw [htc, hs] at hself
    exact Option.some.inj hself
  refine ⟨s.withId tree, by rw [h, hs]; rfl, tree, m, rfl, ?_, htree⟩
  rw [hkeep]
  exact hm

/-! ## The UK indexes -/

theorem rebuildUkIndexes_withId (tc : TableCache) (tree : BPlusTree Int) :
    (tc.withId tree).rebuildUkIndexes = tc.rebuildUkIndexes.map (·.withId tree) := by
  unfold rebuildUkIndexes
  rw [Option.map_map]
  rfl

theorem insertUkKey_withId (tc : TableCache) (tree : BPlusTree Int) (i : Nat)
    (index : UniqueIndex) (key : Bytes) (slotId : Nat) :
    (tc.withId tree).insertUkKey i index key slotId =
      ((tc.insertUkKey i index key slotId).1.withId tree,
        (tc.insertUkKey i index key slotId).2) := by
  unfold insertUkKey
  cases bptreeStringInsert index.tree key slotId with
  | none => rfl
  | some new => rfl

theorem uniqueIndexInsert_withId (tc : TableCache) (tree : BPlusTree Int) (i : Nat) (key : Bytes)
    (slotId : Nat) :
    (tc.withId tree).uniqueIndexInsert i key slotId =
      ((tc.uniqueIndexInsert i key slotId).1.withId tree,
        (tc.uniqueIndexInsert i key slotId).2) := by
  have hactive : (tc.withId tree).slotIsActive = tc.slotIsActive := rfl
  have hindexes : (tc.withId tree).ukIndexes = tc.ukIndexes := rfl
  unfold uniqueIndexInsert
  rw [hactive, hindexes]
  cases tc.ukIndexes[i]? with
  | none => rfl
  | some index =>
      simp only
      split
      · rfl
      · cases search index.tree key with
        | none => exact insertUkKey_withId tc tree i index key slotId
        | some existing =>
            simp only
            split
            · rfl
            · cases bptreeStringDelete index.tree key with
              | some new => exact insertUkKey_withId tc tree i { index with tree := new } key slotId
              | none =>
                  simp only
                  rw [rebuildUkIndexes_withId]
                  cases tc.rebuildUkIndexes with
                  | none => rfl
                  | some built =>
                      have hbuilt : (built.withId tree).ukIndexes = built.ukIndexes := rfl
                      simp only [Option.map_some, hbuilt]
                      cases built.ukIndexes[i]? with
                      | none => rfl
                      | some index' => exact insertUkKey_withId built tree i index' key slotId

theorem indexRecordUksFromRow_withId (tc : TableCache) (tree : BPlusTree Int) (row : Bytes)
    (slotId : Nat) :
    (tc.withId tree).indexRecordUksFromRow row slotId =
      ((tc.indexRecordUksFromRow row slotId).1.withId tree,
        (tc.indexRecordUksFromRow row slotId).2) := by
  have hloop : ∀ (todo : List Nat) (state : TableCache × Bool),
      todo.foldl (ukRound row slotId) (state.1.withId tree, state.2) =
        ((todo.foldl (ukRound row slotId) state).1.withId tree,
          (todo.foldl (ukRound row slotId) state).2) := by
    intro todo
    induction todo with
    | nil => exact fun _ => rfl
    | cons i todo ih =>
        rintro ⟨tc, ok⟩
        have hindexes : (tc.withId tree).ukIndexes = tc.ukIndexes := rfl
        rw [List.foldl_cons, List.foldl_cons]
        cases ok with
        | false => exact ih (tc, false)
        | true =>
            cases hi : tc.ukIndexes[i]? with
            | none =>
                rw [ukRound_none tc row slotId hi, ukRound_none _ row slotId (hindexes ▸ hi)]
                exact ih (tc, true)
            | some index =>
                rw [ukRound_some tc row slotId hi, ukRound_some _ row slotId (hindexes ▸ hi),
                  uniqueIndexInsert_withId]
                exact ih _
  exact hloop (List.range tc.ukIndexes.length) (tc, true)

theorem blind_indexRecordUksFromRow (row : Bytes) (slotId : Nat) :
    Blind fun tc => succeeded (tc.indexRecordUksFromRow row slotId) :=
  Blind.of_comm fun tc tree => by
    simp only [indexRecordUksFromRow_withId]
    obtain ⟨tc', ok⟩ := tc.indexRecordUksFromRow row slotId
    cases ok with
    | false => rfl
    | true => rfl

theorem blind_removeRecordUkIndexes (row : Bytes) :
    Blind fun tc => succeeded (tc.removeRecordUkIndexes row) :=
  Blind.of_comm fun tc tree => by
    have hindexes : (tc.withId tree).ukIndexes = tc.ukIndexes := rfl
    unfold removeRecordUkIndexes
    rw [hindexes]
    obtain ⟨indexes, ok⟩ := removeUkKeys row tc.ukIndexes
    cases ok with
    | false => rfl
    | true => rfl

/-! ## The id index -/

theorem Blind.value {α : Type} {v : TableCache → α} {f : α → TableCache → Option TableCache}
    (hv : ∀ tc tc', Twin tc tc' → v tc' = v tc) (hf : ∀ a, Blind (f a)) :
    Blind fun tc => f (v tc) tc := by
  intro tc tc' s h hs
  obtain ⟨s', hs', htwin⟩ := hf (v tc) tc tc' s h hs
  refine ⟨s', ?_, htwin⟩
  dsimp only
  rw [hv tc tc' h]
  exact hs'

theorem Twin.search (h : Twin tc tc') (key : Int) :
    search tc'.idIndex key = search tc.idIndex key := by
  obtain ⟨tree, m, rfl, hm, htree⟩ := h
  exact (htree.search_eq key).trans (hm.search_eq key).symm

theorem blind_some : Blind some := fun _ tc' _ h hs => ⟨tc', rfl, Option.some.inj hs ▸ h⟩

theorem blind_none : Blind fun _ => none := fun _ _ _ _ hs => by cases hs

theorem Blind.elim {α : Type} {read : TableCache → Option α}
    {absent : TableCache → Option TableCache} {present : α → TableCache → Option TableCache}
    (hread : ∀ tc tc', Twin tc tc' → read tc' = read tc) (habsent : Blind absent)
    (hpresent : ∀ a, Blind (present a)) :
    Blind fun tc => (read tc).elim (absent tc) fun a => present a tc :=
  @Blind.value _ read (fun found tc => found.elim (absent tc) fun a => present a tc) hread
    fun found => by
      cases found with
      | none => exact habsent
      | some a => exact hpresent a

theorem blind_insertId (key : Int) (slotId : Nat) :
    Blind fun tc => (bptreeInsert tc.idIndex key slotId).map tc.withId := by
  rintro tc _ s ⟨tree, m, rfl, hm, htree⟩ hs
  obtain ⟨new, hnew, rfl⟩ := Option.map_eq_some_iff.1 hs
  obtain ⟨hfree, hholds⟩ := holds_bptreeInsert hm hnew
  cases hnew' : bptreeInsert tree key slotId with
  | none =>
      have hspec := htree.insertWith firstOfRight_ok key slotId
      unfold bptreeInsert at hnew'
      rw [hnew', hfree] at hspec
      cases hspec
  | some new' =>
      refine ⟨tc.withId new', ?_, new', _, rfl, hholds, (holds_bptreeInsert htree hnew').2⟩
      have htc : (tc.withId tree).idIndex = tree := rfl
      simp only [htc, hnew', Option.map_some]
      rfl

theorem blind_deleteId (key : Int) :
    Blind fun tc => (bptreeDelete tc.idIndex key).map tc.withId := by
  rintro tc _ s ⟨tree, m, rfl, hm, htree⟩ hs
  obtain ⟨new, hnew, rfl⟩ := Option.map_eq_some_iff.1 hs
  obtain ⟨hthere, hholds⟩ := holds_bptreeDelete hm hnew
  cases hnew' : bptreeDelete tree key with
  | none =>
      have hspec := htree.delete key
      unfold bptreeDelete at hnew'
      rw [hnew'] at hspec
      rw [hspec] at hthere
      cases hthere
  | some new' =>
      refine ⟨tc.withId new', ?_, new', _, rfl, hholds, (holds_bptreeDelete htree hnew').2⟩
      have htc : (tc.withId tree).idIndex = tree := rfl
      simp only [htc, hnew', Option.map_some]
      rfl

theorem Twin.slotRow (h : Twin tc tc') (slotId : Nat) : tc'.slotRow slotId = tc.slotRow slotId := by
  obtain ⟨tree, m, rfl, -, -⟩ := h
  rfl

theorem Twin.rowIndexKey (h : Twin tc tc') (row : Bytes) (slotId : Nat) :
    tc'.rowIndexKey row slotId = tc.rowIndexKey row slotId := by
  obtain ⟨tree, m, rfl, -, -⟩ := h
  rfl

theorem blind_indexLoadedRow (key : Int) (row : Bytes) (slotId : Nat) :
    Blind fun tc => tc.indexLoadedRow key row slotId := by
  apply ((blind_insertId key slotId).bind (blind_indexRecordUksFromRow row slotId)).congr
  intro tc
  unfold indexLoadedRow
  cases bptreeInsert tc.idIndex key slotId with
  | none => rfl
  | some tree => rfl

theorem blind_indexRecordUks (slotId : Nat) :
    Blind fun tc => succeeded (tc.indexRecordUks slotId) := by
  have hrow := Blind.elim (fun _ _ h => h.slotRow slotId) blind_some fun row =>
    blind_indexRecordUksFromRow row slotId
  apply hrow.congr
  intro tc
  unfold indexRecordUks
  cases tc.slotRow slotId with
  | none => rfl
  | some row => rfl

theorem blind_restoreRecordIndexes (slotId : Nat) :
    Blind fun tc => succeeded (tc.restoreRecordIndexes slotId) := by
  have hkey := @Blind.elim _ (fun tc => (tc.slotRow slotId).bind (tc.rowIndexKey · slotId)) _ _
    (fun _ _ h => by simp only [h.slotRow, h.rowIndexKey]) blind_none fun id =>
      (blind_insertId id slotId).bind (blind_indexRecordUks slotId)
  apply hkey.congr
  intro tc
  unfold restoreRecordIndexes
  cases (tc.slotRow slotId).bind (tc.rowIndexKey · slotId) with
  | none => rfl
  | some id =>
      rw [Option.elim_some]
      simp only
      cases bptreeInsert tc.idIndex id slotId with
      | none => rfl
      | some tree => rfl

theorem blind_removeRecordIndexes (slotId : Nat) (row : Bytes) :
    Blind fun tc => succeeded (tc.removeRecordIndexes slotId row) := by
  have hkey := Blind.elim (fun _ _ h => h.rowIndexKey row slotId) blind_none fun id =>
    (blind_deleteId id).bind (blind_removeRecordUkIndexes row)
  apply hkey.congr
  intro tc
  unfold removeRecordIndexes
  cases tc.rowIndexKey row slotId with
  | none => rfl
  | some id =>
      rw [Option.elim_some]
      simp only
      cases bptreeDelete tc.idIndex id with
      | none => rfl
      | some tree => rfl

/-! ## The delta log -/

theorem blind_dropOldRow (slotId : Nat) : Blind fun tc => tc.dropOldRow slotId := by
  have hrow := Blind.elim (fun _ _ h => h.slotRow slotId) blind_some fun row =>
    blind_removeRecordIndexes slotId row
  apply hrow.congr
  intro tc
  unfold dropOldRow
  cases tc.slotRow slotId with
  | none => rfl
  | some row => rfl

theorem blind_replaceRecordAt (slotId : Nat) (row : Bytes) :
    Blind fun tc => tc.replaceRecordAt slotId row :=
  Blind.of_comm fun tc tree => by
    have hslots : (tc.withId tree).slots = tc.slots := rfl
    unfold replaceRecordAt
    rw [hslots]
    cases tc.slots[slotId]? with
    | none => rfl
    | some slot =>
        simp only
        split
        · rfl
        · rfl

theorem blind_deactivateSlot (slotId : Nat) : Blind fun tc => tc.deactivateSlot slotId :=
  Blind.of_comm fun tc tree => by
    have hactive : (tc.withId tree).slotIsActive slotId = tc.slotIsActive slotId := rfl
    unfold deactivateSlot
    rw [hactive]
    split
    · rfl
    · rfl

theorem Twin.findRecordIndexByKey (h : Twin tc tc') (id : Int) :
    tc'.findRecordIndexByKey id = tc.findRecordIndexByKey id := by
  have hsearch := h.search id
  obtain ⟨tree, m, rfl, -, -⟩ := h
  have hrows : (tc.withId tree).rows = tc.rows := rfl
  have hactive : (tc.withId tree).slotIsActive = tc.slotIsActive := rfl
  have hkey : (tc.withId tree).rowIndexKey = tc.rowIndexKey := rfl
  unfold TableCache.findRecordIndexByKey
  rw [hsearch, hrows, hactive, hkey]

theorem blind_applyDeltaOp (op : DeltaOp) : Blind fun tc => tc.applyDeltaOp op := by
  cases op with
  | update id row =>
      have hfound := Blind.elim (fun _ _ h => h.findRecordIndexByKey id) blind_some fun slotId =>
        ((blind_dropOldRow slotId).bind (blind_replaceRecordAt slotId row)).bind
          (blind_restoreRecordIndexes slotId)
      apply hfound.congr
      intro tc
      dsimp only [applyDeltaOp]
      cases tc.findRecordIndexByKey id with
      | none => rfl
      | some slotId => simp only [Option.elim_some, Option.bind_eq_bind, Option.bind_assoc]
  | delete id =>
      have hfound := Blind.elim (fun _ _ h => h.findRecordIndexByKey id) blind_some fun slotId =>
        (blind_dropOldRow slotId).bind (blind_deactivateSlot slotId)
      apply hfound.congr
      intro tc
      dsimp only [applyDeltaOp]
      cases tc.findRecordIndexByKey id with
      | none => rfl
      | some slotId => rfl

theorem blind_applyDeltaOps (ops : List DeltaOp) : Blind fun tc => tc.applyDeltaOps ops := by
  induction ops with
  | nil => exact blind_some
  | cons op ops ih => exact (blind_applyDeltaOp op).bind ih

end TableCache

section Replay

variable {σ : Type} {apply : σ → List DeltaOp → Option σ} {R : σ → σ → Prop}

theorem replayLine_rel
    (happly : ∀ ops s s' r, R s s' → apply s ops = some r → ∃ r', apply s' ops = some r' ∧ R r r')
    {s s' r : σ} {batch batch' : Option (List DeltaOp)} {line : Bytes} (h : R s s')
    (hr : replayLine apply (s, batch) line = some (r, batch')) :
    ∃ r', replayLine apply (s', batch) line = some (r', batch') ∧ R r r' := by
  unfold replayLine at hr ⊢
  simp only at hr ⊢
  by_cases hbegin : line = str "B"
  · rw [if_pos hbegin] at hr ⊢
    cases hr
    exact ⟨s', rfl, h⟩
  · rw [if_neg hbegin] at hr ⊢
    by_cases hend : line = str "E"
    · rw [if_pos hend] at hr ⊢
      cases batch with
      | none =>
          cases hr
          exact ⟨s', rfl, h⟩
      | some ops =>
          obtain ⟨done, hdone, heq⟩ := Option.map_eq_some_iff.1 hr
          cases heq
          obtain ⟨r', hr', hrel⟩ := happly ops s s' r h hdone
          refine ⟨r', ?_, hrel⟩
          simp only [hr', Option.map_some]
    · rw [if_neg hend] at hr ⊢
      cases batch with
      | none =>
          cases hr
          exact ⟨s', rfl, h⟩
      | some ops =>
          cases hop : parseOp line with
          | none =>
              rw [hop] at hr
              cases hr
              exact ⟨s', rfl, h⟩
          | some op =>
              rw [hop] at hr
              cases hr
              exact ⟨s', rfl, h⟩

theorem replayDeltaLog_rel
    (happly : ∀ ops s s' r, R s s' → apply s ops = some r → ∃ r', apply s' ops = some r' ∧ R r r')
    {s s' r : σ} {log : Bytes} (h : R s s') (hr : replayDeltaLog apply log s = some r) :
    ∃ r', replayDeltaLog apply log s' = some r' ∧ R r r' := by
  have hlines : ∀ (lines : List Bytes) (s s' r : σ) (batch batch' : Option (List DeltaOp)),
      R s s' → lines.foldlM (replayRound apply) (s, batch) = some (r, batch') →
        ∃ r', lines.foldlM (replayRound apply) (s', batch) = some (r', batch') ∧ R r r' := by
    intro lines
    induction lines with
    | nil =>
        intro s s' r batch batch' h hr
        cases hr
        exact ⟨s', rfl, h⟩
    | cons line lines ih =>
        intro s s' r batch batch' h hr
        rw [List.foldlM_cons, Option.bind_eq_bind, Option.bind_eq_some_iff] at hr
        obtain ⟨⟨mid, midBatch⟩, hround, hrest⟩ := hr
        obtain ⟨text, htext, hline⟩ := Option.bind_eq_some_iff.1 hround
        obtain ⟨mid', hline', hrel⟩ := replayLine_rel happly h hline
        obtain ⟨r', hr', hrel'⟩ := ih mid mid' r midBatch batch' hrel hrest
        refine ⟨r', ?_, hrel'⟩
        rw [List.foldlM_cons, Option.bind_eq_bind, Option.bind_eq_some_iff]
        exact ⟨(mid', midBatch), Option.bind_eq_some_iff.2 ⟨text, htext, hline'⟩, hr'⟩
  obtain ⟨⟨done, batch'⟩, hdone, rfl⟩ := Option.map_eq_some_iff.1 hr
  obtain ⟨r', hr', hrel⟩ := hlines _ s s' done none batch' h hdone
  exact ⟨r', Option.map_eq_some_iff.2 ⟨(r', batch'), hr', rfl⟩, hrel⟩

end Replay

namespace TableCache

variable {tc tc' : TableCache}

/-! ## Reading the rows -/

theorem blind_resumeRow (hasDelta : Bool) (id : Int) (row : Bytes) (offset : Nat) :
    Blind fun tc => tc.resumeRow hasDelta id row offset := by
  -- the tail takes the row without a look at the indexes
  have htail : Blind fun tc => some
      { tc with
        nextRowId := tc.nextRowId + 1
        tail := insertTail (if tc.schema.pkIdx.isSome then id else tc.nextRowId) offset tc.tail
        uncachedStart := some (tc.uncachedStart.getD offset) } :=
    Blind.of_comm fun tc tree => rfl
  have happend : Blind fun tc => ({ tc with nextRowId := tc.nextRowId + 1 } :
      TableCache).appendRecordRawMemory tc.nextRowId offset :=
    Blind.of_comm fun tc tree => by
      unfold appendRecordRawMemory
      have hslots : (tc.withId tree).slots = tc.slots := rfl
      simp only [hslots]
      split
      · rfl
      · rfl
  have hindexed := @Blind.value _
    (fun tc => (if tc.schema.pkIdx.isSome then id else tc.nextRowId, tc.slots.length))
    (fun key tc => (({ tc with nextRowId := tc.nextRowId + 1 } :
      TableCache).appendRecordRawMemory tc.nextRowId offset).bind fun tc =>
        if hasDelta then some tc else tc.indexLoadedRow key.1 row key.2)
    (by
      rintro tc _ ⟨tree, m, rfl, -, -⟩
      rfl) fun key => happend.bind (by
        cases hasDelta with
        | true => exact blind_some
        | false => exact blind_indexLoadedRow key.1 row key.2)
  have hchoice := @Blind.value _ (fun tc => decide (tc.activeTally < (MAX_RECORDS : Int)))
    (fun room tc => if room then
        (({ tc with nextRowId := tc.nextRowId + 1 } :
          TableCache).appendRecordRawMemory tc.nextRowId offset).bind fun tc' =>
            if hasDelta then some tc' else tc'.indexLoadedRow
              (if tc.schema.pkIdx.isSome then id else tc.nextRowId) row tc.slots.length
      else some
        { tc with
          nextRowId := tc.nextRowId + 1
          tail := insertTail (if tc.schema.pkIdx.isSome then id else tc.nextRowId) offset tc.tail
          uncachedStart := some (tc.uncachedStart.getD offset) })
    (by
      rintro tc _ ⟨tree, m, rfl, -, -⟩
      rfl) fun room => by
        cases room with
        | true => exact hindexed
        | false => exact htail
  apply hchoice.congr
  intro tc
  unfold resumeRow
  simp only [decide_eq_true_eq]
  rfl

/-- Scans whose tables are twins. -/
def TwinScan (scan scan' : Scan) : Prop := ∃ tc, scan' = { scan with tc := tc } ∧ Twin scan.tc tc

theorem resumeLine_twin {hasDelta : Bool} {scan scan' next : Scan} {line : Bytes}
    (h : TwinScan scan scan') (hnext : resumeLine hasDelta scan line = some next) :
    ∃ next', resumeLine hasDelta scan' line = some next' ∧ TwinScan next next' := by
  obtain ⟨tc, rfl, htwin⟩ := h
  have hschema : tc.schema = scan.tc.schema := by
    obtain ⟨tree, m, rfl, -, -⟩ := htwin
    rfl
  unfold resumeLine at hnext ⊢
  simp only [Option.bind_eq_bind, hschema] at hnext ⊢
  obtain ⟨row, hrow, hnext⟩ := Option.bind_eq_some_iff.1 hnext
  rw [hrow, Option.bind_some]
  split at hnext
  · rename_i hempty
    rw [if_pos hempty]
    cases hnext
    exact ⟨_, rfl, tc, rfl, htwin⟩
  · rename_i hempty
    rw [if_neg hempty]
    obtain ⟨id, hid, hnext⟩ := Option.bind_eq_some_iff.1 hnext
    obtain ⟨read, hread, hnext⟩ := Option.bind_eq_some_iff.1 hnext
    obtain ⟨read', hread', htwin'⟩ :=
      blind_resumeRow hasDelta id row scan.offset scan.tc tc read htwin hread
    cases hnext
    dsimp only at hread'
    rw [hid, Option.bind_some, hread', Option.bind_some]
    exact ⟨_, rfl, read', rfl, htwin'⟩

theorem readRows_twin {files : TableFiles} (h : Twin tc tc') {scan : Scan}
    (hscan : tc.readRows files = some scan) :
    ∃ scan', tc'.readRows files = some scan' ∧ TwinScan scan scan' := by
  have hlines : ∀ (lines : List Bytes) (scan scan' last : Scan), TwinScan scan scan' →
      lines.foldlM (resumeLine files.delta.isSome) scan = some last →
        ∃ last', lines.foldlM (resumeLine files.delta.isSome) scan' = some last' ∧
          TwinScan last last' := by
    intro lines
    induction lines with
    | nil =>
        intro scan scan' last h hlast
        cases hlast
        exact ⟨scan', rfl, h⟩
    | cons line lines ih =>
        intro scan scan' last h hlast
        rw [List.foldlM_cons, Option.bind_eq_bind, Option.bind_eq_some_iff] at hlast
        obtain ⟨next, hnext, hrest⟩ := hlast
        obtain ⟨next', hnext', htwin⟩ := resumeLine_twin h hnext
        obtain ⟨last', hlast', htwin'⟩ := ih next next' last htwin hrest
        refine ⟨last', ?_, htwin'⟩
        rw [List.foldlM_cons, Option.bind_eq_bind, Option.bind_eq_some_iff]
        exact ⟨next', hnext', hlast'⟩
  exact hlines _ _ _ _ ⟨tc', rfl, h⟩ hscan

/-! ## Without a snapshot -/

/-- Where the active slots are counted, the rows are read as without a snapshot. -/
theorem resumeRow_eq (h : tc.activeTally = tc.activeCount) (hasDelta : Bool) (id : Int)
    (row : Bytes) (offset : Nat) :
    tc.resumeRow hasDelta id row offset = tc.scanRow hasDelta id row offset := by
  have hroom : tc.activeTally < (MAX_RECORDS : Int) ↔ tc.activeCount < MAX_RECORDS := by
    rw [h]
    exact Nat.cast_lt
  unfold resumeRow scanRow
  by_cases hlt : tc.activeCount < MAX_RECORDS
  · exact (if_pos (hroom.2 hlt)).trans (if_pos hlt).symm
  · exact (if_neg fun hno => hlt (hroom.1 hno)).trans (if_neg hlt).symm

theorem resumeLines_eq (hasDelta : Bool) : ∀ (lines : List Bytes) (scan : Scan), Sound scan.tc →
    lines.foldlM (resumeLine hasDelta) scan = lines.foldlM (scanLine hasDelta) scan := by
  intro lines
  induction lines with
  | nil => exact fun _ _ => rfl
  | cons line lines ih =>
      intro scan h
      have hline : resumeLine hasDelta scan line = scanLine hasDelta scan line := by
        unfold resumeLine scanLine
        simp only [resumeRow_eq h.tally]
      rw [List.foldlM_cons, List.foldlM_cons, hline]
      cases hnext : scanLine hasDelta scan line with
      | none => rfl
      | some next =>
          have hsingle : [line].foldlM (scanLine hasDelta) scan = some next := by
            rw [List.foldlM_cons, hnext]
            rfl
          exact ih next (h.changes (Changes.scanLines hsingle))

theorem readRows_openTable (files : TableFiles) :
    (openTable files.csv).readRows files = scanTable files.delta.isSome files.csv :=
  resumeLines_eq files.delta.isSome _ _ (Sound.openTable files.csv)

end TableCache

namespace TableFiles

variable (files : TableFiles)

/-- The same files without the snapshot. -/
def withoutIdx : TableFiles := { files with idx := none }

/-- The table whose indexes `load_index_snapshot` is asked for when no snapshot has been
parsed, and what `next_auto_id` is raised to behind it. -/
def unindexed : Option (TableCache × Option Int) := do
  let scan ← scanTable files.delta.isSome files.csv
  match files.delta with
  | none => if scan.tc.activeTally = 0 then none else some (scan.tc, some scan.fileNextAutoId)
  | some (log, _) =>
    if scan.tc.activeTally = 0 ∧ scan.tc.tail = [] then none
    else (replayDeltaLog TableCache.applyDeltaOps log scan.tc).map (·, none)

end TableFiles

/-- The snapshot has the entries and the counters of a table. -/
structure IndexSnapshot.Describes (snapshot : IndexSnapshot) (next : Option Int)
    (tc : TableCache) : Prop where
  ids : ∀ key, mapOf snapshot.idPairs key = search tc.idIndex key
  uks : ∀ (i : Nat) (key : Bytes),
    ((snapshot.ukIndexes[i]?).bind fun index => search index.tree key) = tc.ukSearch i key
  rowIds : tc.numberRows snapshot.idPairs = tc
  nextAutoId : next.elim snapshot.rows.nextAutoId (max snapshot.rows.nextAutoId) = tc.nextAutoId
  nextRowId : snapshot.rows.nextRowId = tc.nextRowId

namespace TableFiles

variable (files : TableFiles)

/-- The snapshot has left the table as it was, and it is loaded as without a snapshot. -/
def FallsBack : Prop :=
  SameLookups (openTable files.csv) ((openTable files.csv).loadTableParseSnapshot files).1 ∧
    Option.Rel SameLookups files.withoutIdx.loadTableContents files.loadTableContents

/-- What `load_index_snapshot` takes from the snapshot is right. -/
def TakesRight : Prop :=
  ∀ tc next snapshot, files.unindexed = some (tc, next) →
    tc.readIndexSnapshot files = some snapshot → increasing snapshot.idPairs = true →
      ∃ loaded, files.withoutIdx.loadTableContents = some loaded ∧ snapshot.Describes next loaded

/-- The snapshot is refused before it announces slots, and the indexes that are taken from it
all the same are those of the rows. -/
structure Clean : Prop where
  slots : ∀ rows lines, files.parsedHead (openTable files.csv).schema = some (rows, lines) →
    rows.recordCount = 0
  indexes : files.TakesRight

end TableFiles

namespace TableCache

variable {tc tc' : TableCache} {files : TableFiles}

theorem loadTableParseSnapshot_withoutIdx (tc : TableCache) (files : TableFiles) :
    tc.loadTableParseSnapshot files.withoutIdx = (tc, false) := by
  have hhead : files.withoutIdx.parsedHead tc.schema = none := by
    unfold TableFiles.parsedHead
    split
    · rfl
    · rfl
  unfold loadTableParseSnapshot
  rw [hhead]

theorem loadIndexSnapshot_withoutIdx (tc : TableCache) (files : TableFiles) :
    tc.loadIndexSnapshot files.withoutIdx = (tc, false) := by
  have hread : tc.readIndexSnapshot files.withoutIdx = none := by
    unfold readIndexSnapshot
    split
    · rfl
    · rfl
  unfold loadIndexSnapshot
  rw [hread]

end TableCache

theorem loadTableContents_withoutIdx (files : TableFiles) :
    files.withoutIdx.loadTableContents =
      loadTableContents files.csv (files.delta.map Prod.fst) := by
  unfold TableFiles.loadTableContents
  rw [TableCache.loadTableParseSnapshot_withoutIdx]
  simp only
  unfold TableCache.loadRows Legacy.loadTableContents
  have hread := TableCache.readRows_openTable files.withoutIdx
  have hcsv : files.withoutIdx.csv = files.csv := rfl
  have hdelta : files.withoutIdx.delta = files.delta := rfl
  rw [hread, hcsv, hdelta, Option.isSome_map]
  simp only [Option.bind_eq_bind]
  refine Option.bind_congr fun scan hscan => ?_
  have htally : scan.tc.activeTally = 0 ↔ scan.tc.activeCount = 0 := by
    rw [((Sound.openTable files.csv).changes (Changes.scanLines hscan)).tally]
    exact Nat.cast_eq_zero
  cases files.delta with
  | none =>
      simp only [TableCache.loadIndexSnapshot_withoutIdx, ite_self, Option.map_none]
  | some delta =>
      obtain ⟨log, mtime⟩ := delta
      simp only [TableCache.loadIndexSnapshot_withoutIdx, Option.map_some, htally]

/-! ## With a refused snapshot -/

theorem SameLookups.refl (tc : TableCache) : SameLookups tc tc := ⟨rfl, fun _ => rfl, fun _ _ => rfl⟩

namespace TableCache

variable {tc tc' : TableCache} {files : TableFiles}

theorem Twin.raise (h : Twin tc tc') (next : Int) :
    SameLookups (tc.raiseAutoId next) (tc'.raiseAutoId next) := by
  have hsearch := h.search
  obtain ⟨tree, m, rfl, -, -⟩ := h
  exact ⟨rfl, hsearch, fun _ _ => rfl⟩

theorem readIdPairs_withId (tc : TableCache) (tree : BPlusTree Int) :
    ∀ n lines, (tc.withId tree).readIdPairs n lines = tc.readIdPairs n lines := by
  have hactive : (tc.withId tree).rowIsActive = tc.rowIsActive := rfl
  intro n
  induction n with
  | zero => exact fun _ => rfl
  | succ n ih =>
      intro lines
      simp only [readIdPairs, hactive, ih]

theorem readUkPairs_withId (tc : TableCache) (tree : BPlusTree Int) :
    ∀ n lines, (tc.withId tree).readUkPairs n lines = tc.readUkPairs n lines := by
  have hactive : (tc.withId tree).rowIsActive = tc.rowIsActive := rfl
  intro n
  induction n with
  | zero => exact fun _ => rfl
  | succ n ih =>
      intro lines
      simp only [readUkPairs, hactive, ih]

theorem readUkSections_withId (tc : TableCache) (tree : BPlusTree Int) :
    ∀ cols lines, (tc.withId tree).readUkSections cols lines = tc.readUkSections cols lines := by
  have htally : (tc.withId tree).activeTally = tc.activeTally := rfl
  intro cols
  induction cols with
  | nil => exact fun _ => rfl
  | cons col cols ih =>
      intro lines
      simp only [readUkSections, htally, readUkPairs_withId, ih]

theorem Twin.readIndexSnapshot (h : Twin tc tc') (files : TableFiles) :
    tc'.readIndexSnapshot files = tc.readIndexSnapshot files := by
  obtain ⟨tree, m, rfl, -, -⟩ := h
  have hids : (tc.withId tree).readIds = tc.readIds := by
    funext lines
    have htally : (tc.withId tree).activeTally = tc.activeTally := rfl
    simp only [readIds, htally, readIdPairs_withId]
  have huks : (tc.withId tree).readUks = tc.readUks := by
    funext lines
    have hschema : (tc.withId tree).schema = tc.schema := rfl
    simp only [readUks, hschema, readUkSections_withId]
  unfold TableCache.readIndexSnapshot
  rw [hids, huks]
  rfl

theorem increasing_of_build {tree tree' : BPlusTree Int} {pairs : List (Int × Nat)}
    (h : bptreeBuildFromSorted tree pairs = (tree', true)) : increasing pairs = true := by
  have hspec := Holds.build intSeparator_keeps tree pairs
  unfold bptreeBuildFromSorted at h
  rw [h] at hspec
  exact increasing_iff.2 hspec.1

theorem search_refused {tree tree' : BPlusTree Int} {pairs : List (Int × Nat)}
    (h : bptreeBuildFromSorted tree pairs = (tree', false)) :
    increasing pairs = false ∧ ∀ key, search tree' key = search tree key := by
  have hspec := buildFromSorted_spec intSeparator_keeps tree pairs
  unfold bptreeBuildFromSorted at h
  rw [h] at hspec
  obtain ⟨hsorted, htree⟩ := hspec
  refine ⟨Bool.eq_false_iff.2 fun hinc => hsorted (increasing_iff.1 hinc), fun key => ?_⟩
  rw [htree]
  rfl

/-- The indexes of an accepted snapshot make the loaded table exactly when it describes it. -/
theorem same_accepted_iff (h : Twin tc tc') {snapshot : IndexSnapshot} {tree : BPlusTree Int}
    (hbuild : bptreeBuildFromSorted tc'.idIndex snapshot.idPairs = (tree, true))
    {loaded : TableCache}
    (hloaded : { tc with
      idIndex := loaded.idIndex
      ukIndexes := loaded.ukIndexes
      nextAutoId := loaded.nextAutoId } = loaded) (next : Option Int) :
    SameLookups loaded
        { tc'.numberRows snapshot.idPairs with
          idIndex := tree
          ukIndexes := snapshot.ukIndexes
          nextAutoId := next.elim snapshot.rows.nextAutoId (max snapshot.rows.nextAutoId)
          nextRowId := snapshot.rows.nextRowId } ↔
      snapshot.Describes next loaded := by
  have hholds := holds_bptreeBuild hbuild
  obtain ⟨old, m, rfl, -, -⟩ := h
  generalize loaded.idIndex = idIndex, loaded.ukIndexes = ukIndexes,
    loaded.nextAutoId = nextAutoId at hloaded
  subst hloaded
  constructor
  · intro hsame
    have hrest := hsame.rest
    refine ⟨fun key => ?_, hsame.uk, ?_, ?_, ?_⟩
    · rw [← hholds.search_eq]
      exact hsame.id key
    · have hslots := congrArg TableCache.slots hrest
      dsimp only [numberRows, withId] at hslots ⊢
      rw [← hslots]
    · exact (congrArg TableCache.nextAutoId hrest).symm
    · exact (congrArg TableCache.nextRowId hrest).symm
  · intro hdesc
    refine ⟨?_, fun key => (hholds.search_eq key).trans (hdesc.ids key), hdesc.uks⟩
    have hslots := congrArg TableCache.slots hdesc.rowIds
    have hauto := hdesc.nextAutoId
    have hrow := hdesc.nextRowId
    dsimp only [numberRows, withId] at hslots hauto hrow ⊢
    rw [hslots, hauto, hrow]

theorem loadIndexSnapshot_cases (tc : TableCache) (files : TableFiles) :
    (∃ snapshot tree, tc.readIndexSnapshot files = some snapshot ∧
      bptreeBuildFromSorted tc.idIndex snapshot.idPairs = (tree, true) ∧
      tc.loadIndexSnapshot files =
        ({ tc.numberRows snapshot.idPairs with
            idIndex := tree
            ukIndexes := snapshot.ukIndexes
            nextAutoId := snapshot.rows.nextAutoId
            nextRowId := snapshot.rows.nextRowId }, true)) ∨
    ∃ tree, (∀ snapshot, tc.readIndexSnapshot files = some snapshot →
        increasing snapshot.idPairs = false) ∧
      (∀ key, search tree key = search tc.idIndex key) ∧
      tc.loadIndexSnapshot files = (tc.withId tree, false) := by
  cases hread : tc.readIndexSnapshot files with
  | none =>
      refine Or.inr ⟨tc.idIndex, ?_, fun _ => rfl, ?_⟩
      · intro snapshot h
        cases h
      · simp only [loadIndexSnapshot, hread]
        rfl
  | some snapshot =>
      cases hbuild : bptreeBuildFromSorted tc.idIndex snapshot.idPairs with
      | mk tree built =>
          cases built with
          | true =>
              refine Or.inl ⟨snapshot, tree, rfl, hbuild, ?_⟩
              simp only [loadIndexSnapshot, hread, hbuild]
          | false =>
              obtain ⟨hinc, hsearch⟩ := search_refused hbuild
              refine Or.inr ⟨tree, ?_, hsearch, ?_⟩
              · intro other h
                cases h
                exact hinc
              · simp only [loadIndexSnapshot, hread, hbuild]
                rfl

theorem rel_some {R : TableCache → TableCache → Prop} :
    Option.Rel R (some tc) (some tc') ↔ R tc tc' :=
  ⟨fun h => by cases h; assumption, Option.Rel.some⟩

/-- The index snapshot decides, where it is asked for. -/
theorem takesRight_iff {read : TableCache} {next : Option Int}
    (hindexed : files.unindexed = some (tc, next)) (h : Twin tc read) :
    files.TakesRight ↔ ∀ snapshot, read.readIndexSnapshot files = some snapshot →
      increasing snapshot.idPairs = true →
        ∃ loaded, files.withoutIdx.loadTableContents = some loaded ∧
          snapshot.Describes next loaded := by
  unfold TableFiles.TakesRight
  rw [hindexed, h.readIndexSnapshot files]
  constructor
  · exact fun hright snapshot => hright tc next snapshot rfl
  · rintro hright _ _ snapshot ⟨⟩
    exact hright snapshot

section Fallback

variable {scan scan' : Scan}

theorem rel_loadRows_bare (hdelta : files.delta = none)
    (hscan : scanTable files.delta.isSome files.csv = some scan)
    (hscan' : tc'.readRows files = some scan') (h : TwinScan scan scan') :
    Option.Rel SameLookups files.withoutIdx.loadTableContents (tc'.loadRows files) ↔
      files.TakesRight := by
  obtain ⟨read, rfl, htwin⟩ := h
  have htally : read.activeTally = scan.tc.activeTally := by
    obtain ⟨tree, m, rfl, -, -⟩ := htwin
    rfl
  have hload : files.withoutIdx.loadTableContents =
      some (scan.tc.raiseAutoId scan.fileNextAutoId) := by
    rw [hdelta] at hscan
    rw [loadTableContents_withoutIdx, Legacy.loadTableContents, hdelta]
    simp only [Option.isSome_none] at hscan
    simp only [Option.map_none, Option.isSome_none, hscan]
    rfl
  have hrows : tc'.loadRows files =
      some ((if read.activeTally = 0 then read else (read.loadIndexSnapshot files).1).raiseAutoId
        scan.fileNextAutoId) := by
    unfold loadRows
    rw [hscan', hdelta]
    rfl
  have hindexed : files.unindexed =
      if scan.tc.activeTally = 0 then none else some (scan.tc, some scan.fileNextAutoId) := by
    unfold TableFiles.unindexed
    rw [hscan, hdelta]
    rfl
  rw [hrows, htally]
  by_cases hempty : scan.tc.activeTally = 0
  · rw [if_pos hempty] at hindexed ⊢
    rw [hload, rel_some]
    refine iff_of_true (htwin.raise scan.fileNextAutoId) ?_
    intro _ _ _ hnone
    rw [hindexed] at hnone
    cases hnone
  · rw [if_neg hempty] at hindexed ⊢
    rw [takesRight_iff hindexed htwin, hload, rel_some]
    obtain ⟨snapshot, tree, hread, hbuild, hsome⟩ | ⟨tree, hno, hsearch, hnone⟩ :=
      read.loadIndexSnapshot_cases files
    · have hiff := @same_accepted_iff scan.tc read htwin snapshot tree hbuild
        (scan.tc.raiseAutoId scan.fileNextAutoId) rfl (some scan.fileNextAutoId)
      rw [hsome]
      refine Iff.trans ?_ (hiff.trans ?_)
      · rfl
      · constructor
        · intro hdesc other hother _
          rw [hread] at hother
          cases hother
          exact ⟨_, rfl, hdesc⟩
        · intro hright
          obtain ⟨loaded, hloaded, hdesc⟩ := hright snapshot hread (increasing_of_build hbuild)
          cases hloaded
          exact hdesc
    · rw [hnone]
      refine iff_of_true ?_ ?_
      · have hsame := htwin.search
        obtain ⟨old, m, rfl, -, -⟩ := htwin
        exact ⟨rfl, fun key => (hsearch key).trans (hsame key), fun _ _ => rfl⟩
      · intro snapshot hread hinc
        rw [hno snapshot hread] at hinc
        cases hinc

/-- What stands behind the replay of a delta log where there is no snapshot. -/
def rebuilt (tc : TableCache) (next : Int) : Option TableCache :=
  (tc.rebuildIdIndex.bind rebuildUkIndexes).map (·.raiseAutoId next)

theorem rebuilt_eq {next : Int} {loaded : TableCache} (h : tc.rebuilt next = some loaded) :
    { tc with
      idIndex := loaded.idIndex
      ukIndexes := loaded.ukIndexes
      nextAutoId := loaded.nextAutoId } = loaded := by
  obtain ⟨done, hdone, rfl⟩ := Option.map_eq_some_iff.1 h
  obtain ⟨mid, hmid, hdone⟩ := Option.bind_eq_some_iff.1 hdone
  unfold rebuildIdIndex at hmid
  split at hmid
  · cases hmid
  · split at hmid
    · cases hmid
    · cases hmid
      unfold rebuildUkIndexes at hdone
      obtain ⟨indexes, -, rfl⟩ := Option.map_eq_some_iff.1 hdone
      rfl

theorem loadRows_logged {log : Bytes} {mtime : Int} (hdelta : files.delta = some (log, mtime))
    (hscan : tc.readRows files = some scan) :
    tc.loadRows files =
      if scan.tc.activeTally = 0 ∧ scan.tc.tail = [] then
        some (scan.tc.raiseAutoId scan.fileNextAutoId)
      else
        (replayDeltaLog applyDeltaOps log scan.tc).bind fun tc =>
          if (tc.loadIndexSnapshot files).2 = true then some (tc.loadIndexSnapshot files).1
          else (tc.loadIndexSnapshot files).1.rebuilt scan.fileNextAutoId := by
  have hrebuilt : ∀ tc : TableCache, (tc.rebuildIdIndex.bind fun tc =>
      tc.rebuildUkIndexes.bind fun tc => some (tc.raiseAutoId scan.fileNextAutoId)) =
        tc.rebuilt scan.fileNextAutoId := by
    intro tc
    unfold rebuilt
    cases tc.rebuildIdIndex with
    | none => rfl
    | some mid =>
        simp only [Option.bind_some]
        cases mid.rebuildUkIndexes with
        | none => rfl
        | some done => rfl
  unfold loadRows
  rw [hscan, hdelta]
  simp only [Option.bind_eq_bind, Option.bind_some]
  split
  · rfl
  · apply Option.bind_congr
    intro tc _
    generalize tc.loadIndexSnapshot files = result
    obtain ⟨tc', ok⟩ := result
    cases ok with
    | true => rfl
    | false => exact hrebuilt tc'

theorem rel_refl (result : Option TableCache) : Option.Rel SameLookups result result := by
  cases result with
  | none => exact Option.Rel.none
  | some tc => exact Option.Rel.some (SameLookups.refl tc)

theorem rel_loadRows_logged {log : Bytes} {mtime : Int} (hdelta : files.delta = some (log, mtime))
    (hscan : scanTable files.delta.isSome files.csv = some scan)
    (hscan' : tc'.readRows files = some scan') (h : TwinScan scan scan') :
    Option.Rel SameLookups files.withoutIdx.loadTableContents (tc'.loadRows files) ↔
      files.TakesRight := by
  obtain ⟨read, rfl, htwin⟩ := h
  have hempty : (read.activeTally = 0 ∧ read.tail = []) ↔
      (scan.tc.activeTally = 0 ∧ scan.tc.tail = []) := by
    obtain ⟨tree, m, rfl, -, -⟩ := htwin
    rfl
  have hindexed : files.unindexed =
      if scan.tc.activeTally = 0 ∧ scan.tc.tail = [] then none
      else (replayDeltaLog applyDeltaOps log scan.tc).map (·, none) := by
    unfold TableFiles.unindexed
    rw [hscan, hdelta]
    rfl
  have hread : (openTable files.csv).readRows files.withoutIdx = some scan :=
    (readRows_openTable files.withoutIdx).trans hscan
  have hload : files.withoutIdx.loadTableContents =
      if scan.tc.activeTally = 0 ∧ scan.tc.tail = [] then
        some (scan.tc.raiseAutoId scan.fileNextAutoId)
      else
        (replayDeltaLog applyDeltaOps log scan.tc).bind (·.rebuilt scan.fileNextAutoId) := by
    have hlogged := @loadRows_logged (openTable files.csv) files.withoutIdx scan log mtime hdelta
      hread
    simp only [loadIndexSnapshot_withoutIdx, Bool.false_eq_true, if_false] at hlogged
    rw [← hlogged]
    unfold TableFiles.loadTableContents
    have hcsv : files.withoutIdx.csv = files.csv := rfl
    rw [hcsv, loadTableParseSnapshot_withoutIdx]
  rw [loadRows_logged hdelta hscan']
  by_cases hnone : scan.tc.activeTally = 0 ∧ scan.tc.tail = []
  · rw [if_pos hnone] at hindexed hload
    rw [if_pos (hempty.2 hnone), hload, rel_some]
    refine iff_of_true (htwin.raise scan.fileNextAutoId) ?_
    intro _ _ _ hno
    rw [hindexed] at hno
    cases hno
  · rw [if_neg hnone] at hindexed hload
    rw [if_neg fun hno => hnone (hempty.1 hno)]
    have hblind := fun {tc tc' r : TableCache} (h : Twin tc tc') =>
      @replayDeltaLog_rel _ _ Twin (fun ops s s' r => blind_applyDeltaOps ops s s' r) tc tc' r log h
    cases hreplay : replayDeltaLog applyDeltaOps log scan.tc with
    | none =>
        have hreplay' : replayDeltaLog applyDeltaOps log read = none := by
          by_contra hsome
          obtain ⟨done, hdone⟩ := Option.ne_none_iff_exists'.1 hsome
          obtain ⟨done', hdone', -⟩ := hblind htwin.symm hdone
          rw [hreplay] at hdone'
          cases hdone'
        rw [hreplay] at hindexed hload
        rw [hreplay', hload]
        refine iff_of_true Option.Rel.none ?_
        intro _ _ _ hno
        rw [hindexed] at hno
        cases hno
    | some done =>
        obtain ⟨done', hreplay', hdone⟩ := hblind htwin hreplay
        rw [hreplay] at hindexed hload
        rw [hreplay', Option.bind_some, takesRight_iff hindexed hdone, hload, Option.bind_some]
        obtain ⟨snapshot, tree, hread, hbuild, hsome⟩ | ⟨tree, hno, -, hrefused⟩ :=
          done'.loadIndexSnapshot_cases files
        · rw [hsome, if_pos rfl]
          cases hloaded : done.rebuilt scan.fileNextAutoId with
          | none =>
              refine iff_of_false (fun hrel => by cases hrel) fun hright => ?_
              obtain ⟨loaded, hno, -⟩ := hright snapshot hread (increasing_of_build hbuild)
              cases hno
          | some loaded =>
              have hiff := same_accepted_iff hdone hbuild (rebuilt_eq hloaded) none
              rw [rel_some]
              refine Iff.trans ?_ (hiff.trans ?_)
              · rfl
              · constructor
                · intro hdesc other hother _
                  rw [hread] at hother
                  cases hother
                  exact ⟨loaded, rfl, hdesc⟩
                · intro hright
                  obtain ⟨other, hother, hdesc⟩ :=
                    hright snapshot hread (increasing_of_build hbuild)
                  cases hother
                  exact hdesc
        · have hsame : (done'.withId tree).rebuilt scan.fileNextAutoId =
              done.rebuilt scan.fileNextAutoId := by
            obtain ⟨old, m, rfl, -, -⟩ := hdone
            rfl
          rw [hrefused, if_neg Bool.false_ne_true, hsame]
          refine iff_of_true (rel_refl _) ?_
          intro snapshot hread hinc
          rw [hno snapshot hread] at hinc
          cases hinc

end Fallback

theorem rel_loadRows (h : Twin (openTable files.csv) tc') :
    Option.Rel SameLookups files.withoutIdx.loadTableContents (tc'.loadRows files) ↔
      files.TakesRight := by
  have hread := readRows_openTable files
  cases hscan : scanTable files.delta.isSome files.csv with
  | none =>
      have hread' : tc'.readRows files = none := by
        by_contra hsome
        obtain ⟨scan, hscan'⟩ := Option.ne_none_iff_exists'.1 hsome
        obtain ⟨scan', hscan', -⟩ := readRows_twin h.symm hscan'
        rw [hread, hscan] at hscan'
        cases hscan'
      have hload : files.withoutIdx.loadTableContents = none := by
        rw [loadTableContents_withoutIdx, Legacy.loadTableContents, Option.isSome_map, hscan]
        rfl
      have hrows : tc'.loadRows files = none := by
        unfold loadRows
        rw [hread']
        rfl
      rw [hload, hrows]
      refine iff_of_true Option.Rel.none ?_
      intro _ _ _ hindexed
      unfold TableFiles.unindexed at hindexed
      rw [hscan] at hindexed
      cases hindexed
  | some scan =>
      obtain ⟨scan', hscan', htwin⟩ := readRows_twin h (hread.trans hscan)
      cases hdelta : files.delta with
      | none => exact rel_loadRows_bare hdelta hscan hscan' htwin
      | some delta => exact rel_loadRows_logged hdelta hscan hscan' htwin

end TableCache

namespace TableFiles

variable {files : TableFiles}

theorem parsedHead_nonneg {schema : Schema} {rows : RowsLine} {lines : List Bytes}
    (h : files.parsedHead schema = some (rows, lines)) : 0 ≤ rows.recordCount := by
  unfold parsedHead at h
  split at h
  · cases h
  · split at h
    · cases h
    · split at h
      · rename_i hrows
        cases h
        exact hrows.1
      · cases h

/-- A snapshot that is refused in time leaves the table as it was. -/
theorem twin_of_refused {tc' : TableCache}
    (h : (openTable files.csv).loadTableParseSnapshot files = (tc', false))
    (hslots : ∀ rows lines, files.parsedHead (openTable files.csv).schema = some (rows, lines) →
      rows.recordCount = 0) : (openTable files.csv).Twin tc' := by
  unfold TableCache.loadTableParseSnapshot at h
  cases hhead : files.parsedHead (openTable files.csv).schema with
  | none =>
      rw [hhead] at h
      cases h
      exact ⟨_, _, rfl, holds_create Int, holds_create Int⟩
  | some head =>
      rw [hhead] at h
      obtain ⟨tree, rfl, hholds⟩ := TableCache.readSections_empty (hslots head.1 head.2 hhead) h
      exact ⟨tree, _, rfl, holds_create Int, hholds⟩

/-- A refused snapshot falls back to the rows exactly when it is refused before the slots
and nothing wrong is taken from it later. -/
theorem falls_back_iff (files : TableFiles)
    (hrefused : ((openTable files.csv).loadTableParseSnapshot files).2 = false) :
    files.FallsBack ↔ files.Clean := by
  unfold FallsBack
  cases hresult : (openTable files.csv).loadTableParseSnapshot files with
  | mk tc' ok =>
      rw [hresult] at hrefused
      cases hrefused
      have hload : files.loadTableContents = tc'.loadRows files := by
        unfold TableFiles.loadTableContents
        rw [hresult]
      rw [hload]
      constructor
      · rintro ⟨hsame, hrel⟩
        have hslots : ∀ rows lines,
            files.parsedHead (openTable files.csv).schema = some (rows, lines) →
              rows.recordCount = 0 := by
          intro rows lines hhead
          have hlen := @TableCache.length_readSections (openTable files.csv) rows lines
          unfold TableCache.loadTableParseSnapshot at hresult
          rw [hhead] at hresult
          simp only at hresult
          rw [hresult, ← hsame.rest] at hlen
          have hzero : 0 = rows.recordCount.toNat := hlen
          have hnonneg := parsedHead_nonneg hhead
          omega
        exact ⟨hslots, (TableCache.rel_loadRows (twin_of_refused hresult hslots)).1 hrel⟩
      · intro hclean
        have htwin := twin_of_refused hresult hclean.slots
        refine ⟨?_, (TableCache.rel_loadRows htwin).2 hclean.indexes⟩
        have hsearch := htwin.search
        obtain ⟨tree, m, rfl, -, -⟩ := htwin
        exact ⟨rfl, hsearch, fun _ _ => rfl⟩

end TableFiles

/-! ## A snapshot that ends among the slots -/

/-- Two rows, with a snapshot of these lines. -/
def twoRows (idx : String) : TableFiles :=
  { name := str "people"
    csv := str "id(PK),name\n1,ann\n2,bob\n"
    csvMtime := 7
    delta := none
    idx := some (str idx) }

/-- The CSV file has another size than the snapshot says. -/
def staleRows : TableFiles := twoRows "SQLPROC_IDX_V2\nTABLE people\nCSV 1 18 7\nDELTA 0 0 0\n"

theorem stale_falls_back : staleRows.FallsBack := by
  refine (TableFiles.falls_back_iff staleRows (by decide +kernel)).2 ⟨?_, ?_⟩
  · intro rows lines hhead
    have hnone : staleRows.parsedHead (openTable staleRows.csv).schema = none := by decide +kernel
    rw [hnone] at hhead
    cases hhead
  · intro tc next snapshot hindexed hread
    have hnone : ((staleRows.unindexed.bind fun e => e.1.readIndexSnapshot staleRows).isNone) =
        true := by decide +kernel
    rw [hindexed, Option.bind_some, hread] at hnone
    cases hnone

/-- The snapshot is cut off behind its first slot. -/
def tornRows : TableFiles :=
  twoRows ("SQLPROC_IDX_V2\nTABLE people\nCSV 1 24 7\nDELTA 0 0 0\nSCHEMA 2 0 0\n" ++
    "ROWS 2 2 0 0 3 3\nSLOTS 2\n0\t1\t1\t1\t12\n")

/-- The slots of the snapshot stay in the table, and row 1 is in it twice. -/
theorem torn_leaves_slots :
    ((openTable tornRows.csv).loadTableParseSnapshot tornRows).2 = false ∧
      (tornRows.withoutIdx.loadTableContents.map fun tc => tc.rows.map Prod.snd) =
        some [str "1,ann", str "2,bob"] ∧
      (tornRows.loadTableContents.map fun tc => tc.rows.map Prod.snd) =
        some [str "1,ann", str "1,ann", str "2,bob"] ∧
      ¬ tornRows.FallsBack := by
  refine ⟨by decide +kernel, by decide +kernel, by decide +kernel, ?_⟩
  rintro ⟨hsame, -⟩
  have hslots : ((openTable tornRows.csv).loadTableParseSnapshot tornRows).1.slots.length = 2 := by
    decide +kernel
  rw [← hsame.rest] at hslots
  cases hslots

end MiniDbms.Legacy
