import MiniDbms.Legacy.Insert
import MiniDbms.Legacy.Indexes
import Mathlib.Logic.Relation

/-!
# Reachable table caches

Loading, INSERT, UPDATE, DELETE and their undo paths change a `TableCache` by the same
few writes.  A table is reachable when such writes lead to it from the empty table of a
header.

Two ways to a table are not among these writes.  A DELETE that compacts the log loads the
table anew before it frees its slots, and so puts slots on the free list that are active
in the new table.  And a load that gives up an `.idx` file half read goes on with the
slots and the counts it has got so far.
-/

namespace MiniDbms.Legacy

open Bptree

/-- One write to a table cache. -/
inductive Change : TableCache → TableCache → Prop
  | idInsert {tc : TableCache} {key : Int} {slotId : Nat} {tree : BPlusTree Int}
      (h : bptreeInsert tc.idIndex key slotId = some tree) : Change tc { tc with idIndex := tree }
  | idDelete {tc : TableCache} {key : Int} {tree : BPlusTree Int}
      (h : bptreeDelete tc.idIndex key = some tree) : Change tc { tc with idIndex := tree }
  | idBuild {tc : TableCache} {pairs : List (Int × Nat)} {tree : BPlusTree Int}
      (h : bptreeBuildFromSorted (create Int) pairs = (tree, true)) :
      Change tc { tc with idIndex := tree }
  | ukInsert {tc : TableCache} {i : Nat} {index : UniqueIndex} {key : Bytes} {slotId : Nat}
      {tree : BPlusTree Bytes} (hi : tc.ukIndexes[i]? = some index)
      (h : bptreeStringInsert index.tree key slotId = some tree) :
      Change tc { tc with ukIndexes := tc.ukIndexes.set i { index with tree := tree } }
  | ukDelete {tc : TableCache} {i : Nat} {index : UniqueIndex} {key : Bytes}
      {tree : BPlusTree Bytes} (hi : tc.ukIndexes[i]? = some index)
      (h : bptreeStringDelete index.tree key = some tree) :
      Change tc { tc with ukIndexes := tc.ukIndexes.set i { index with tree := tree } }
  | ukBuild {tc : TableCache} {indexes : List UniqueIndex}
      (hcols : indexes.map UniqueIndex.colIdx = tc.ukIndexes.map UniqueIndex.colIdx)
      (h : ∀ index ∈ indexes, ∃ pairs : List (Bytes × Nat),
        bptreeStringBuildFromSorted (create Bytes) pairs = (index.tree, true)) :
      Change tc { tc with ukIndexes := indexes }
  -- another text or another place for the row of a slot
  | write {tc : TableCache} {i : Nat} {old slot : Slot} (hi : tc.slots[i]? = some old)
      (h : slot.active = old.active) : Change tc (tc.setSlot i slot)
  -- an `.idx` file also has the free slots
  | grow {tc : TableCache} (slot : Slot) (h : tc.slots.length < MAX_RECORDS) :
      Change tc
        { tc with
          slots := tc.slots ++ [slot]
          freeSlots := if slot.active then tc.freeSlots else tc.freeSlots ++ [tc.slots.length]
          activeTally := tc.activeTally + if slot.active then 1 else 0 }
  | reuse {tc : TableCache} {free : List Nat} {i : Nat} (slot : Slot)
      (h : tc.freeSlots = free ++ [i]) :
      Change tc
        { tc.setSlot i slot with
          freeSlots := free
          activeTally := tc.activeTally + if slot.active then 1 else 0 }
  | release {tc tc' : TableCache} {i : Nat} (h : tc.deactivateSlot i = some tc') : Change tc tc'
  | other {tc : TableCache} (file : Bytes) (tail : List (Int × Nat)) (uncachedStart : Option Nat)
      (nextAutoId nextRowId : Int) (evicted : List Nat)
      (writePos : Option (Nat × Nat)) :
      Change tc
        { tc with
          file := file
          tail := tail
          uncachedStart := uncachedStart
          nextAutoId := nextAutoId
          nextRowId := nextRowId
          evicted := evicted
          writePos := writePos }

def Changes : TableCache → TableCache → Prop := Relation.ReflTransGen Change

def Reachable (tc : TableCache) : Prop := ∃ file, Changes (openTable file) tc

/-! ## What every write keeps -/

/-- The trees are sound, the free list has inactive slots, each of them once, and the
active slots are counted. -/
structure Sound (tc : TableCache) : Prop where
  id : ∃ m, Holds tc.idIndex m
  uk : ∀ index ∈ tc.ukIndexes, ∃ m, Holds index.tree m
  free : ∀ i ∈ tc.freeSlots, i < tc.slots.length ∧ tc.slotIsActive i = false
  nodup : tc.freeSlots.Nodup
  short : tc.slots.length ≤ MAX_RECORDS
  tally : tc.activeTally = tc.activeCount

section Trees

variable {m : Int → Option Nat} {m' : Bytes → Option Nat}

theorem holds_create (α : Type) [LinearOrder α] : Holds (create α Nat) fun _ => none :=
  Holds.of_toList_nil BPlusTree.create_ok rfl

theorem holds_bptreeInsert {tree tree' : BPlusTree Int} (h : Holds tree m) {key : Int} {i : Nat}
    (hins : bptreeInsert tree key i = some tree') :
    m key = none ∧ Holds tree' (put m key (some i)) := by
  have hspec := h.insertWith firstOfRight_ok key i
  unfold bptreeInsert at hins
  rw [hins] at hspec
  exact hspec

theorem holds_bptreeDelete {tree tree' : BPlusTree Int} (h : Holds tree m) {key : Int}
    (hdel : bptreeDelete tree key = some tree') :
    (m key).isSome ∧ Holds tree' (put m key none) := by
  have hspec := h.delete key
  unfold bptreeDelete at hdel
  rw [hdel] at hspec
  exact hspec

theorem holds_stringInsert {tree tree' : BPlusTree Bytes} (h : Holds tree m') {key : Bytes}
    {i : Nat} (hins : bptreeStringInsert tree key i = some tree') :
    m' key = none ∧ Holds tree' (put m' key (some i)) := by
  have hspec := h.insertWith chosenBeforeShift_ok key i
  unfold bptreeStringInsert at hins
  split at hins
  · cases hins
  · rw [hins] at hspec
    exact hspec

theorem holds_stringDelete {tree tree' : BPlusTree Bytes} (h : Holds tree m') {key : Bytes}
    (hdel : bptreeStringDelete tree key = some tree') :
    (m' key).isSome ∧ Holds tree' (put m' key none) := by
  have hspec := h.delete key
  unfold bptreeStringDelete at hdel
  split at hdel
  · cases hdel
  · rw [hdel] at hspec
    exact hspec

theorem holds_bptreeBuild {tree tree' : BPlusTree Int} {pairs : List (Int × Nat)}
    (hbuild : bptreeBuildFromSorted tree pairs = (tree', true)) : Holds tree' (mapOf pairs) := by
  have hspec := Holds.build intSeparator_keeps tree pairs
  unfold bptreeBuildFromSorted at hbuild
  rw [hbuild] at hspec
  exact hspec.2

theorem holds_stringBuild {tree tree' : BPlusTree Bytes} {pairs : List (Bytes × Nat)}
    (hbuild : bptreeStringBuildFromSorted tree pairs = (tree', true)) :
    Holds tree' (mapOf pairs) := by
  have hkeeps : KeepsKeys (id : Option Bytes → Option Bytes) := fun _ => rfl
  have hspec := Holds.build hkeeps tree pairs
  unfold bptreeStringBuildFromSorted at hbuild
  rw [hbuild] at hspec
  exact hspec.2

end Trees

namespace TableCache

variable {tc tc' : TableCache}

theorem slotIsActive_setSlot (i j : Nat) (slot : Slot) :
    (tc.setSlot i slot).slotIsActive j =
      if j = i ∧ i < tc.slots.length then slot.active else tc.slotIsActive j := by
  unfold slotIsActive setSlot
  simp only [List.getElem?_set]
  by_cases hij : i = j
  · subst hij
    by_cases hlt : i < tc.slots.length
    · simp [hlt]
    · simp [hlt]
  · have hji : ¬ j = i := fun h => hij h.symm
    simp [hij, hji]

theorem activeCount_setSlot {i : Nat} {old : Slot} (hi : tc.slots[i]? = some old) (slot : Slot) :
    ((tc.setSlot i slot).activeCount : Int) =
      tc.activeCount - (if old.active then 1 else 0) + (if slot.active then 1 else 0) := by
  obtain ⟨hlt, hget⟩ := List.getElem?_eq_some_iff.1 hi
  have hset := @List.countP_set _ Slot.active tc.slots i slot hlt
  have hpos : old.active = true → 0 < tc.slots.countP Slot.active := fun hold =>
    List.countP_pos_iff.2 ⟨old, List.mem_of_getElem? hi, hold⟩
  unfold activeCount setSlot
  simp only [hset, hget]
  split
  · rename_i hold
    have := hpos hold
    split <;> omega
  · split <;> omega

theorem lt_of_slotIsActive {i : Nat} (h : tc.slotIsActive i = true) : i < tc.slots.length := by
  unfold slotIsActive at h
  by_contra hge
  rw [List.getElem?_eq_none (Nat.le_of_not_lt hge)] at h
  cases h

theorem slotIsActive_append (i : Nat) (slot : Slot) :
    ({ tc with slots := tc.slots ++ [slot] } : TableCache).slotIsActive i =
      if i = tc.slots.length then slot.active else tc.slotIsActive i := by
  unfold slotIsActive
  rw [List.getElem?_append]
  split
  · rename_i hlt
    rw [if_neg (Nat.ne_of_lt hlt)]
  · rename_i hge
    by_cases heq : i = tc.slots.length
    · subst heq
      simp
    · have hlen : tc.slots.length < i := by omega
      rw [if_neg heq, List.getElem?_eq_none (by simp; omega),
        List.getElem?_eq_none (by omega)]

end TableCache

namespace Sound

variable {tc tc' : TableCache}

theorem openTable (file : Bytes) : Sound (openTable file) where
  id := ⟨_, holds_create Int⟩
  uk := by
    intro index hindex
    obtain ⟨col, -, rfl⟩ := List.mem_map.1 hindex
    exact ⟨_, holds_create Bytes⟩
  free := fun i hi => absurd hi List.not_mem_nil
  nodup := List.nodup_nil
  short := Nat.zero_le _
  tally := rfl

theorem setIndex (h : Sound tc) {i : Nat} {index : UniqueIndex} {tree : BPlusTree Bytes}
    (htree : ∃ m, Holds tree m) :
    Sound { tc with ukIndexes := tc.ukIndexes.set i { index with tree := tree } } where
  id := h.id
  uk := by
    intro index' hindex
    obtain hindex | rfl := List.mem_or_eq_of_mem_set hindex
    · exact h.uk index' hindex
    · exact htree
  free := h.free
  nodup := h.nodup
  short := h.short
  tally := h.tally

theorem getElem?_of_free (h : Sound tc) {i : Nat} (hi : i ∈ tc.freeSlots) :
    ∃ slot, tc.slots[i]? = some slot ∧ slot.active = false := by
  obtain ⟨hlt, hidle⟩ := h.free i hi
  refine ⟨tc.slots[i], List.getElem?_eq_getElem hlt, ?_⟩
  unfold TableCache.slotIsActive at hidle
  rw [List.getElem?_eq_getElem hlt] at hidle
  exact hidle

theorem reuse (h : Sound tc) {free : List Nat} {i : Nat} (slot : Slot)
    (hfree : tc.freeSlots = free ++ [i]) :
    Sound
      { tc.setSlot i slot with
        freeSlots := free
        activeTally := tc.activeTally + if slot.active then 1 else 0 } where
  id := h.id
  uk := h.uk
  free := by
    intro j hj
    have hmem : j ∈ tc.freeSlots := by
      rw [hfree]
      exact List.mem_append_left _ hj
    have hne : j ≠ i := by
      rintro rfl
      have hnodup := h.nodup
      rw [hfree] at hnodup
      exact (List.nodup_append.1 hnodup).2.2 j hj j (List.mem_singleton_self j) rfl
    refine ⟨by simpa [TableCache.setSlot] using (h.free j hmem).1, ?_⟩
    change (tc.setSlot i slot).slotIsActive j = false
    rw [TableCache.slotIsActive_setSlot, if_neg fun hji => hne hji.1]
    exact (h.free j hmem).2
  nodup := by
    have hnodup := h.nodup
    rw [hfree] at hnodup
    exact (List.nodup_append.1 hnodup).1
  short := by simpa [TableCache.setSlot] using h.short
  tally := by
    have hmem : i ∈ tc.freeSlots := by
      rw [hfree]
      exact List.mem_append_right free (List.mem_singleton_self i)
    obtain ⟨old, hold, hidle⟩ := h.getElem?_of_free hmem
    have hcount := TableCache.activeCount_setSlot hold slot
    rw [hidle] at hcount
    change tc.activeTally + _ = ((tc.setSlot i slot).activeCount : Int)
    rw [hcount, h.tally]
    simp

theorem release (h : Sound tc) {i : Nat} (hrelease : tc.deactivateSlot i = some tc') :
    Sound tc' := by
  unfold TableCache.deactivateSlot at hrelease
  split at hrelease
  · rename_i hactive
    cases hrelease
    have hfresh : ∀ j ∈ tc.freeSlots, j ≠ i := by
      rintro j hj rfl
      rw [(h.free j hj).2] at hactive
      cases hactive
    have hold : ∃ old, tc.slots[i]? = some old ∧ old.active = true := by
      simpa [TableCache.slotIsActive, Option.any_eq_true] using hactive
    obtain ⟨old, hold, hused⟩ := hold
    have hcount := TableCache.activeCount_setSlot hold {}
    refine ⟨h.id, h.uk, ?_, ?_, by simpa [TableCache.setSlot] using h.short, ?_⟩
    · intro j hj
      refine ⟨?_, ?_⟩
      · obtain hj | hj := List.mem_append.1 hj
        · simpa [TableCache.setSlot] using (h.free j hj).1
        · rw [List.mem_singleton.1 hj]
          simpa [TableCache.setSlot] using TableCache.lt_of_slotIsActive hactive
      · change (tc.setSlot i {}).slotIsActive j = false
        rw [TableCache.slotIsActive_setSlot]
        split
        · rfl
        · rename_i hout
          obtain hj | hj := List.mem_append.1 hj
          · exact (h.free j hj).2
          · exact absurd ⟨List.mem_singleton.1 hj, TableCache.lt_of_slotIsActive hactive⟩ hout
    · refine List.nodup_append.2 ⟨h.nodup, List.nodup_singleton i, ?_⟩
      intro j hj k hk
      rw [List.mem_singleton.1 hk]
      exact hfresh j hj
    · change tc.activeTally - 1 = ((tc.setSlot i {}).activeCount : Int)
      rw [hcount, h.tally, hused]
      simp
  · cases hrelease

theorem grow (h : Sound tc) (slot : Slot) (hroom : tc.slots.length < MAX_RECORDS) :
    Sound
      { tc with
        slots := tc.slots ++ [slot]
        freeSlots := if slot.active then tc.freeSlots else tc.freeSlots ++ [tc.slots.length]
        activeTally := tc.activeTally + if slot.active then 1 else 0 } := by
  have hne : ∀ j ∈ tc.freeSlots, j ≠ tc.slots.length := fun j hj => Nat.ne_of_lt (h.free j hj).1
  have hold : ∀ j ∈ tc.freeSlots, j < (tc.slots ++ [slot]).length ∧
      ({ tc with slots := tc.slots ++ [slot] } : TableCache).slotIsActive j = false := by
    intro j hj
    refine ⟨by simpa using Nat.lt_succ_of_lt (h.free j hj).1, ?_⟩
    rw [TableCache.slotIsActive_append, if_neg (hne j hj)]
    exact (h.free j hj).2
  have hshort : (tc.slots ++ [slot]).length ≤ MAX_RECORDS := by
    rw [List.length_append]
    exact hroom
  have htally : tc.activeTally + (if slot.active then 1 else 0) =
      (({ tc with slots := tc.slots ++ [slot] } : TableCache).activeCount : Int) := by
    unfold TableCache.activeCount
    rw [List.countP_append, List.countP_singleton, h.tally, TableCache.activeCount]
    split
    · simp
    · simp
  cases hactive : slot.active with
  | true =>
      rw [hactive] at htally
      exact ⟨h.id, h.uk, hold, h.nodup, hshort, htally⟩
  | false =>
      rw [hactive] at htally
      refine ⟨h.id, h.uk, ?_, ?_, hshort, htally⟩
      · intro j hj
        obtain hj | hj := List.mem_append.1 hj
        · exact hold j hj
        · rw [List.mem_singleton.1 hj]
          refine ⟨by simp, ?_⟩
          change ({ tc with slots := tc.slots ++ [slot] } : TableCache).slotIsActive _ = false
          rw [TableCache.slotIsActive_append, if_pos rfl]
          exact hactive
      · refine List.nodup_append.2 ⟨h.nodup, List.nodup_singleton _, ?_⟩
        intro j hj k hk
        rw [List.mem_singleton.1 hk]
        exact hne j hj

theorem write (h : Sound tc) {i : Nat} {old slot : Slot} (hi : tc.slots[i]? = some old)
    (hactive : slot.active = old.active) : Sound (tc.setSlot i slot) := by
  have htally : tc.activeTally = ((tc.setSlot i slot).activeCount : Int) := by
    rw [TableCache.activeCount_setSlot hi slot, hactive, h.tally]
    omega
  refine ⟨h.id, h.uk, ?_, h.nodup, by simpa [TableCache.setSlot] using h.short, htally⟩
  intro j hj
  refine ⟨by simpa [TableCache.setSlot] using (h.free j hj).1, ?_⟩
  rw [TableCache.slotIsActive_setSlot]
  split
  · rename_i heq
    have hfree := (h.free j hj).2
    unfold TableCache.slotIsActive at hfree
    rw [heq.1, hi] at hfree
    rw [hactive]
    exact hfree
  · exact (h.free j hj).2

theorem change (h : Sound tc) (hchange : Change tc tc') : Sound tc' := by
  cases hchange with
  | idInsert hins =>
      obtain ⟨m, hm⟩ := h.id
      exact { h with id := ⟨_, (holds_bptreeInsert hm hins).2⟩ }
  | idDelete hdel =>
      obtain ⟨m, hm⟩ := h.id
      exact { h with id := ⟨_, (holds_bptreeDelete hm hdel).2⟩ }
  | idBuild hbuild => exact { h with id := ⟨_, holds_bptreeBuild hbuild⟩ }
  | ukInsert hi hins =>
      obtain ⟨m, hm⟩ := h.uk _ (List.mem_of_getElem? hi)
      exact h.setIndex ⟨_, (holds_stringInsert hm hins).2⟩
  | ukDelete hi hdel =>
      obtain ⟨m, hm⟩ := h.uk _ (List.mem_of_getElem? hi)
      exact h.setIndex ⟨_, (holds_stringDelete hm hdel).2⟩
  | ukBuild hcols hbuild =>
      refine { h with uk := fun index hindex => ?_ }
      obtain ⟨pairs, hpairs⟩ := hbuild index hindex
      exact ⟨_, holds_stringBuild hpairs⟩
  | write hi hactive => exact h.write hi hactive
  | grow slot hroom => exact h.grow slot hroom
  | reuse slot hfree => exact h.reuse slot hfree
  | release hrelease => exact h.release hrelease
  | other _ _ _ _ _ _ _ => exact { h with }

theorem changes (h : Sound tc) (hchanges : Changes tc tc') : Sound tc' := by
  induction hchanges with
  | refl => exact h
  | tail _ hstep ih => exact ih.change hstep

end Sound

theorem Sound.indexesExact {tc : TableCache} (h : Sound tc)
    (hcols : tc.ukIndexes.map UniqueIndex.colIdx = tc.schema.ukIndices)
    (hid : tc.idPairs = some tc.idIndex.toList)
    (huk : ∀ index ∈ tc.ukIndexes, (tc.ukPairs index.colIdx).Perm index.tree.toList) :
    tc.IndexesExact where
  id := by
    obtain ⟨m, hm⟩ := h.id
    refine ⟨m, hm.isMap, fun id i => ?_⟩
    rw [← hm.mem_iff, TableCache.mem_idPairs hid]
  cols := hcols
  uk := by
    intro index hindex
    obtain ⟨m, hm⟩ := h.uk index hindex
    refine ⟨m, hm.isMap, fun key i => ?_⟩
    rw [← hm.mem_iff, ← (huk index hindex).mem_iff, TableCache.mem_ukPairs]

/-! ## The operations of the executor -/

namespace Changes

variable {tc tc' : TableCache}

theorem one (h : Change tc tc') : Changes tc tc' := Relation.ReflTransGen.single h

theorem trans {tc'' : TableCache} (h : Changes tc tc') (h' : Changes tc' tc'') :
    Changes tc tc'' := Relation.ReflTransGen.trans h h'

theorem rebuildIdIndex (h : tc.rebuildIdIndex = some tc') : Changes tc tc' := by
  unfold TableCache.rebuildIdIndex at h
  split at h
  · cases h
  · split at h
    · cases h
    · rename_i tree hbuild
      cases h
      exact (one (.idBuild hbuild)).trans (one (.other ..))

theorem rebuildUkIndexes (h : tc.rebuildUkIndexes = some tc') : Changes tc tc' := by
  unfold TableCache.rebuildUkIndexes at h
  obtain ⟨indexes, hbuilt, rfl⟩ := Option.map_eq_some_iff.1 h
  have hmap := mapM_eq_some.1 hbuilt
  refine one (.ukBuild ?_ ?_)
  · refine List.ext_getElem? fun i => ?_
    have hi := congrArg (·[i]?) hmap
    simp only [List.getElem?_map] at hi ⊢
    cases hold : tc.ukIndexes[i]? with
    | none =>
        rw [hold, Option.map_none] at hi
        rw [Option.map_eq_none_iff.1 hi.symm]
    | some old =>
        rw [hold, Option.map_some] at hi
        obtain ⟨index, hindex, hsome⟩ := Option.map_eq_some_iff.1 hi.symm
        rw [hindex]
        split at hsome
        · cases hsome
        · cases hsome
          rfl
  · intro index hindex
    have hsome : some index ∈ indexes.map some := List.mem_map_of_mem hindex
    rw [← hmap] at hsome
    obtain ⟨old, -, hold⟩ := List.mem_map.1 hsome
    split at hold
    · cases hold
    · rename_i tree htree
      cases hold
      exact ⟨_, htree⟩

theorem insertUkKey {i : Nat} {index : UniqueIndex} (hi : tc.ukIndexes[i]? = some index)
    (key : Bytes) (slotId : Nat) : Changes tc (tc.insertUkKey i index key slotId).1 := by
  unfold TableCache.insertUkKey
  split
  · have hset : tc.ukIndexes.set i index = tc.ukIndexes := by
      obtain ⟨hlt, rfl⟩ := List.getElem?_eq_some_iff.1 hi
      exact List.set_getElem_self hlt
    rw [hset]
    exact Relation.ReflTransGen.refl
  · rename_i tree htree
    exact one (.ukInsert hi htree)

theorem insertUkKey_after {i : Nat} {index : UniqueIndex} {tree : BPlusTree Bytes}
    (hi : tc.ukIndexes[i]? = some index) (key : Bytes) (slotId : Nat)
    (hfirst : Changes tc { tc with ukIndexes := tc.ukIndexes.set i { index with tree := tree } }) :
    Changes tc (tc.insertUkKey i { index with tree := tree } key slotId).1 := by
  have hlt := (List.getElem?_eq_some_iff.1 hi).1
  have hsecond := @insertUkKey
    { tc with ukIndexes := tc.ukIndexes.set i { index with tree := tree } } i
    { index with tree := tree } (List.getElem?_set_self hlt) key slotId
  refine hfirst.trans ?_
  unfold TableCache.insertUkKey at hsecond ⊢
  simpa only [List.set_set] using hsecond

theorem uniqueIndexInsert (i : Nat) (key : Bytes) (slotId : Nat) :
    Changes tc (tc.uniqueIndexInsert i key slotId).1 := by
  unfold TableCache.uniqueIndexInsert
  split
  · exact Relation.ReflTransGen.refl
  · rename_i index hi
    split
    · exact Relation.ReflTransGen.refl
    · split
      · exact insertUkKey hi key slotId
      · split
        · exact Relation.ReflTransGen.refl
        · split
          · rename_i tree htree
            exact insertUkKey_after hi key slotId (one (.ukDelete hi htree))
          · split
            · exact Relation.ReflTransGen.refl
            · rename_i tc' hrebuild
              have hfirst := rebuildUkIndexes hrebuild
              split
              · exact hfirst
              · rename_i index' hi'
                exact hfirst.trans (insertUkKey hi' key slotId)

theorem indexRecordUksFromRow (row : Bytes) (slotId : Nat) :
    Changes tc (tc.indexRecordUksFromRow row slotId).1 := by
  have hfold : ∀ (l : List Nat) (state : TableCache × Bool), Changes state.1
      (l.foldl (TableCache.ukRound row slotId) state).1 := by
    intro l
    induction l with
    | nil => exact fun _ => Relation.ReflTransGen.refl
    | cons i l ih =>
        intro state
        rw [List.foldl_cons]
        refine trans ?_ (ih _)
        unfold TableCache.ukRound
        split
        · exact uniqueIndexInsert i _ slotId
        · exact Relation.ReflTransGen.refl
  exact hfold _ (tc, true)

theorem indexRecordUks (slotId : Nat) : Changes tc (tc.indexRecordUks slotId).1 := by
  unfold TableCache.indexRecordUks
  split
  · exact Relation.ReflTransGen.refl
  · exact indexRecordUksFromRow _ slotId

theorem restoreRecordIndexes (slotId : Nat) : Changes tc (tc.restoreRecordIndexes slotId).1 := by
  unfold TableCache.restoreRecordIndexes
  split
  · exact Relation.ReflTransGen.refl
  · split
    · exact Relation.ReflTransGen.refl
    · rename_i tree htree
      exact (one (.idInsert htree)).trans (indexRecordUks slotId)

theorem removeUkKeys (row : Bytes) : ∀ (indexes : List UniqueIndex) {tc : TableCache}
    {done : List UniqueIndex}, tc.ukIndexes = done ++ indexes →
      Changes tc { tc with ukIndexes := done ++ (TableCache.removeUkKeys row indexes).1 }
  | [], tc, done, hsplit => by
      have htc : ({ tc with ukIndexes := done ++ [] } : TableCache) = tc := by
        rw [← hsplit]
      rw [TableCache.removeUkKeys]
      exact htc ▸ Relation.ReflTransGen.refl
  | index :: rest, tc, done, hsplit => by
      rw [TableCache.removeUkKeys]
      simp only
      split
      · have hrest := @removeUkKeys row rest tc (done ++ [index]) (by simpa using hsplit)
        simpa only [List.append_assoc, List.singleton_append] using hrest
      · split
        · rw [← hsplit]
          exact Relation.ReflTransGen.refl
        · rename_i tree htree
          have hi : tc.ukIndexes[done.length]? = some index := by simp [hsplit]
          have hset : tc.ukIndexes.set done.length { index with tree := tree } =
              (done ++ [{ index with tree := tree }]) ++ rest := by
            simp [hsplit]
          have hfirst := one (.ukDelete hi htree)
          rw [hset] at hfirst
          have hrest := @removeUkKeys row rest
            { tc with ukIndexes := (done ++ [{ index with tree := tree }]) ++ rest } _ rfl
          refine hfirst.trans ?_
          simpa only [List.append_assoc, List.singleton_append] using hrest

theorem removeRecordIndexes (slotId : Nat) (row : Bytes) :
    Changes tc (tc.removeRecordIndexes slotId row).1 := by
  unfold TableCache.removeRecordIndexes
  split
  · exact Relation.ReflTransGen.refl
  · split
    · exact Relation.ReflTransGen.refl
    · rename_i tree htree
      exact (one (.idDelete htree)).trans (@removeUkKeys row tc.ukIndexes _ [] rfl)

theorem succeeded {result : TableCache × Bool} (h : TableCache.succeeded result = some tc') :
    result.1 = tc' := by
  obtain ⟨tc, ok⟩ := result
  cases ok with
  | true => exact Option.some.inj h
  | false => cases h

theorem dropOldRow {slotId : Nat} (h : tc.dropOldRow slotId = some tc') : Changes tc tc' := by
  unfold TableCache.dropOldRow at h
  split at h
  · cases h
    exact Relation.ReflTransGen.refl
  · rw [← succeeded h]
    exact removeRecordIndexes slotId _

theorem replaceRecordAt {slotId : Nat} {row : Bytes}
    (h : tc.replaceRecordAt slotId row = some tc') : Changes tc tc' := by
  unfold TableCache.replaceRecordAt at h
  split at h
  · rename_i slot hslot
    split at h
    · cases h
      exact one (.write hslot rfl)
    · cases h
  · cases h

theorem applyDeltaOp {op : DeltaOp} (h : tc.applyDeltaOp op = some tc') : Changes tc tc' := by
  cases op with
  | update key row =>
      simp only [TableCache.applyDeltaOp] at h
      split at h
      · cases h
        exact Relation.ReflTransGen.refl
      · obtain ⟨tc₁, hdrop, h⟩ := Option.bind_eq_some_iff.1 h
        obtain ⟨tc₂, hreplace, h⟩ := Option.bind_eq_some_iff.1 h
        rw [← succeeded h]
        exact (dropOldRow hdrop).trans ((replaceRecordAt hreplace).trans (restoreRecordIndexes _))
  | delete key =>
      simp only [TableCache.applyDeltaOp] at h
      split at h
      · cases h
        exact Relation.ReflTransGen.refl
      · obtain ⟨tc₁, hdrop, h⟩ := Option.bind_eq_some_iff.1 h
        exact (dropOldRow hdrop).trans (one (.release h))

theorem applyDeltaOps : ∀ {ops : List DeltaOp} {tc : TableCache},
    tc.applyDeltaOps ops = some tc' → Changes tc tc'
  | [], tc, h => by
      cases h
      exact Relation.ReflTransGen.refl
  | op :: ops, tc, h => by
      simp only [TableCache.applyDeltaOps, List.foldlM_cons] at h
      obtain ⟨tc₁, hop, h⟩ := Option.bind_eq_some_iff.1 h
      exact (applyDeltaOp hop).trans (applyDeltaOps h)

theorem indexLoadedRow {key : Int} {row : Bytes} {slotId : Nat}
    (h : tc.indexLoadedRow key row slotId = some tc') : Changes tc tc' := by
  unfold TableCache.indexLoadedRow at h
  split at h
  · cases h
  · rename_i tree htree
    rw [← succeeded h]
    exact (one (.idInsert htree)).trans (indexRecordUksFromRow row slotId)

theorem appendRecordRawMemory {rowId : Int} {offset : Nat}
    (h : tc.appendRecordRawMemory rowId offset = some tc') : Changes tc tc' := by
  unfold TableCache.appendRecordRawMemory at h
  split at h
  · cases h
  · rename_i hroom
    cases h
    exact one (.grow { active := true, rowId := rowId, store := .csv, offset := offset }
      (Nat.lt_of_not_le hroom))

theorem scanRow {hasDelta : Bool} {key : Int} {row : Bytes} {offset : Nat}
    (h : tc.scanRow hasDelta key row offset = some tc') : Changes tc tc' := by
  unfold TableCache.scanRow at h
  simp only at h
  split at h
  · obtain ⟨tc₁, happend, h⟩ := Option.bind_eq_some_iff.1 h
    have hfirst : Changes tc tc₁ := (one (.other ..)).trans (appendRecordRawMemory happend)
    split at h
    · cases h
      exact hfirst
    · exact hfirst.trans (indexLoadedRow h)
  · cases h
    exact one (.other ..)

theorem scanLines {hasDelta : Bool} : ∀ {lines : List Bytes} {scan scan' : Scan},
    lines.foldlM (scanLine hasDelta) scan = some scan' → Changes scan.tc scan'.tc
  | [], scan, scan', h => by
      cases h
      exact Relation.ReflTransGen.refl
  | line :: lines, scan, scan', h => by
      rw [List.foldlM_cons] at h
      obtain ⟨scan₁, hline, h⟩ := Option.bind_eq_some_iff.1 h
      refine trans ?_ (scanLines h)
      unfold scanLine at hline
      obtain ⟨row, -, hline⟩ := Option.bind_eq_some_iff.1 hline
      split at hline
      · cases hline
        exact Relation.ReflTransGen.refl
      · obtain ⟨key, -, hline⟩ := Option.bind_eq_some_iff.1 hline
        obtain ⟨tc, hrow, hline⟩ := Option.bind_eq_some_iff.1 hline
        cases hline
        exact scanRow hrow

theorem replayLines : ∀ {lines : List Bytes} {state state' : ReplayState TableCache},
    lines.foldlM (replayRound TableCache.applyDeltaOps) state = some state' →
      Changes state.1 state'.1
  | [], state, state', h => by
      cases h
      exact Relation.ReflTransGen.refl
  | line :: lines, (tc, batch), state', h => by
      rw [List.foldlM_cons] at h
      obtain ⟨⟨tc₁, batch₁⟩, hround, h⟩ := Option.bind_eq_some_iff.1 h
      refine trans ?_ (replayLines h)
      unfold replayRound at hround
      obtain ⟨text, -, hround⟩ := Option.bind_eq_some_iff.1 hround
      simp only [replayLine] at hround
      split at hround
      · cases hround
        exact Relation.ReflTransGen.refl
      · split at hround
        · split at hround
          · cases hround
            exact Relation.ReflTransGen.refl
          · obtain ⟨tc₂, hops, heq⟩ := Option.map_eq_some_iff.1 hround
            cases heq
            exact applyDeltaOps hops
        · split at hround
          · cases hround
            exact Relation.ReflTransGen.refl
          · cases hround
            exact Relation.ReflTransGen.refl

theorem loadTableContents {file : Bytes} {delta : Option Bytes}
    (h : loadTableContents file delta = some tc) : Changes (openTable file) tc := by
  unfold Legacy.loadTableContents at h
  obtain ⟨scan, hscan, h⟩ := Option.bind_eq_some_iff.1 h
  have hfirst : Changes (openTable file) scan.tc := scanLines hscan
  refine hfirst.trans ?_
  split at h
  · cases h
    exact one (.other ..)
  · split at h
    · cases h
      exact one (.other ..)
    · obtain ⟨tc₁, hreplay, h⟩ := Option.bind_eq_some_iff.1 h
      obtain ⟨tc₂, hid, h⟩ := Option.bind_eq_some_iff.1 h
      obtain ⟨tc₃, huk, h⟩ := Option.bind_eq_some_iff.1 h
      cases h
      obtain ⟨state, hstate, rfl⟩ := Option.map_eq_some_iff.1 hreplay
      exact (replayLines hstate).trans ((rebuildIdIndex hid).trans
        ((rebuildUkIndexes huk).trans (one (.other ..))))

theorem placeRow {taken : TableCache} {slotId : Nat} (h : tc.takeRecordSlot = some (slotId, taken))
    (offset : Nat) : Changes tc (taken.placeRow slotId offset) := by
  unfold TableCache.takeRecordSlot at h
  split at h
  · rename_i i hlast
    cases h
    obtain ⟨free, hfree⟩ := List.getLast?_eq_some_iff.1 hlast
    have hdrop : tc.freeSlots = tc.freeSlots.dropLast ++ [slotId] := by
      rw [hfree, List.dropLast_concat]
    let slot : Slot := { active := true, rowId := tc.nextRowId, store := .csv, offset := offset }
    exact (one (.reuse slot hdrop)).trans (one (.other ..))
  · split at h
    · cases h
    · rename_i hroom
      cases h
      let slot : Slot := { active := true, rowId := tc.nextRowId, store := .csv, offset := offset }
      have hgrow := (one (.grow slot (Nat.lt_of_not_le hroom))).trans
        (one (.other tc.file tc.tail tc.uncachedStart tc.nextAutoId (tc.nextRowId + 1) tc.evicted
          tc.writePos))
      have hset : (tc.slots ++ [({} : Slot)]).set tc.slots.length slot = tc.slots ++ [slot] := by
        simp
      unfold TableCache.placeRow TableCache.setSlot
      rw [hset]
      exact hgrow

theorem clearIdKey (key : Int) (slotId : Nat) : Changes tc (tc.clearIdKey key slotId).1 := by
  unfold TableCache.clearIdKey
  split
  · exact Relation.ReflTransGen.refl
  · split
    · exact Relation.ReflTransGen.refl
    · split
      · rename_i tree htree
        exact one (.idDelete htree)
      · split
        · rename_i tc' hrebuild
          exact rebuildIdIndex hrebuild
        · exact Relation.ReflTransGen.refl

theorem enterRow (key : Int) (row : Bytes) (slotId : Nat) :
    Changes tc (tc.enterRow key row slotId).1 := by
  unfold TableCache.enterRow
  split
  · exact Relation.ReflTransGen.refl
  · rename_i tree htree
    exact (one (.idInsert htree)).trans (indexRecordUksFromRow row slotId)

theorem abandonSlot (slotId : Nat) : Changes tc (tc.abandonSlot slotId) := by
  unfold TableCache.abandonSlot
  cases hrelease : tc.deactivateSlot slotId with
  | none => exact Relation.ReflTransGen.refl
  | some tc' => exact one (.release hrelease)

theorem appendRecordCsvIndexed (row : Bytes) (key : Int) (offset : Nat) :
    Changes tc (tc.appendRecordCsvIndexed row key offset).1 := by
  unfold TableCache.appendRecordCsvIndexed
  split
  · exact Relation.ReflTransGen.refl
  · rename_i slotId taken htake
    refine (placeRow htake offset).trans ?_
    have hclear := @clearIdKey (taken.placeRow slotId offset) (tc.newKey key) slotId
    split
    · rename_i tc' hresult
      rw [hresult] at hclear
      exact hclear.trans (abandonSlot slotId)
    · rename_i tc' hresult
      rw [hresult] at hclear
      refine hclear.trans ?_
      have henter := @enterRow tc' (tc.newKey key) row slotId
      split
      · rename_i tc'' hentered
        rw [hentered] at henter
        exact henter.trans (abandonSlot slotId)
      · rename_i tc'' hentered
        rw [hentered] at henter
        exact henter.trans (one (.other ..))

theorem appendRecordFile (row : Bytes) : Changes tc (tc.appendRecordFile row) := by
  unfold TableCache.appendRecordFile
  split <;> exact one (.other ..)

theorem appendTail (row : Bytes) (id : Int) : Changes tc (tc.appendTail row id) :=
  (appendRecordFile row).trans (one (.other ..))

theorem soughtFor (line : Bytes) : Changes tc (tc.soughtFor line) := by
  unfold TableCache.soughtFor
  split
  · exact one (.other ..)
  · exact Relation.ReflTransGen.refl

theorem insertBuilt (key : Int) (line : Bytes) : Changes tc (tc.insertBuilt key line).1 := by
  unfold TableCache.insertBuilt
  split
  · exact Relation.ReflTransGen.refl
  · split
    · have happend := @appendRecordCsvIndexed tc line key tc.appendOffset
      split
      · rename_i tc' hresult
        rw [hresult] at happend
        exact happend
      · rename_i tc' hresult
        rw [hresult] at happend
        exact happend.trans (appendRecordFile line)
    · exact appendTail line key

end Changes

theorem Reachable.sound {tc : TableCache} (h : Reachable tc) : Sound tc := by
  obtain ⟨file, hchanges⟩ := h
  exact (Sound.openTable file).changes hchanges

theorem Reachable.load {tc : TableCache} {file : Bytes} {delta : Option Bytes}
    (h : loadTableContents file delta = some tc) : Reachable tc :=
  ⟨file, Changes.loadTableContents h⟩

theorem Reachable.insert {tc tc' : TableCache} (h : Reachable tc) {hasDelta : Bool}
    {rowData : Bytes} (hinsert : (tc.insertRowData hasDelta rowData).1 = some tc') :
    Reachable tc' := by
  obtain ⟨file, hfile⟩ := h
  unfold TableCache.insertRowData at hinsert
  split at hinsert
  · cases hinsert
    exact ⟨file, hfile⟩
  · split at hinsert
    · split at hinsert
      · cases hinsert
        exact ⟨file, hfile.trans (Changes.one (.other ..))⟩
      · split at hinsert
        · cases hinsert
        · rename_i hload
          cases hinsert
          have hloaded := Changes.loadTableContents hload
          exact ⟨_, (hloaded.trans (Changes.soughtFor _)).trans (Changes.insertBuilt _ _)⟩
    · cases hinsert
      exact ⟨file, (hfile.trans (Changes.soughtFor _)).trans (Changes.insertBuilt _ _)⟩

end MiniDbms.Legacy
