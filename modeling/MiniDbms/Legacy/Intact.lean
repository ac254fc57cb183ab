import MiniDbms.Legacy.Frame
import MiniDbms.Legacy.Reach

/-!
# What a rejected INSERT leaves behind

The row is in a slot and in the id index before its UK entries are made, and a row that
is given up there only gives back its slot.
-/

namespace MiniDbms.Legacy

open Bptree

/-- The slots with their rows, the indexes as maps, and the file are the same. -/
structure SameAs (tc tc' : TableCache) : Prop where
  active : ∀ i, tc'.slotIsActive i = tc.slotIsActive i
  rows : ∀ i, tc'.slotRow i = tc.slotRow i
  id : ∀ key, search tc'.idIndex key = search tc.idIndex key
  uk : ∀ i key, tc'.ukSearch i key = tc.ukSearch i key
  file : tc'.file = tc.file

namespace TableCache

variable (tc : TableCache)

/-- The slot of the next row. -/
def newSlot : Nat := tc.freeSlots.getLast?.getD tc.slots.length

/-- The key of a row in the `i`-th UK index, as it is read back from the line. -/
def ukEntry (row : Bytes) (i : Nat) : Bytes :=
  ((tc.ukIndexes[i]?).map fun index => ukKey row index.colIdx).getD []

/-- The entry of an active row of another slot is in the way. -/
def Clash (row : Bytes) (slotId i : Nat) : Prop :=
  tc.ukEntry row i ≠ [] ∧
    ∃ other, tc.ukSearch i (tc.ukEntry row i) = some other ∧ other ≠ slotId ∧
      tc.slotIsActive other = true

/-- The id index has no active row of another slot for the key. -/
def KeyFree (key : Int) (slotId : Nat) : Prop :=
  ∀ other, search tc.idIndex key = some other → other = slotId ∨ tc.slotIsActive other = false

/-- A UK column clashes, and an entry that the id index or an earlier UK index gets before
that is a new one. -/
def LeavesEntries (id : Int) (line : Bytes) : Prop :=
  (tc.uncachedStart = none ∧ tc.activeCount < MAX_RECORDS ∧ tc.newSlot < MAX_RECORDS) ∧
    tc.KeyFree (tc.newKey id) tc.newSlot ∧
      ∃ j, tc.Clash line tc.newSlot j ∧ (∀ i < j, ¬ tc.Clash line tc.newSlot i) ∧
        (search tc.idIndex (tc.newKey id) ≠ some tc.newSlot ∨
          ∃ i < j, tc.ukEntry line i ≠ [] ∧ tc.ukSearch i (tc.ukEntry line i) ≠ some tc.newSlot)

end TableCache

/-! ## The UK entries of a row -/

theorem put_put {α ν : Type} [LinearOrder α] (m : α → Option ν) (k : α) (v w : Option ν) :
    put (put m k v) k w = put m k w := by
  funext x
  by_cases hx : x = k
  · rw [hx, put_self, put_self]
  · rw [put_of_ne hx, put_of_ne hx, put_of_ne hx]

namespace TableCache

variable {tc : TableCache}

theorem insertUkKey_spec {i : Nat} {index : UniqueIndex} {m : Bytes → Option Nat}
    (hm : Holds index.tree m) {key : Bytes} (hkey : key ≠ []) (habsent : m key = none)
    (slotId : Nat) : ∃ tree, Holds tree (put m key (some slotId)) ∧
      tc.insertUkKey i index key slotId =
        ({ tc with ukIndexes := tc.ukIndexes.set i { index with tree := tree } }, true) := by
  have hspec := hm.insertWith chosenBeforeShift_ok key slotId
  unfold insertUkKey bptreeStringInsert
  rw [if_neg hkey]
  cases hins : insertWith chosenBeforeShift index.tree key slotId with
  | none =>
      rw [hins] at hspec
      rw [habsent] at hspec
      cases hspec
  | some tree =>
      rw [hins] at hspec
      exact ⟨tree, hspec.2, rfl⟩

theorem uniqueIndexInsert_spec {i : Nat} {index : UniqueIndex} {m : Bytes → Option Nat}
    (hi : tc.ukIndexes[i]? = some index) (hm : Holds index.tree m) {key : Bytes} (hkey : key ≠ [])
    (slotId : Nat) :
    ((∃ other, m key = some other ∧ other ≠ slotId ∧ tc.slotIsActive other = true) ∧
        tc.uniqueIndexInsert i key slotId = (tc, false)) ∨
      ((¬ ∃ other, m key = some other ∧ other ≠ slotId ∧ tc.slotIsActive other = true) ∧
        ∃ tree, Holds tree (put m key (some slotId)) ∧ tc.uniqueIndexInsert i key slotId =
          ({ tc with ukIndexes := tc.ukIndexes.set i { index with tree := tree } }, true)) := by
  unfold uniqueIndexInsert
  rw [hi]
  simp only [if_neg hkey, hm.search_eq]
  cases hold : m key with
  | none =>
      obtain ⟨tree, htree, hins⟩ := @insertUkKey_spec tc i index m hm key hkey hold slotId
      exact Or.inr ⟨by simp, tree, htree, hins⟩
  | some existing =>
      simp only
      by_cases hclash : existing ≠ slotId ∧ tc.slotIsActive existing = true
      · rw [if_pos hclash]
        exact Or.inl ⟨⟨existing, rfl, hclash⟩, rfl⟩
      · rw [if_neg hclash]
        refine Or.inr ⟨?_, ?_⟩
        · rintro ⟨other, heq, hother⟩
          cases heq
          exact hclash hother
        · cases hdel : bptreeStringDelete index.tree key with
          | none =>
              have hspec := hm.delete key
              unfold bptreeStringDelete at hdel
              rw [if_neg hkey] at hdel
              rw [hdel, hold] at hspec
              cases hspec
          | some tree =>
              have htree := (holds_stringDelete hm hdel).2
              obtain ⟨tree', htree', hins⟩ := @insertUkKey_spec tc i { index with tree := tree } _
                htree key hkey (put_self m key none) slotId
              rw [put_put] at htree'
              exact ⟨tree', htree', hins⟩

/-- The entries of the first `j` UK columns have been made. -/
structure EnteredTo (tc : TableCache) (row : Bytes) (slotId j : Nat) (tc' : TableCache) : Prop where
  rest : tc' = { tc with ukIndexes := tc'.ukIndexes }
  cols : ∀ i : Nat, (tc'.ukIndexes[i]?).map UniqueIndex.colIdx =
    (tc.ukIndexes[i]?).map UniqueIndex.colIdx
  trees : ∀ index ∈ tc'.ukIndexes, ∃ m, Holds index.tree m
  search : ∀ i key, tc'.ukSearch i key =
    if i < j ∧ key = tc.ukEntry row i ∧ key ≠ [] then some slotId else tc.ukSearch i key

namespace EnteredTo

variable {tc' : TableCache} {row : Bytes} {slotId j : Nat}

theorem start (h : ∀ index ∈ tc.ukIndexes, ∃ m, Holds index.tree m) (row : Bytes) (slotId : Nat) :
    EnteredTo tc row slotId 0 tc where
  rest := rfl
  cols := fun _ => rfl
  trees := h
  search := by simp

theorem active (h : EnteredTo tc row slotId j tc') (i : Nat) :
    tc'.slotIsActive i = tc.slotIsActive i := by
  rw [h.rest]
  rfl

theorem step (h : EnteredTo tc row slotId j tc') {index : UniqueIndex}
    (hi : tc'.ukIndexes[j]? = some index) :
    (tc.Clash row slotId j ∧
        tc'.uniqueIndexInsert j (ukKey row index.colIdx) slotId = (tc', false)) ∨
      (¬ tc.Clash row slotId j ∧ ∃ tc'',
        tc'.uniqueIndexInsert j (ukKey row index.colIdx) slotId = (tc'', true) ∧
          EnteredTo tc row slotId (j + 1) tc'') := by
  have hentry : tc.ukEntry row j = ukKey row index.colIdx := by
    have hcol := h.cols j
    rw [hi, Option.map_some] at hcol
    obtain ⟨old, hold, heq⟩ := Option.map_eq_some_iff.1 hcol.symm
    unfold ukEntry
    rw [hold, Option.map_some, Option.getD_some, heq]
  have hsame : ∀ key, tc'.ukSearch j key = tc.ukSearch j key := fun key => by
    rw [h.search, if_neg fun hlt => lt_irrefl j hlt.1]
  obtain ⟨m, hm⟩ := h.trees index (List.mem_of_getElem? hi)
  have hmap : ∀ key, tc.ukSearch j key = m key := by
    intro key
    rw [← hsame]
    unfold ukSearch
    rw [hi, Option.bind_some, hm.search_eq]
  by_cases hkey : ukKey row index.colIdx = []
  · refine Or.inr ⟨fun hclash => hclash.1 (hentry.trans hkey), tc', ?_, h.rest, h.cols, h.trees, ?_⟩
    · unfold uniqueIndexInsert
      rw [hi]
      simp only [if_pos hkey]
    · intro i key
      rw [h.search]
      refine if_congr ⟨fun hc => ⟨Nat.lt_succ_of_lt hc.1, hc.2⟩, fun hc => ⟨?_, hc.2⟩⟩ rfl rfl
      refine lt_of_le_of_ne (Nat.le_of_lt_succ hc.1) ?_
      rintro rfl
      exact hc.2.2 (hc.2.1.trans (hentry.trans hkey))
  · have hclash : tc.Clash row slotId j ↔
        ∃ other, m (ukKey row index.colIdx) = some other ∧ other ≠ slotId ∧
          tc'.slotIsActive other = true := by
      unfold Clash
      rw [hentry, hmap]
      simp only [h.active]
      exact and_iff_right hkey
    rw [hclash]
    obtain ⟨hc, heq⟩ | ⟨hc, tree, htree, heq⟩ := uniqueIndexInsert_spec hi hm hkey slotId
    · exact Or.inl ⟨hc, heq⟩
    · refine Or.inr ⟨hc, _, heq, ?_, ?_, ?_, ?_⟩
      · rw [h.rest]
      · intro i
        rw [← h.cols i]
        simp only [List.getElem?_set]
        split
        · rename_i heq
          subst heq
          have hlt := (List.getElem?_eq_some_iff.1 hi).1
          rw [if_pos hlt, hi]
          rfl
        · rfl
      · intro index' hindex
        obtain hindex | rfl := List.mem_or_eq_of_mem_set hindex
        · exact h.trees index' hindex
        · exact ⟨_, htree⟩
      · intro i key
        by_cases hij : i = j
        · subst hij
          have hlt := (List.getElem?_eq_some_iff.1 hi).1
          unfold ukSearch at hmap ⊢
          simp only [List.getElem?_set_self hlt, Option.bind_some, htree.search_eq]
          rw [hmap, hentry]
          by_cases heq : key = ukKey row index.colIdx
          · subst heq
            rw [put_self, if_pos ⟨Nat.lt_succ_self _, rfl, hkey⟩]
          · rw [put_of_ne heq, if_neg fun hc => heq hc.2.1]
        · have hother : (tc'.ukIndexes.set j { index with tree := tree })[i]? = tc'.ukIndexes[i]? :=
            List.getElem?_set_ne fun heq => hij heq.symm
          have hsearch := h.search i key
          unfold ukSearch at hsearch ⊢
          simp only [hother]
          rw [hsearch]
          refine if_congr ⟨fun hc => ⟨Nat.lt_succ_of_lt hc.1, hc.2⟩, fun hc => ⟨?_, hc.2⟩⟩ rfl rfl
          exact lt_of_le_of_ne (Nat.le_of_lt_succ hc.1) hij

end EnteredTo

/-- The loop ends behind the last UK column or at the first that clashes. -/
theorem indexRecordUksFromRow_spec (h : ∀ index ∈ tc.ukIndexes, ∃ m, Holds index.tree m)
    (row : Bytes) (slotId : Nat) :
    ∃ j tc', EnteredTo tc row slotId j tc' ∧ (∀ i < j, ¬ tc.Clash row slotId i) ∧
      ((tc.indexRecordUksFromRow row slotId = (tc', true) ∧ tc.ukIndexes.length ≤ j ∧
          ∀ i, ¬ tc.Clash row slotId i) ∨
        (tc.indexRecordUksFromRow row slotId = (tc', false) ∧ tc.Clash row slotId j)) := by
  have hloop : ∀ k, k ≤ tc.ukIndexes.length →
      ∃ j tc', EnteredTo tc row slotId j tc' ∧ (∀ i < j, ¬ tc.Clash row slotId i) ∧
        (((List.range k).foldl (ukRound row slotId) (tc, true) = (tc', true) ∧ j = k) ∨
          ((List.range k).foldl (ukRound row slotId) (tc, true) = (tc', false) ∧
            tc.Clash row slotId j)) := by
    intro k
    induction k with
    | zero =>
        intro _
        exact ⟨0, tc, EnteredTo.start h row slotId, fun i hi => absurd hi (Nat.not_lt_zero i),
          Or.inl ⟨rfl, rfl⟩⟩
    | succ k ih =>
        intro hk
        obtain ⟨j, tc', hentered, hbefore, ⟨hfold, rfl⟩ | ⟨hfold, hclash⟩⟩ := ih (by omega)
        · have hlen : j < tc'.ukIndexes.length := by
            have hcol := hentered.cols j
            rw [List.getElem?_eq_getElem (by omega : j < tc.ukIndexes.length)] at hcol
            obtain ⟨index, hindex, -⟩ := Option.map_eq_some_iff.1 hcol
            exact (List.getElem?_eq_some_iff.1 hindex).1
          have hi := List.getElem?_eq_getElem hlen
          rw [List.range_succ, List.foldl_append, hfold, List.foldl_cons, List.foldl_nil,
            ukRound_some tc' row slotId hi]
          obtain ⟨hclash, heq⟩ | ⟨hfree, tc'', heq, hnext⟩ := hentered.step hi
          · exact ⟨j, tc', hentered, hbefore, Or.inr ⟨heq, hclash⟩⟩
          · refine ⟨j + 1, tc'', hnext, fun i hij => ?_, Or.inl ⟨heq, rfl⟩⟩
            obtain hlt | rfl := Nat.lt_succ_iff_lt_or_eq.1 hij
            · exact hbefore i hlt
            · exact hfree
        · rw [List.range_succ, List.foldl_append, hfold, List.foldl_cons, List.foldl_nil]
          exact ⟨j, tc', hentered, hbefore, Or.inr ⟨rfl, hclash⟩⟩
  obtain ⟨j, tc', hentered, hbefore, ⟨hfold, hj⟩ | ⟨hfold, hclash⟩⟩ := hloop _ le_rfl
  · refine ⟨j, tc', hentered, hbefore, Or.inl ⟨hfold, hj.ge, fun i hclash => ?_⟩⟩
    by_cases hi : i < j
    · exact hbefore i hi hclash
    · refine hclash.1 ?_
      unfold ukEntry
      rw [List.getElem?_eq_none (by omega)]
      rfl
  · exact ⟨j, tc', hentered, hbefore, Or.inr ⟨hfold, hclash⟩⟩

/-! ## The slot -/

theorem slotRow_setSlot (i j : Nat) (slot : Slot) :
    (tc.setSlot i slot).slotRow j =
      if j = i ∧ i < tc.slots.length then slot.row tc.file else tc.slotRow j := by
  unfold slotRow setSlot
  simp only [List.getElem?_set]
  by_cases hij : i = j
  · subst hij
    by_cases hlt : i < tc.slots.length
    · simp [hlt]
    · simp [hlt]
  · have hji : ¬ j = i := fun h => hij h.symm
    simp [hij, hji]

theorem slotRow_of_inactive {i : Nat} (h : tc.slotIsActive i = false) : tc.slotRow i = none := by
  cases hrow : tc.slotRow i with
  | none => rfl
  | some row =>
      rw [slotIsActive_of_row hrow] at h
      cases h

/-- A slot is taken that is not active; nothing else is different. -/
structure Taken (tc : TableCache) (slotId : Nat) (taken : TableCache) : Prop where
  slot : slotId = tc.newSlot
  room : slotId < MAX_RECORDS
  inactive : tc.slotIsActive slotId = false
  inside : slotId < taken.slots.length
  active : ∀ i, taken.slotIsActive i = tc.slotIsActive i
  rows : ∀ i, taken.slotRow i = tc.slotRow i
  rest : taken = { tc with slots := taken.slots, freeSlots := taken.freeSlots }

theorem takeRecordSlot_spec (h : Sound tc) :
    match tc.takeRecordSlot with
    | none => ¬ tc.newSlot < MAX_RECORDS
    | some (slotId, taken) => Taken tc slotId taken := by
  unfold takeRecordSlot newSlot
  cases hlast : tc.freeSlots.getLast? with
  | some slotId =>
      have hfree := h.free slotId (List.mem_of_getLast? hlast)
      refine ⟨?_, lt_of_lt_of_le hfree.1 h.short, hfree.2, hfree.1, fun _ => rfl, fun _ => rfl, rfl⟩
      unfold newSlot
      rw [hlast]
      rfl
  | none =>
      simp only [Option.getD_none]
      by_cases hfull : MAX_RECORDS ≤ tc.slots.length
      · rw [if_pos hfull]
        exact Nat.not_lt.2 hfull
      · rw [if_neg hfull]
        have hinactive : tc.slotIsActive tc.slots.length = false := by
          rw [Bool.eq_false_iff]
          exact fun hactive => lt_irrefl _ (lt_of_slotIsActive hactive)
        refine ⟨?_, Nat.lt_of_not_le hfull, hinactive, by simp, fun i => ?_, fun i => ?_, rfl⟩
        · unfold newSlot
          rw [hlast]
          rfl
        · rw [slotIsActive_append]
          split
          · rename_i heq
            rw [heq, hinactive]
          · rfl
        · unfold slotRow
          rw [List.getElem?_append]
          split
          · rfl
          · rename_i hge
            rw [List.getElem?_eq_none (Nat.le_of_not_lt hge), Option.bind_none]
            cases hgot : [({} : Slot)][i - tc.slots.length]? with
            | none => rfl
            | some slot =>
                rw [List.mem_singleton.1 (List.mem_of_getElem? hgot)]
                rfl

/-- The slots with their rows and the file are those of before. -/
structure SameSlots (tc tc' : TableCache) : Prop where
  active : ∀ i, tc'.slotIsActive i = tc.slotIsActive i
  rows : ∀ i, tc'.slotRow i = tc.slotRow i
  file : tc'.file = tc.file

namespace Taken

variable {slotId : Nat} {taken : TableCache}

theorem active_placeRow (h : Taken tc slotId taken) (offset i : Nat) :
    (taken.placeRow slotId offset).slotIsActive i =
      if i = slotId then true else tc.slotIsActive i := by
  change (taken.setSlot slotId _).slotIsActive i = _
  rw [slotIsActive_setSlot, h.active]
  exact if_congr (and_iff_left h.inside) rfl rfl

theorem idIndex_placeRow (h : Taken tc slotId taken) (offset : Nat) :
    (taken.placeRow slotId offset).idIndex = tc.idIndex := by
  rw [h.rest]
  rfl

theorem ukIndexes_placeRow (h : Taken tc slotId taken) (offset : Nat) :
    (taken.placeRow slotId offset).ukIndexes = tc.ukIndexes := by
  rw [h.rest]
  rfl

theorem file_placeRow (h : Taken tc slotId taken) (offset : Nat) :
    (taken.placeRow slotId offset).file = tc.file := by
  rw [h.rest]
  rfl

theorem keyFree_placeRow (h : Taken tc slotId taken) (offset : Nat) (key : Int) :
    (taken.placeRow slotId offset).KeyFree key slotId ↔ tc.KeyFree key slotId := by
  unfold KeyFree
  rw [h.idIndex_placeRow]
  refine forall₂_congr fun other _ => ?_
  by_cases heq : other = slotId
  · simp [heq]
  · rw [h.active_placeRow, if_neg heq]

theorem clash_placeRow (h : Taken tc slotId taken) (offset : Nat) (row : Bytes) (i : Nat) :
    (taken.placeRow slotId offset).Clash row slotId i ↔ tc.Clash row slotId i := by
  unfold Clash ukEntry ukSearch
  rw [h.ukIndexes_placeRow]
  refine and_congr_right fun _ => exists_congr fun other => and_congr_right fun _ => ?_
  exact and_congr_right fun hne => by rw [h.active_placeRow, if_neg hne]

/-- Giving the slot back restores the slots, whatever has happened to the indexes. -/
theorem abandon (h : Taken tc slotId taken) (offset : Nat) {tc' : TableCache}
    (hslots : tc'.slots = (taken.placeRow slotId offset).slots) (hfile : tc'.file = tc.file) :
    SameSlots tc (tc'.abandonSlot slotId) ∧ (tc'.abandonSlot slotId).idIndex = tc'.idIndex ∧
      (tc'.abandonSlot slotId).ukIndexes = tc'.ukIndexes := by
  have hactive : tc'.slotIsActive slotId = true := by
    have hplaced := h.active_placeRow offset slotId
    rw [if_pos rfl] at hplaced
    unfold slotIsActive at hplaced ⊢
    rw [hslots]
    exact hplaced
  have hset : tc'.slots.set slotId {} = (taken.setSlot slotId {}).slots := by
    rw [hslots]
    exact List.set_set ..
  have hgone : tc'.abandonSlot slotId =
      { tc' with
        slots := tc'.slots.set slotId {}
        freeSlots := tc'.freeSlots ++ [slotId]
        activeTally := tc'.activeTally - 1 } := by
    unfold abandonSlot deactivateSlot
    rw [if_pos hactive]
    rfl
  have hfile' : taken.file = tc'.file := by
    rw [h.rest, hfile]
  rw [hgone, hset]
  refine ⟨⟨fun i => ?_, fun i => ?_, hfile⟩, rfl, rfl⟩
  · change (taken.setSlot slotId {}).slotIsActive i = _
    rw [slotIsActive_setSlot, h.active]
    split
    · rename_i heq
      rw [heq.1, h.inactive]
    · rfl
  · change ((taken.setSlot slotId {}).slots[i]?).bind (Slot.row tc'.file) = _
    rw [← hfile']
    change (taken.setSlot slotId {}).slotRow i = _
    rw [slotRow_setSlot, h.rows]
    split
    · rename_i heq
      rw [heq.1, slotRow_of_inactive h.inactive]
      rfl
    · rfl

end Taken

theorem clearIdKey_spec {m : Int → Option Nat} (hm : Holds tc.idIndex m) (key : Int)
    (slotId : Nat) :
    (¬ tc.KeyFree key slotId ∧ tc.clearIdKey key slotId = (tc, false)) ∨
      (tc.KeyFree key slotId ∧ ∃ tree, Holds tree (put m key none) ∧
        tc.clearIdKey key slotId = ({ tc with idIndex := tree }, true)) := by
  unfold KeyFree clearIdKey
  rw [hm.search_eq]
  cases hold : m key with
  | none =>
      refine Or.inr ⟨by simp, tc.idIndex, ?_, rfl⟩
      rw [put_eq_self hold]
      exact hm
  | some existing =>
      simp only
      by_cases hother : existing ≠ slotId ∧ tc.slotIsActive existing = true
      · rw [if_pos hother]
        refine Or.inl ⟨fun hfree => ?_, rfl⟩
        obtain heq | hinactive := hfree existing rfl
        · exact hother.1 heq
        · rw [hinactive] at hother
          cases hother.2
      · rw [if_neg hother]
        refine Or.inr ⟨?_, ?_⟩
        · intro other heq
          cases heq
          by_cases heq : existing = slotId
          · exact Or.inl heq
          · exact Or.inr (Bool.eq_false_iff.2 fun hactive => hother ⟨heq, hactive⟩)
        · cases hdel : bptreeDelete tc.idIndex key with
          | none =>
              have hspec := hm.delete key
              unfold bptreeDelete at hdel
              rw [hdel, hold] at hspec
              cases hspec
          | some tree => exact ⟨tree, (holds_bptreeDelete hm hdel).2, rfl⟩

theorem leavesEntries_iff {id : Int} {line : Bytes} {j : Nat}
    (hroom : tc.uncachedStart = none ∧ tc.activeCount < MAX_RECORDS ∧ tc.newSlot < MAX_RECORDS)
    (hfree : tc.KeyFree (tc.newKey id) tc.newSlot) (hclash : tc.Clash line tc.newSlot j)
    (hbefore : ∀ i < j, ¬ tc.Clash line tc.newSlot i) :
    tc.LeavesEntries id line ↔ search tc.idIndex (tc.newKey id) ≠ some tc.newSlot ∨
      ∃ i < j, tc.ukEntry line i ≠ [] ∧ tc.ukSearch i (tc.ukEntry line i) ≠ some tc.newSlot := by
  constructor
  · rintro ⟨-, -, k, hk, hbelow, hnew⟩
    obtain hlt | rfl | hgt := lt_trichotomy k j
    · exact absurd hk (hbefore k hlt)
    · exact hnew
    · exact absurd hclash (hbelow j hgt)
  · exact fun hnew => ⟨hroom, hfree, j, hclash, hbefore, hnew⟩

theorem sameAs_given_up {tc' : TableCache} {m : Int → Option Nat} {row : Bytes} {key : Int}
    {slotId j : Nat} (hslots : SameSlots tc tc') (hm : Holds tc.idIndex m)
    (hid : Holds tc'.idIndex (put m key (some slotId)))
    (huk : ∀ i key, tc'.ukSearch i key =
      if i < j ∧ key = tc.ukEntry row i ∧ key ≠ [] then some slotId else tc.ukSearch i key) :
    SameAs tc tc' ↔ ¬ (search tc.idIndex key ≠ some slotId ∨
      ∃ i < j, tc.ukEntry row i ≠ [] ∧ tc.ukSearch i (tc.ukEntry row i) ≠ some slotId) := by
  constructor
  · rintro hsame (hkey | ⟨i, hij, hne, hentry⟩)
    · refine hkey ?_
      rw [← hsame.id, hid.search_eq, put_self]
    · refine hentry ?_
      rw [← hsame.uk, huk, if_pos ⟨hij, rfl, hne⟩]
  · intro hold
    have hkey : m key = some slotId := by
      rw [← hm.search_eq]
      by_contra hne
      exact hold (Or.inl hne)
    refine ⟨hslots.active, hslots.rows, fun k => ?_, fun i k => ?_, hslots.file⟩
    · rw [hid.search_eq, put_eq_self hkey, hm.search_eq]
    · rw [huk]
      split
      · rename_i hc
        obtain ⟨hij, rfl, hne⟩ := hc
        by_contra hentry
        exact hold (Or.inr ⟨i, hij, hne, fun heq => hentry heq.symm⟩)
      · rfl

theorem sameAs_of_indexes {tc' : TableCache} (h : SameSlots tc tc')
    (hid : tc'.idIndex = tc.idIndex) (huk : tc'.ukIndexes = tc.ukIndexes) : SameAs tc tc' where
  active := h.active
  rows := h.rows
  id := by
    intro key
    rw [hid]
  uk := by
    intro i key
    unfold ukSearch
    rw [huk]
  file := h.file

theorem sameAs_refl (tc : TableCache) : SameAs tc tc :=
  ⟨fun _ => rfl, fun _ => rfl, fun _ => rfl, fun _ _ => rfl, rfl⟩

theorem enterRow_spec {m : Int → Option Nat} {key : Int} (hm : Holds tc.idIndex m)
    (habsent : m key = none) (huk : ∀ index ∈ tc.ukIndexes, ∃ m, Holds index.tree m)
    (row : Bytes) (slotId : Nat) :
    ∃ tree j tc', Holds tree (put m key (some slotId)) ∧
      EnteredTo { tc with idIndex := tree } row slotId j tc' ∧
      (∀ i < j, ¬ tc.Clash row slotId i) ∧
      (tc.enterRow key row slotId = (tc', true) ∨
        (tc.enterRow key row slotId = (tc', false) ∧ tc.Clash row slotId j)) := by
  have hspec := hm.insertWith firstOfRight_ok key slotId
  unfold enterRow bptreeInsert
  cases hins : insertWith firstOfRight tc.idIndex key slotId with
  | none =>
      rw [hins, habsent] at hspec
      cases hspec
  | some tree =>
      rw [hins] at hspec
      obtain ⟨j, tc', hentered, hbefore, hend⟩ :=
        @indexRecordUksFromRow_spec { tc with idIndex := tree } huk row slotId
      refine ⟨tree, j, tc', hspec.2, hentered, hbefore, ?_⟩
      obtain ⟨hok, -⟩ | hclash := hend
      · exact Or.inl hok
      · exact Or.inr hclash

theorem appendRecordCsvIndexed_rejected (h : Sound tc) {id : Int} {line : Bytes} {offset : Nat}
    {tc' : TableCache} (hstart : tc.uncachedStart = none) (hcount : tc.activeCount < MAX_RECORDS)
    (hrej : tc.appendRecordCsvIndexed line id offset = (tc', false)) :
    SameSlots tc tc' ∧ (SameAs tc tc' ↔ ¬ tc.LeavesEntries id line) := by
  have htake := takeRecordSlot_spec h
  unfold appendRecordCsvIndexed at hrej
  cases htaken : tc.takeRecordSlot with
  | none =>
      rw [htaken] at htake hrej
      cases hrej
      exact ⟨⟨fun _ => rfl, fun _ => rfl, rfl⟩,
        iff_of_true (sameAs_refl tc) fun hleaves => htake hleaves.1.2.2⟩
  | some result =>
      obtain ⟨slotId, taken⟩ := result
      rw [htaken] at htake hrej
      simp only at htake hrej
      have hroom : tc.newSlot < MAX_RECORDS := htake.slot ▸ htake.room
      have hfreeIff := htake.keyFree_placeRow offset (tc.newKey id)
      obtain ⟨m, hm⟩ := h.id
      obtain ⟨hbusy, hclear⟩ | ⟨hfree, tree, htree, hclear⟩ := clearIdKey_spec
        ((htake.idIndex_placeRow offset).symm ▸ hm) (tc.newKey id) slotId
      · rw [hclear] at hrej
        cases hrej
        obtain ⟨hslots, hid, huk⟩ := htake.abandon offset rfl (htake.file_placeRow offset)
        refine ⟨hslots, iff_of_true (sameAs_of_indexes hslots
          (hid.trans (htake.idIndex_placeRow offset))
          (huk.trans (htake.ukIndexes_placeRow offset))) ?_⟩
        rintro ⟨-, hkey, -⟩
        rw [← htake.slot] at hkey
        exact hbusy (hfreeIff.2 hkey)
      · rw [hclear] at hrej
        simp only at hrej
        have huks := htake.ukIndexes_placeRow offset
        have hclashIff := htake.clash_placeRow offset line
        obtain ⟨tree', j, last, htree', hentered, hbefore, hend⟩ := @enterRow_spec
          { taken.placeRow slotId offset with idIndex := tree } _ (tc.newKey id) htree
          (put_self m _ none) (huks.symm ▸ h.uk) line slotId
        obtain hok | ⟨hfail, hclash⟩ := hend
        · rw [hok] at hrej
          cases hrej
        · rw [hfail] at hrej
          cases hrej
          rw [put_put] at htree'
          have hlast : last.slots = (taken.placeRow slotId offset).slots := by
            rw [hentered.rest]
          have hlastFile : last.file = tc.file := by
            rw [hentered.rest]
            exact htake.file_placeRow offset
          obtain ⟨hslots, hid, huk⟩ := htake.abandon offset hlast hlastFile
          refine ⟨hslots, ?_⟩
          rw [leavesEntries_iff ⟨hstart, hcount, hroom⟩ (htake.slot ▸ hfreeIff.1 hfree)
            (htake.slot ▸ (hclashIff j).1 hclash)
            (htake.slot ▸ fun i hi hc => hbefore i hi ((hclashIff i).2 hc)), ← htake.slot]
          refine sameAs_given_up hslots hm ?_ ?_
          · rw [hid, hentered.rest]
            exact htree'
          · intro i key
            have hsearch := hentered.search i key
            unfold ukSearch ukEntry at hsearch ⊢
            rw [huk, hsearch]
            simp only [huks]

/-! ## The statement -/

theorem all_active_of_full (h : Sound tc) (hfull : MAX_RECORDS ≤ tc.activeCount) :
    tc.slots.length = MAX_RECORDS ∧ ∀ slot ∈ tc.slots, slot.active = true := by
  have hcount : tc.activeCount = tc.slots.length :=
    le_antisymm List.countP_le_length (h.short.trans hfull)
  exact ⟨le_antisymm h.short (hcount ▸ hfull), List.countP_eq_length.1 hcount⟩

theorem freeSlots_of_full (h : Sound tc) (hfull : MAX_RECORDS ≤ tc.activeCount) :
    tc.freeSlots = [] := by
  refine List.eq_nil_iff_forall_not_mem.2 fun i hi => ?_
  obtain ⟨hlt, hinactive⟩ := h.free i hi
  have hactive := (all_active_of_full h hfull).2 _ (List.getElem_mem hlt)
  unfold slotIsActive at hinactive
  rw [List.getElem?_eq_getElem hlt, Option.any_some, hactive] at hinactive
  cases hinactive

theorem full_of_sameSlots {tc' : TableCache} (h : Sound tc) (h' : Sound tc')
    (hsame : ∀ i, tc'.slotIsActive i = tc.slotIsActive i) (hfull : MAX_RECORDS ≤ tc.activeCount) :
    MAX_RECORDS ≤ tc'.activeCount := by
  obtain ⟨hlen, hall⟩ := all_active_of_full h hfull
  have hactive : ∀ i < MAX_RECORDS, tc'.slotIsActive i = true := by
    intro i hi
    rw [hsame]
    unfold slotIsActive
    rw [List.getElem?_eq_getElem (hlen.symm ▸ hi), Option.any_some]
    exact hall _ (List.getElem_mem _)
  have hlen' : tc'.slots.length = MAX_RECORDS := by
    refine le_antisymm h'.short (Nat.le_of_not_lt fun hlt => ?_)
    exact lt_irrefl _ (lt_of_slotIsActive (hactive _ hlt))
  have hcount : tc'.activeCount = tc'.slots.length := by
    refine List.countP_eq_length.2 fun slot hslot => ?_
    obtain ⟨i, hi, rfl⟩ := List.getElem_of_mem hslot
    have hslot' := hactive i (hlen' ▸ hi)
    unfold slotIsActive at hslot'
    rw [List.getElem?_eq_getElem hi, Option.any_some] at hslot'
    exact hslot'
  rw [hcount, hlen']

theorem insertBuilt_rejected (h : Sound tc) {id : Int} {line : Bytes} {e : InsertError}
    (hrej : (tc.insertBuilt id line).2 = .error e) :
    SameSlots tc (tc.insertBuilt id line).1 ∧
      (SameAs tc (tc.insertBuilt id line).1 ↔ ¬ tc.LeavesEntries id line) ∧
      (MAX_RECORDS ≤ tc.activeCount → (tc.insertBuilt id line).1 = tc) := by
  unfold insertBuilt at hrej ⊢
  cases hvalid : tc.validateFileDuplicates line with
  | error e' =>
      refine ⟨⟨fun _ => rfl, fun _ => rfl, rfl⟩, iff_of_true (sameAs_refl tc) ?_, fun _ => rfl⟩
      rintro ⟨⟨hstart, hcount, -⟩, -⟩
      unfold validateFileDuplicates at hvalid
      rw [if_pos ⟨hstart, hcount⟩] at hvalid
      cases hvalid
  | ok _ =>
      rw [hvalid] at hrej
      simp only at hrej ⊢
      split at hrej
      · rename_i hslot
        have hcount : tc.activeCount < MAX_RECORDS := by
          by_contra hfull
          have hnil := freeSlots_of_full h (Nat.le_of_not_lt hfull)
          exact hslot.2.elim hfull fun hne => hne hnil
        rw [if_pos hslot]
        cases hresult : tc.appendRecordCsvIndexed line id tc.appendOffset with
        | mk tc' ok =>
            rw [hresult] at hrej
            cases ok with
            | true => cases hrej
            | false =>
                obtain ⟨hslots, hiff⟩ :=
                  appendRecordCsvIndexed_rejected h hslot.1 hcount hresult
                exact ⟨hslots, hiff, fun hfull => absurd hcount (Nat.not_lt.2 hfull)⟩
      · cases hrej

/-- The position of the file is no part of what is compared. -/
theorem soughtFor_rejected (h : Sound tc) {id : Int} {line : Bytes} {e : InsertError}
    (hrej : ((tc.soughtFor line).insertBuilt id line).2 = .error e) :
    SameSlots tc ((tc.soughtFor line).insertBuilt id line).1 ∧
      (SameAs tc ((tc.soughtFor line).insertBuilt id line).1 ↔ ¬ tc.LeavesEntries id line) ∧
      (MAX_RECORDS ≤ tc.activeCount →
        ((tc.soughtFor line).insertBuilt id line).1 = tc.soughtFor line) := by
  unfold soughtFor at hrej ⊢
  split at hrej
  · rename_i hscan
    have hsought : Sound tc.seekEnd := { h with }
    obtain ⟨hslots, hiff, hkeeps⟩ := insertBuilt_rejected hsought hrej
    rw [if_pos hscan]
    exact ⟨⟨hslots.active, hslots.rows, hslots.file⟩,
      ⟨fun hsame => hiff.1 ⟨hsame.active, hsame.rows, hsame.id, hsame.uk, hsame.file⟩, fun hfree => by
        have hsame := hiff.2 hfree
        exact ⟨hsame.active, hsame.rows, hsame.id, hsame.uk, hsame.file⟩⟩, hkeeps⟩
  · rename_i hscan
    rw [if_neg hscan]
    exact insertBuilt_rejected h hrej

theorem sameAs_soughtFor {tc' : TableCache} (line : Bytes) :
    SameAs tc (tc'.soughtFor line) ↔ SameAs tc tc' := by
  unfold soughtFor
  split
  · exact ⟨fun h => ⟨h.active, h.rows, h.id, h.uk, h.file⟩,
      fun h => ⟨h.active, h.rows, h.id, h.uk, h.file⟩⟩
  · exact Iff.rfl

/-- The table is the one that its file, without a log, is loaded as. -/
def AsLoaded (tc : TableCache) : Prop :=
  ∃ tc', loadTableContents tc.file none = some tc' ∧ SameAs tc tc'

/-- The condition under which a rejected INSERT changes nothing.  Where the table is
compacted first, its file already is the compact one. -/
def Spares (tc : TableCache) (hasDelta : Bool) (rowData : Bytes) : Prop :=
  ∀ id line, tc.buildInsertRow (parseCsvRow (cstr rowData)) = .ok (id, line) →
    if tc.compacts hasDelta then ∀ text, tc.compactText = some text → tc.file = text ∧ tc.AsLoaded
    else ¬ tc.LeavesEntries id line

theorem asLoaded_iff {text : Bytes} :
    (tc.file = text ∧ tc.AsLoaded) ↔ ∃ tc', rewriteFile text = some tc' ∧ SameAs tc tc' := by
  constructor
  · rintro ⟨rfl, hloaded⟩
    exact hloaded
  · rintro ⟨tc', hload, hsame⟩
    have hfile : tc.file = text := by
      rw [← hsame.file]
      exact (source_loadTableContents hload).file
    refine ⟨hfile, tc', ?_, hsame⟩
    rw [hfile]
    exact hload

end TableCache

/-- After a compaction the row never gets a slot, so nothing further changes. -/
theorem TableCache.compacted_intact_iff {tc tc' : TableCache} (h : Sound tc) (h' : Sound tc')
    (hfull : MAX_RECORDS ≤ tc.activeCount) {id : Int} {line : Bytes} {e : InsertError}
    (hrej : ((tc'.soughtFor line).insertBuilt id line).2 = .error e) :
    SameAs tc ((tc'.soughtFor line).insertBuilt id line).1 ↔ SameAs tc tc' := by
  obtain ⟨hslots, -, hkeeps⟩ := soughtFor_rejected h' hrej
  have hsought := @sameAs_soughtFor tc tc' line
  constructor
  · intro hsame
    have hactive : ∀ i, tc'.slotIsActive i = tc.slotIsActive i := fun i => by
      rw [← hslots.active, hsame.active]
    rwa [hkeeps (full_of_sameSlots h h' hactive hfull), hsought] at hsame
  · intro hsame
    rwa [hkeeps (full_of_sameSlots h h' hsame.active hfull), hsought]

/-- An INSERT that is rejected leaves the table intact exactly where the condition holds. -/
theorem rejected_insert_intact_iff {tc : TableCache} (h : Reachable tc) {hasDelta : Bool}
    {rowData : Bytes} {e : InsertError} (hrej : (tc.insertRowData hasDelta rowData).2 = .error e) :
    (∃ tc', (tc.insertRowData hasDelta rowData).1 = some tc' ∧ SameAs tc tc') ↔
      tc.Spares hasDelta rowData := by
  have hsound := h.sound
  unfold TableCache.Spares
  unfold TableCache.insertRowData at hrej ⊢
  cases hbuild : tc.buildInsertRow (parseCsvRow (cstr rowData)) with
  | error e' =>
      refine iff_of_true ⟨tc, rfl, TableCache.sameAs_refl tc⟩ fun id line heq => ?_
      cases heq
  | ok built =>
      obtain ⟨id, line⟩ := built
      rw [hbuild] at hrej
      have hcond : ∀ {P : Int → Bytes → Prop}, (∀ id' line',
          (Except.ok (id, line) : Except InsertError (Int × Bytes)) = .ok (id', line') →
            P id' line') ↔ P id line := by
        intro P
        exact ⟨fun hall => hall id line rfl, fun hP id' line' heq => by cases heq; exact hP⟩
      rw [hcond]
      simp only at hrej ⊢
      by_cases hcompacts : tc.compacts hasDelta
      · rw [if_pos hcompacts] at hrej ⊢
        rw [if_pos hcompacts]
        simp only [TableCache.asLoaded_iff]
        cases htext : tc.compactText with
        | none =>
            have hsame : SameAs tc tc.reopened := ⟨fun _ => rfl, fun _ => rfl, fun _ => rfl,
              fun _ _ => rfl, rfl⟩
            refine iff_of_true ⟨tc.reopened, rfl, hsame⟩ fun text heq => ?_
            cases heq
        | some text =>
            rw [htext] at hrej
            simp only [Option.some.injEq, forall_eq'] at hrej ⊢
            cases hload : TableCache.rewriteFile text with
            | none => simp
            | some tc' =>
                rw [hload] at hrej
                have hsound' := (Reachable.load hload).sound
                have hiff := TableCache.compacted_intact_iff hsound hsound' hcompacts.2.1 hrej
                simp only [Prod.map_fst, Option.some.injEq, exists_eq_left']
                exact hiff
      · rw [if_neg hcompacts] at hrej ⊢
        rw [if_neg hcompacts]
        have hiff := (TableCache.soughtFor_rejected hsound hrej).2.1
        simp only [Prod.map_fst, Option.some.injEq, exists_eq_left']
        exact hiff

/-! ## A quote in a value -/

/-- A table with one row. -/
def oneUk : Bytes := str "id(PK),a,u(UK)\n1,x,k\n"

/-- The second value has a comma between quotes, so the line is read back with the key of
the first row in its UK column. -/
def splitValue : Bytes := str "2,x','k,"

theorem oneUk_loads : (loadTableContents oneUk none).isSome = true := by decide +kernel

theorem rejected_insert_leaves_id :
    ∃ tc, Reachable tc ∧ (tc.insertRowData false splitValue).2 = .error .index ∧
      ¬ ∃ tc', (tc.insertRowData false splitValue).1 = some tc' ∧ SameAs tc tc' := by
  refine ⟨(loadTableContents oneUk none).get oneUk_loads,
    Reachable.load (Option.some_get oneUk_loads).symm, by decide +kernel, ?_⟩
  rintro ⟨tc', hinsert, hsame⟩
  have hbefore : search ((loadTableContents oneUk none).get oneUk_loads).idIndex 2 = none := by
    decide +kernel
  have hafter : ((((loadTableContents oneUk none).get oneUk_loads).insertRowData false
      splitValue).1.bind fun tc => search tc.idIndex 2) = some 1 := by
    decide +kernel
  rw [hinsert, Option.bind_some, hsame.id, hbefore] at hafter
  cases hafter

theorem oneUk_rejects :
    (((loadTableContents oneUk none).get oneUk_loads).insertRowData false splitValue).1.isSome =
      true := by
  decide +kernel

/-- The row once more: it gets the same slot, and is given up with the entries it has
left before. -/
theorem rejected_insert_intact_again :
    ∃ tc, Reachable tc ∧ (tc.insertRowData false splitValue).2 = .error .index ∧
      tc.freeSlots = [1] ∧
        ∃ tc', (tc.insertRowData false splitValue).1 = some tc' ∧ SameAs tc tc' := by
  have hreach : Reachable ((((loadTableContents oneUk none).get oneUk_loads).insertRowData false
      splitValue).1.get oneUk_rejects) :=
    (Reachable.load (Option.some_get oneUk_loads).symm).insert
      (Option.some_get oneUk_rejects).symm
  generalize htc : (((loadTableContents oneUk none).get oneUk_loads).insertRowData false
    splitValue).1.get oneUk_rejects = tc at hreach
  have hrej : (tc.insertRowData false splitValue).2 = .error .index := by
    rw [← htc]
    decide +kernel
  refine ⟨tc, hreach, hrej, by rw [← htc]; decide +kernel, ?_⟩
  refine (rejected_insert_intact_iff hreach hrej).2 fun id line hbuild => ?_
  have hbuilt : tc.buildInsertRow (parseCsvRow (cstr splitValue)) =
      .ok (2, str "2,'x','k',") := by
    rw [← htc]
    decide +kernel
  have hid : search tc.idIndex (tc.newKey 2) = some tc.newSlot := by
    rw [← htc]
    decide +kernel
  have hone : tc.ukIndexes.length = 1 := by
    rw [← htc]
    decide +kernel
  rw [hbuilt] at hbuild
  cases hbuild
  rw [if_neg fun hcompacts => by cases hcompacts.2.2]
  rintro ⟨-, -, j, hclash, -, hnew | ⟨i, hij, -⟩⟩
  · exact hnew hid
  · -- there is no UK index behind the first
    have hlast : tc.ukIndexes[j]? = none := List.getElem?_eq_none (by omega)
    exact hclash.1 (by simp only [TableCache.ukEntry, hlast, Option.map_none, Option.getD_none])

end MiniDbms.Legacy
