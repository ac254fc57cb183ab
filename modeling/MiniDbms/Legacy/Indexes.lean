import MiniDbms.Legacy.TableCache
import MiniDbms.Bptree.Map

/-!
# Bulk-built indexes

The indexes that are built from the active rows hold exactly these, when no two of
them have the same key.
-/

namespace MiniDbms.Legacy

open Bptree

/-! ## Sorting -/

section Sorting

variable {α : Type} [LinearOrder α] {pairs : List (α × Nat)}

theorem TableCache.sortPairs_perm (pairs : List (α × Nat)) : (sortPairs pairs).Perm pairs := by
  unfold sortPairs
  split
  · exact List.Perm.refl pairs
  · exact List.mergeSort_perm pairs _

theorem TableCache.sortPairs_sorted (h : (pairs.map Prod.fst).Nodup) : Sorted (sortPairs pairs) := by
  have hnodup : ((sortPairs pairs).map Prod.fst).Nodup :=
    ((sortPairs_perm pairs).map Prod.fst).nodup_iff.2 h
  unfold sortPairs at hnodup ⊢
  split
  · rename_i hinc
    exact increasing_iff.1 hinc
  · rename_i hinc
    rw [if_neg hinc] at hnodup
    have hle : (pairs.mergeSort fun a b => a.1 ≤ b.1).Pairwise fun a b => a.1 ≤ b.1 := by
      refine (List.pairwise_mergeSort ?_ ?_ pairs).imp fun hab => by simpa using hab
      · intro a b c hab hbc
        rw [decide_eq_true_eq] at hab hbc ⊢
        exact le_trans hab hbc
      · intro a b
        simpa using le_total a.1 b.1
    have hne : (pairs.mergeSort fun a b => a.1 ≤ b.1).Pairwise fun a b => a.1 ≠ b.1 :=
      List.pairwise_map.1 hnodup
    exact (hle.and hne).imp fun hab => lt_of_le_of_ne hab.1 hab.2

theorem TableCache.mapOf_sortPairs (h : (pairs.map Prod.fst).Nodup) (k : α) (i : Nat) :
    mapOf (sortPairs pairs) k = some i ↔ (k, i) ∈ pairs := by
  rw [mapOf_eq_some (sortPairs_sorted h), (sortPairs_perm pairs).mem_iff]

end Sorting

namespace TableCache

variable {tc : TableCache}

/-! ## Rows -/

theorem mem_rows {i : Nat} {row : Bytes} : (i, row) ∈ tc.rows ↔ tc.slotRow i = some row := by
  unfold rows slotRow
  rw [List.mem_filterMap]
  constructor
  · rintro ⟨⟨slot, j⟩, hslot, hrow⟩
    obtain ⟨row', hrow', heq⟩ := Option.map_eq_some_iff.1 hrow
    obtain ⟨rfl, rfl⟩ := Prod.mk.inj heq
    rw [List.mem_zipIdx_iff_getElem?.1 hslot]
    exact hrow'
  · intro h
    obtain ⟨slot, hslot, hrow⟩ := Option.bind_eq_some_iff.1 h
    exact ⟨(slot, i), List.mem_zipIdx_iff_getElem?.2 hslot, by rw [hrow]; rfl⟩

theorem slotIsActive_of_row {i : Nat} {row : Bytes} (h : tc.slotRow i = some row) :
    tc.slotIsActive i = true := by
  obtain ⟨slot, hslot, hrow⟩ := Option.bind_eq_some_iff.1 h
  unfold slotIsActive
  rw [hslot]
  unfold Slot.row at hrow
  split at hrow
  · assumption
  · cases hrow

/-- The id index and the UK indexes contain exactly the active rows. -/
structure IndexesExact (tc : TableCache) : Prop where
  id : ∃ m, IsMap tc.idIndex m ∧ ∀ id i, m id = some i ↔
    ∃ row, tc.slotRow i = some row ∧ tc.rowIndexKey row i = some id
  cols : tc.ukIndexes.map UniqueIndex.colIdx = tc.schema.ukIndices
  uk : ∀ index ∈ tc.ukIndexes, ∃ m, IsMap index.tree m ∧ ∀ key i, m key = some i ↔
    key ≠ [] ∧ ∃ row, tc.slotRow i = some row ∧ ukKey row index.colIdx = key

/-! ## Building -/

theorem mem_idPairs {pairs : List (Int × Nat)} (h : tc.idPairs = some pairs) {id : Int} {i : Nat} :
    (id, i) ∈ pairs ↔ ∃ row, tc.slotRow i = some row ∧ tc.rowIndexKey row i = some id := by
  have hmap := mapM_eq_some.1 h
  have hmem : (id, i) ∈ pairs ↔ some (id, i) ∈ pairs.map some := by simp
  rw [hmem, ← hmap, List.mem_map]
  constructor
  · rintro ⟨⟨j, row⟩, hrow, heq⟩
    obtain ⟨id', hkey, heq⟩ := Option.map_eq_some_iff.1 heq
    obtain ⟨rfl, rfl⟩ := Prod.mk.inj heq
    exact ⟨row, mem_rows.1 hrow, hkey⟩
  · rintro ⟨row, hrow, hkey⟩
    exact ⟨(i, row), mem_rows.2 hrow, by rw [hkey]; rfl⟩

theorem mem_ukPairs {col i : Nat} {key : Bytes} :
    (key, i) ∈ tc.ukPairs col ↔ key ≠ [] ∧ ∃ row, tc.slotRow i = some row ∧ ukKey row col = key := by
  unfold ukPairs
  rw [List.mem_filterMap]
  constructor
  · rintro ⟨⟨j, row⟩, hrow, heq⟩
    simp only at heq
    split at heq
    · cases heq
    · rename_i hne
      obtain ⟨rfl, rfl⟩ := Prod.mk.inj (Option.some.inj heq)
      exact ⟨hne, row, mem_rows.1 hrow, rfl⟩
  · rintro ⟨hne, row, hrow, rfl⟩
    exact ⟨(i, row), mem_rows.2 hrow, if_neg hne⟩

theorem rebuildIdIndex_spec {pairs : List (Int × Nat)} (hpairs : tc.idPairs = some pairs)
    (hnodup : (pairs.map Prod.fst).Nodup) :
    ∃ tree next, tc.rebuildIdIndex = some { tc with idIndex := tree, nextAutoId := next } ∧
      ∃ m, Holds tree m ∧ ∀ id i, m id = some i ↔
        ∃ row, tc.slotRow i = some row ∧ tc.rowIndexKey row i = some id := by
  have hbuild := Holds.build intSeparator_keeps (create Int Nat) (sortPairs pairs)
  unfold rebuildIdIndex
  rw [hpairs]
  simp only [bptreeBuildFromSorted]
  cases hresult : buildFromSorted (fun first => some (first.getD 0)) (create Int Nat)
      (sortPairs pairs) with
  | mk tree built =>
      rw [hresult] at hbuild
      cases built with
      | false => exact absurd (sortPairs_sorted hnodup) hbuild
      | true =>
          refine ⟨tree, _, rfl, _, hbuild.2, fun id i => ?_⟩
          rw [mapOf_sortPairs hnodup, mem_idPairs hpairs]

theorem rebuildUkIndexes_spec
    (hnodup : ∀ index ∈ tc.ukIndexes, ((tc.ukPairs index.colIdx).map Prod.fst).Nodup) :
    ∃ ukIndexes, tc.rebuildUkIndexes = some { tc with ukIndexes := ukIndexes } ∧
      ukIndexes.map UniqueIndex.colIdx = tc.ukIndexes.map UniqueIndex.colIdx ∧
      ∀ index ∈ ukIndexes, ∃ m, Holds index.tree m ∧ ∀ key i, m key = some i ↔
        key ≠ [] ∧ ∃ row, tc.slotRow i = some row ∧ ukKey row index.colIdx = key := by
  let build := fun index : UniqueIndex => { index with
    tree := (bptreeStringBuildFromSorted (create Bytes Nat)
      (sortPairs (tc.ukPairs index.colIdx))).1 }
  have hbuild : ∀ index ∈ tc.ukIndexes,
      (bptreeStringBuildFromSorted (create Bytes Nat) (sortPairs (tc.ukPairs index.colIdx))).2 =
        true ∧ Holds (build index).tree (mapOf (sortPairs (tc.ukPairs index.colIdx))) := by
    intro index hindex
    have hkeeps : KeepsKeys (id : Option Bytes → Option Bytes) := fun _ => rfl
    have hspec := Holds.build hkeeps (create Bytes Nat) (sortPairs (tc.ukPairs index.colIdx))
    simp only [build, bptreeStringBuildFromSorted]
    cases hresult : buildFromSorted id (create Bytes Nat) (sortPairs (tc.ukPairs index.colIdx)) with
    | mk tree built =>
        rw [hresult] at hspec
        cases built with
        | false => exact absurd (sortPairs_sorted (hnodup index hindex)) hspec
        | true => exact ⟨rfl, hspec.2⟩
  refine ⟨tc.ukIndexes.map build, ?_, ?_, ?_⟩
  · unfold rebuildUkIndexes
    simp only
    rw [mapM_of_forall (g := build)]
    · rfl
    · intro index hindex
      have hok := (hbuild index hindex).1
      simp only [build]
      generalize bptreeStringBuildFromSorted (create Bytes Nat)
        (sortPairs (tc.ukPairs index.colIdx)) = result at hok ⊢
      obtain ⟨tree, built⟩ := result
      cases hok
      rfl
  · rw [List.map_map]
    rfl
  · intro index hindex
    obtain ⟨old, hold, rfl⟩ := List.mem_map.1 hindex
    refine ⟨_, (hbuild old hold).2, fun key i => ?_⟩
    rw [mapOf_sortPairs (hnodup old hold), mem_ukPairs]

theorem rebuild_exact {pairs : List (Int × Nat)} (hpairs : tc.idPairs = some pairs)
    (hid : (pairs.map Prod.fst).Nodup)
    (huk : ∀ index ∈ tc.ukIndexes, ((tc.ukPairs index.colIdx).map Prod.fst).Nodup)
    (hcols : tc.ukIndexes.map UniqueIndex.colIdx = tc.schema.ukIndices) :
    ∃ tree next ukIndexes, (tc.rebuildIdIndex.bind rebuildUkIndexes) =
        some { tc with idIndex := tree, nextAutoId := next, ukIndexes := ukIndexes } ∧
      ({ tc with idIndex := tree, nextAutoId := next, ukIndexes := ukIndexes } :
        TableCache).IndexesExact := by
  obtain ⟨tree, next, hrebuild, m, hm, hiff⟩ := rebuildIdIndex_spec hpairs hid
  obtain ⟨ukIndexes, hrebuildUk, hmap, hindexes⟩ := @rebuildUkIndexes_spec
    { tc with idIndex := tree, nextAutoId := next } huk
  refine ⟨tree, next, ukIndexes, ?_, ⟨m, hm.isMap, hiff⟩, hmap.trans hcols, ?_⟩
  · rw [hrebuild, Option.bind_some, hrebuildUk]
  · intro index hindex
    obtain ⟨m', hm', hiff'⟩ := hindexes index hindex
    exact ⟨m', hm'.isMap, hiff'⟩

end TableCache

end MiniDbms.Legacy
