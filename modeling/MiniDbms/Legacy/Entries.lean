import MiniDbms.Legacy.Delete

/-!
# The entries of deleted rows

An index that holds the entries of some rows holds those of the others when one row has
been taken out, so the removal of all matching rows succeeds.
-/

namespace MiniDbms.Legacy

open Bptree

/-! ## The entries of rows in a map -/

section Maps

variable {κ : Type} {m : κ → Option Nat} {R : Nat → Bytes → Prop}
  {keyOf : Bytes → Nat → Option κ}

/-- The map sends the keys of the rows to their slots, and nothing else. -/
def Entries (m : κ → Option Nat) (R : Nat → Bytes → Prop) (keyOf : Bytes → Nat → Option κ) :
    Prop :=
  ∀ key i, m key = some i ↔ ∃ row, R i row ∧ keyOf row i = some key

/-- One row for each slot. -/
def OneRow (R : Nat → Bytes → Prop) : Prop := ∀ i row row', R i row → R i row' → row = row'

theorem Entries.erase [LinearOrder κ] (h : Entries m R keyOf) (hone : OneRow R) {i : Nat} {row : Bytes}
    (hrow : R i row) {key : κ} (hkey : keyOf row i = some key) :
    Entries (put m key none) (fun j r => R j r ∧ j ≠ i) keyOf := by
  have hentry : m key = some i := (h key i).2 ⟨row, hrow, hkey⟩
  intro key' j
  by_cases heq : key' = key
  · subst heq
    rw [put_self]
    refine iff_of_false (by simp) ?_
    rintro ⟨row', ⟨hrow', hne⟩, hkey'⟩
    have hj := (h key' j).2 ⟨row', hrow', hkey'⟩
    rw [hentry] at hj
    exact hne (Option.some.inj hj).symm
  · rw [put_of_ne heq, h key' j]
    constructor
    · rintro ⟨row', hrow', hkey'⟩
      refine ⟨row', ⟨hrow', ?_⟩, hkey'⟩
      rintro rfl
      rw [hone j row' row hrow' hrow, hkey] at hkey'
      exact heq (Option.some.inj hkey').symm
    · rintro ⟨row', ⟨hrow', -⟩, hkey'⟩
      exact ⟨row', hrow', hkey'⟩

theorem Entries.keep (h : Entries m R keyOf) (hone : OneRow R) {i : Nat} {row : Bytes}
    (hrow : R i row) (hkey : keyOf row i = none) :
    Entries m (fun j r => R j r ∧ j ≠ i) keyOf := by
  intro key j
  rw [h key j]
  constructor
  · rintro ⟨row', hrow', hkey'⟩
    refine ⟨row', ⟨hrow', ?_⟩, hkey'⟩
    rintro rfl
    rw [hone j row' row hrow' hrow, hkey] at hkey'
    cases hkey'
  · rintro ⟨row', ⟨hrow', -⟩, hkey'⟩
    exact ⟨row', hrow', hkey'⟩

end Maps

/-- The key of a row in a UK index; an empty text is none. -/
def ukEntryKey (col : Nat) (row : Bytes) (_ : Nat) : Option Bytes :=
  if ukKey row col = [] then none else some (ukKey row col)

theorem ukEntryKey_eq_some {col i : Nat} {row key : Bytes} :
    ukEntryKey col row i = some key ↔ key ≠ [] ∧ ukKey row col = key := by
  unfold ukEntryKey
  split
  · rename_i hempty
    refine iff_of_false (by simp) ?_
    rintro ⟨hne, rfl⟩
    exact hne hempty
  · rename_i hne
    rw [Option.some.injEq]
    exact ⟨fun h => ⟨h ▸ hne, h⟩, fun h => h.2⟩

namespace TableCache

variable {tc : TableCache} {R : Nat → Bytes → Prop}

/-- The trees hold exactly the entries of these rows. -/
structure Holding (tc : TableCache) (R : Nat → Bytes → Prop) : Prop where
  id : ∃ m, Holds tc.idIndex m ∧ Entries m R tc.rowIndexKey
  uk : ∀ index ∈ tc.ukIndexes, ∃ m, Holds index.tree m ∧ Entries m R (ukEntryKey index.colIdx)

/-- The indexes are exact, and every active row has a key in the id index. -/
structure Consistent (tc : TableCache) : Prop where
  exact : tc.IndexesExact
  sound : Sound tc
  keyed : ∀ i row, tc.slotRow i = some row → (tc.rowIndexKey row i).isSome = true

theorem Consistent.holding (h : tc.Consistent) :
    tc.Holding fun i row => tc.slotRow i = some row where
  id := by
    obtain ⟨m, hm⟩ := h.sound.id
    obtain ⟨m', hm', hiff⟩ := h.exact.id
    refine ⟨m, hm, fun key i => ?_⟩
    rw [← hm.search_eq, hm'.search, hiff]
  uk := by
    intro index hindex
    obtain ⟨m, hm⟩ := h.sound.uk index hindex
    obtain ⟨m', hm', hiff⟩ := h.exact.uk index hindex
    refine ⟨m, hm, fun key i => ?_⟩
    rw [← hm.search_eq, hm'.search, hiff]
    simp only [ukEntryKey_eq_some]
    exact ⟨fun ⟨hne, row, hrow, hkey⟩ => ⟨row, hrow, hne, hkey⟩,
      fun ⟨row, hrow, hne, hkey⟩ => ⟨hne, row, hrow, hkey⟩⟩

theorem oneRow_slotRow (tc : TableCache) : OneRow fun i row => tc.slotRow i = some row :=
  fun _ _ _ hrow hrow' => Option.some.inj (hrow.symm.trans hrow')

theorem removeUkKeys_spec (hone : OneRow R) {i : Nat} {row : Bytes} (hrow : R i row) :
    ∀ {indexes : List UniqueIndex}, (∀ index ∈ indexes, ∃ m, Holds index.tree m ∧
      Entries m R (ukEntryKey index.colIdx)) →
      ∃ indexes', removeUkKeys row indexes = (indexes', true) ∧
        indexes'.map UniqueIndex.colIdx = indexes.map UniqueIndex.colIdx ∧
        ∀ index ∈ indexes', ∃ m, Holds index.tree m ∧
          Entries m (fun j r => R j r ∧ j ≠ i) (ukEntryKey index.colIdx)
  | [], _ => ⟨[], rfl, rfl, fun _ h => absurd h List.not_mem_nil⟩
  | index :: rest, h => by
      obtain ⟨m, hm, hentries⟩ := h index List.mem_cons_self
      obtain ⟨rest', hrest, hcols, hall⟩ := removeUkKeys_spec hone hrow fun index' hindex' =>
        h index' (List.mem_cons_of_mem index hindex')
      unfold removeUkKeys
      simp only [hrest]
      by_cases hempty : ukKey row index.colIdx = []
      · have hnone : ukEntryKey index.colIdx row i = none := if_pos hempty
        rw [if_pos hempty]
        refine ⟨index :: rest', rfl, by rw [List.map_cons, List.map_cons, hcols], ?_⟩
        intro index' hindex'
        obtain rfl | hindex' := List.mem_cons.1 hindex'
        · exact ⟨m, hm, hentries.keep hone hrow hnone⟩
        · exact hall index' hindex'
      · have hsome : ukEntryKey index.colIdx row i = some (ukKey row index.colIdx) :=
          if_neg hempty
        have hentry := (hentries _ i).2 ⟨row, hrow, hsome⟩
        rw [if_neg hempty]
        cases hdel : bptreeStringDelete index.tree (ukKey row index.colIdx) with
        | none =>
            have hspec := hm.delete (ukKey row index.colIdx)
            unfold bptreeStringDelete at hdel
            rw [if_neg hempty] at hdel
            rw [hdel, hentry] at hspec
            cases hspec
        | some tree =>
            refine ⟨{ index with tree := tree } :: rest', rfl,
              by rw [List.map_cons, List.map_cons, hcols], ?_⟩
            intro index' hindex'
            obtain rfl | hindex' := List.mem_cons.1 hindex'
            · exact ⟨_, (holds_stringDelete hm hdel).2, hentries.erase hone hrow hsome⟩
            · exact hall index' hindex'

theorem Holding.remove (h : tc.Holding R) (hone : OneRow R) {i : Nat} {row : Bytes}
    (hrow : R i row) (hkey : (tc.rowIndexKey row i).isSome = true) :
    ∃ tree indexes, tc.removeRecordIndexes i row =
        ({ tc with idIndex := tree, ukIndexes := indexes }, true) ∧
      indexes.map UniqueIndex.colIdx = tc.ukIndexes.map UniqueIndex.colIdx ∧
      ({ tc with idIndex := tree, ukIndexes := indexes } : TableCache).Holding
        fun j r => R j r ∧ j ≠ i := by
  obtain ⟨id, hid⟩ := Option.isSome_iff_exists.1 hkey
  obtain ⟨m, hm, hentries⟩ := h.id
  have hentry := (hentries id i).2 ⟨row, hrow, hid⟩
  obtain ⟨indexes, hremoved, hcols, hall⟩ := removeUkKeys_spec hone hrow h.uk
  unfold removeRecordIndexes
  simp only [hid]
  cases hdel : bptreeDelete tc.idIndex id with
  | none =>
      have hspec := hm.delete id
      unfold bptreeDelete at hdel
      rw [hdel, hentry] at hspec
      cases hspec
  | some tree =>
      refine ⟨tree, indexes, ?_, hcols, ⟨_, (holds_bptreeDelete hm hdel).2, ?_⟩, hall⟩
      · simp only [removeRecordUkIndexes, hremoved]
      · exact hentries.erase hone hrow hid

theorem Holding.removeMatched : ∀ {matched : List (Nat × Bytes)} {tc : TableCache}
    {R : Nat → Bytes → Prop} {done : List Nat}, tc.Holding R → OneRow R →
      (matched.map Prod.fst).Nodup →
      (∀ e ∈ matched, R e.1 e.2 ∧ (tc.rowIndexKey e.2 e.1).isSome = true) →
      ∃ tree indexes, tc.removeMatched matched done =
          ({ tc with idIndex := tree, ukIndexes := indexes }, true) ∧
        indexes.map UniqueIndex.colIdx = tc.ukIndexes.map UniqueIndex.colIdx ∧
        ({ tc with idIndex := tree, ukIndexes := indexes } : TableCache).Holding
          fun j r => R j r ∧ j ∉ matched.map Prod.fst
  | [], tc, R, done, h, hone, _, _ =>
      ⟨tc.idIndex, tc.ukIndexes, rfl, rfl, by simpa using h⟩
  | (i, row) :: rest, tc, R, done, h, hone, hnodup, hall => by
      rw [List.map_cons, List.nodup_cons] at hnodup
      obtain ⟨hrow, hkey⟩ := hall (i, row) List.mem_cons_self
      obtain ⟨tree, indexes, hremove, hcols, hleft⟩ := h.remove hone hrow hkey
      have hone' : OneRow fun j r => R j r ∧ j ≠ i :=
        fun j r r' hr hr' => hone j r r' hr.1 hr'.1
      obtain ⟨tree', indexes', hremoved, hcols', hrest⟩ :=
        @Holding.removeMatched rest { tc with idIndex := tree, ukIndexes := indexes } _
          (done ++ [i]) hleft hone' hnodup.2 fun e he => by
            obtain ⟨hrow', hkey'⟩ := hall e (List.mem_cons_of_mem (i, row) he)
            refine ⟨⟨hrow', ?_⟩, hkey'⟩
            rintro heq
            exact hnodup.1 (heq ▸ List.mem_map_of_mem he)
      refine ⟨tree', indexes', ?_, hcols'.trans hcols, ?_⟩
      · rw [TableCache.removeMatched, hremove]
        exact hremoved
      · have hiff : (fun j r => (R j r ∧ j ≠ i) ∧ j ∉ rest.map Prod.fst) =
            fun j r => R j r ∧ j ∉ ((i, row) :: rest).map Prod.fst := by
          funext j r
          rw [List.map_cons, List.mem_cons, not_or, and_assoc]
        rw [← hiff]
        exact hrest

theorem removeByKey_eq {key : Int} {i : Nat} {row : Bytes}
    (hkey : tc.rowIndexKey row i = some key) :
    tc.removeByKey key row = tc.removeRecordIndexes i row := by
  cases hdel : bptreeDelete tc.idIndex key with
  | none => simp only [removeByKey, removeRecordIndexes, hkey, hdel]
  | some tree => simp only [removeByKey, removeRecordIndexes, hkey, hdel]

/-! ## The operations for the log -/

theorem rowIndexKey_setSlot {i j : Nat} {slot old : Slot} (hi : tc.slots[i]? = some old)
    (hid : slot.rowId = old.rowId) (row : Bytes) :
    (tc.setSlot i slot).rowIndexKey row j = tc.rowIndexKey row j := by
  have hids : ((tc.slots.set i slot)[j]?).map Slot.rowId = (tc.slots[j]?).map Slot.rowId := by
    rw [List.getElem?_set]
    split
    · rename_i heq
      subst heq
      obtain ⟨hlt, hget⟩ := List.getElem?_eq_some_iff.1 hi
      rw [if_pos hlt, hi, Option.map_some, Option.map_some, hid]
    · rfl
  simp only [rowIndexKey, setSlot, hids]

theorem rowIndexKey_deactivateAll (slotIds : List Nat) (row : Bytes) (j : Nat) :
    ∀ tc : TableCache, (tc.deactivateAll slotIds).rowIndexKey row j = tc.rowIndexKey row j := by
  induction slotIds with
  | nil => exact fun _ => rfl
  | cons i rest ih =>
      intro tc
      unfold deactivateAll at ih ⊢
      rw [List.foldl_cons, ih]
      split
      · rename_i slot hslot
        split
        · exact @rowIndexKey_setSlot tc i j { slot with active := false } slot hslot rfl row
        · rfl
      · rfl

theorem appendDeletes_ok : ∀ {matched : List (Nat × Bytes)} {log : DeltaFile},
    (∀ e ∈ matched, (tc.rowIndexKey e.2 e.1).isSome = true) →
      (tc.appendDeletes matched log).2 = true
  | [], _, _ => rfl
  | (i, row) :: rest, log, h => by
      obtain ⟨id, hid⟩ := Option.isSome_iff_exists.1 (h (i, row) List.mem_cons_self)
      rw [appendDeletes, hid]
      exact appendDeletes_ok fun e he => h e (List.mem_cons_of_mem (i, row) he)

end TableCache

end MiniDbms.Legacy
