import MiniDbms.Legacy.Append
import MiniDbms.Legacy.Csv
import MiniDbms.Legacy.Entries
import MiniDbms.Legacy.Select
import Mathlib.Data.List.TakeWhile

/-!
# Loading up to a limit

`load_table_contents` without a delta log, with the number of rows that are kept in slots as a
parameter.  The first rows of the file are in slots and in the indexes, and the offsets of the
others in the tail index.
-/

namespace MiniDbms.Legacy

open Bptree

/-! ## The loop -/

namespace TableCache

/-- `append_record_raw_memory`. -/
def appendRecordUpTo (limit : Nat) (tc : TableCache) (rowId : Int) (offset : Nat) :
    Option TableCache :=
  if limit ≤ tc.slots.length then none
  else
    some { tc with
      slots := tc.slots ++ [{ active := true, rowId := rowId, store := .csv, offset := offset }]
      activeTally := tc.activeTally + 1 }

/-- A row of the file that has a number and a PK value, at an offset. -/
def scanRowUpTo (limit : Nat) (tc : TableCache) (id : Int) (row : Bytes) (offset : Nat) :
    Option TableCache :=
  let rowId := tc.nextRowId
  let key := if tc.schema.pkIdx.isSome then id else rowId
  let tc := { tc with nextRowId := rowId + 1 }
  if tc.activeCount < limit then do
    let tc' ← tc.appendRecordUpTo limit rowId offset
    tc'.indexLoadedRow key row tc.slots.length
  else
    some { tc with
      tail := insertTail key offset tc.tail
      uncachedStart := some (tc.uncachedStart.getD offset) }

end TableCache

/-- One round of the loop of `load_table_contents`. -/
def scanLineUpTo (limit : Nat) (scan : Scan) (line : Bytes) : Option Scan := do
  let row ← chomp RECORD_SIZE line
  let offset := scan.offset + line.length
  if row = [] then some { scan with offset := offset }
  else
    let id ← scanId scan.tc.schema row
    let tc ← scan.tc.scanRowUpTo limit id row scan.offset
    some
      { tc := tc
        offset := offset
        fileNextAutoId :=
          if scan.tc.schema.pkIdx.isSome ∧ scan.fileNextAutoId ≤ id then wrapL (id + 1)
          else scan.fileNextAutoId }

/-- `load_table_contents` with `limit` for `MAX_RECORDS`. -/
def loadUpTo (limit : Nat) (file : Bytes) : Option TableCache := do
  let scan ← (readLines RECORD_SIZE (fgets RECORD_SIZE file).2).foldlM (scanLineUpTo limit)
    ⟨openTable file, (fgets RECORD_SIZE file).1.length, 1⟩
  some (scan.tc.raiseAutoId scan.fileNextAutoId)

theorem loadTableContents_eq (file : Bytes) :
    loadTableContents file none = loadUpTo MAX_RECORDS file := rfl

/-! ## The rows of a file -/

/-- The rows of some lines with the offsets of these; a line that is too long cannot be
read. -/
def offsetRows : Nat → List Bytes → Option (List (Nat × Bytes))
  | _, [] => some []
  | offset, line :: lines =>
    match chomp RECORD_SIZE line with
    | none => none
    | some row => (offsetRows (offset + line.length) lines).map fun rows =>
        if row = [] then rows else (offset, row) :: rows

/-- The rows of a file with their offsets. -/
def placedRows (file : Bytes) : Option (List (Nat × Bytes)) :=
  offsetRows (fgets RECORD_SIZE file).1.length (readLines RECORD_SIZE (fgets RECORD_SIZE file).2)

theorem offsetRows_cons {offset : Nat} {line : Bytes} {lines : List Bytes}
    {rows : List (Nat × Bytes)} (h : offsetRows offset (line :: lines) = some rows) :
    ∃ row rest, chomp RECORD_SIZE line = some row ∧
      offsetRows (offset + line.length) lines = some rest ∧
        rows = if row = [] then rest else (offset, row) :: rest := by
  rw [offsetRows] at h
  cases hrow : chomp RECORD_SIZE line with
  | none =>
      rw [hrow] at h
      cases h
  | some row =>
      rw [hrow] at h
      obtain ⟨rest, hrest, rfl⟩ := Option.map_eq_some_iff.1 h
      exact ⟨row, rest, rfl, hrest, rfl⟩

theorem lineRows_eq : ∀ {lines : List Bytes} {offset : Nat} {rows : List (Nat × Bytes)},
    offsetRows offset lines = some rows → lineRows lines = rows.map Prod.snd
  | [], _, _, h => by
      cases h
      rfl
  | line :: lines, offset, rows, h => by
      obtain ⟨row, rest, hrow, hrest, rfl⟩ := offsetRows_cons h
      rw [lineRows, hrow]
      simp only [lineRows_eq hrest]
      split <;> rfl

theorem offsetRows_split : ∀ {lines : List Bytes} {offset : Nat} {rows A B : List (Nat × Bytes)}
    {e : Nat × Bytes}, offsetRows offset lines = some rows → rows = A ++ e :: B →
      ∃ before line after, lines = before ++ line :: after ∧
        e.1 = offset + before.flatten.length ∧ chomp RECORD_SIZE line = some e.2 ∧ e.2 ≠ [] ∧
          offsetRows (e.1 + line.length) after = some B
  | [], _, rows, A, B, e, h, hrows => by
      cases h
      exact absurd hrows.symm (by simp)
  | line :: lines, offset, rows, A, B, e, h, hrows => by
      obtain ⟨row, rest, hrow, hrest, rfl⟩ := offsetRows_cons h
      have hlater : ∀ A', rest = A' ++ e :: B → ∃ before line' after,
          line :: lines = before ++ line' :: after ∧ e.1 = offset + before.flatten.length ∧
            chomp RECORD_SIZE line' = some e.2 ∧ e.2 ≠ [] ∧
              offsetRows (e.1 + line'.length) after = some B := by
        intro A' hA
        obtain ⟨before, line', after, hlines, hoffset, hchomp⟩ := offsetRows_split hrest hA
        refine ⟨line :: before, line', after, by rw [hlines, List.cons_append], ?_, hchomp⟩
        rw [hoffset, List.flatten_cons, List.length_append, Nat.add_assoc]
      split at hrows
      · exact hlater A hrows
      · rename_i hne
        cases A with
        | nil =>
            obtain ⟨rfl, rfl⟩ := List.cons.inj hrows
            exact ⟨[], line, lines, rfl, rfl, hrow, hne, hrest⟩
        | cons a A => exact hlater A (List.cons.inj hrows).2

theorem fgets_append (size : Nat) (file : Bytes) :
    (fgets size file).1 ++ (fgets size file).2 = file := by
  unfold fgets
  simp only
  split
  · exact List.take_append_drop _ _
  · have hfirst : (file.take (size - 1)).takeWhile (· != 10) <+: file :=
      (List.takeWhile_prefix _).trans (List.take_prefix _ _)
    conv_lhs => rw [List.prefix_iff_eq_take.1 hfirst]
    simp only [List.length_take, Nat.min_eq_left hfirst.length_le]
    exact List.take_append_drop _ _

theorem length_fgets_le (size : Nat) (file : Bytes) : (fgets size file).1.length ≤ size - 1 := by
  unfold fgets
  simp only
  split
  · rename_i hshort
    exact (List.length_take_le _ _).trans hshort
  · exact (List.takeWhile_prefix _).length_le.trans (List.length_take_le _ _)

theorem readLines_drop {size : Nat} (hsize : 1 < size) : ∀ {before after : List Bytes} {file : Bytes},
    readLines size file = before ++ after →
      readLines size (file.drop before.flatten.length) = after
  | [], _, _, h => h
  | line :: before, after, file, h => by
      by_cases hfile : file = []
      · rw [hfile, readLines_nil] at h
        cases h
      · rw [readLines_cons hfile hsize, List.cons_append] at h
        obtain ⟨rfl, hrest⟩ := List.cons.inj h
        rw [List.flatten_cons, List.length_append, ← List.drop_drop]
        have hdrop : file.drop (fgets size file).1.length = (fgets size file).2 := by
          have hleft := @List.drop_left _ (fgets size file).1 (fgets size file).2
          rwa [fgets_append] at hleft
        rw [hdrop]
        exact readLines_drop hsize hrest

theorem fgets_fst_ne_nil {size : Nat} (hsize : 1 < size) {file : Bytes} (hfile : file ≠ []) :
    (fgets size file).1 ≠ [] := by
  obtain ⟨c, rest, rfl⟩ := List.exists_cons_of_ne_nil hfile
  unfold fgets
  simp only
  split
  · simp
  · rename_i hfull
    intro hnil
    simp only at hnil
    rw [hnil, List.length_nil] at hfull
    omega

/-! ## Reading a row again -/

/-- What is left of a text in front of a NUL or a line end. -/
def cut (s : Bytes) : Bytes := s.takeWhile fun c => c != 0 && !isLineEnd c

theorem takeWhile_cstr (s : Bytes) : (cstr s).takeWhile (!isLineEnd ·) = cut s := by
  unfold cstr cut
  rw [List.takeWhile_takeWhile]
  congr 1
  funext c
  rw [Bool.eq_iff_iff]
  simp [and_comm]

theorem cstr_takeWhile (s : Bytes) : cstr (s.takeWhile (!isLineEnd ·)) = cut s := by
  unfold cstr cut
  rw [List.takeWhile_takeWhile]
  congr 1
  funext c
  rw [Bool.eq_iff_iff]
  simp

theorem cut_take (n : Nat) (s : Bytes) : cut (s.take n) = (cut s).take n :=
  List.take_takeWhile.symm

theorem cut_take_of_le {n : Nat} {s : Bytes} (h : (cut s).length ≤ n) : cut (s.take n) = cut s := by
  rw [cut_take, List.take_of_length_le h]

theorem length_cut_le (s : Bytes) : (cut s).length ≤ (s.takeWhile (!isLineEnd ·)).length := by
  rw [← cstr_takeWhile]
  exact (List.takeWhile_sublist _).length_le

theorem cut_plain (s : Bytes) : PlainLine (cut s) where
  noNul := by
    intro c hc
    have hkeep := List.mem_takeWhile_imp hc
    simp only [Bool.and_eq_true, bne_iff_ne] at hkeep
    exact hkeep.1
  noEnd := by
    rw [List.all_eq_true]
    intro c hc
    have hkeep := List.mem_takeWhile_imp hc
    rw [Bool.and_eq_true] at hkeep
    exact hkeep.2

theorem cut_fgets {s : Bytes} (h : (cut s).length ≤ RECORD_SIZE - 1) :
    cut (fgets RECORD_SIZE s).1 = cut s := by
  obtain ⟨n, hread, hn⟩ := fgets_fst RECORD_SIZE s
  rw [hread]
  apply cut_take_of_le
  have hfeed : (s.takeWhile (· != 10)).takeWhile (fun c => c != 0 && !isLineEnd c) = cut s := by
    rw [List.takeWhile_takeWhile]
    unfold cut isLineEnd
    congr 1
    funext c
    rw [Bool.eq_iff_iff]
    simp only [Bool.and_eq_true, Bool.not_eq_true', Bool.or_eq_false_iff, bne_iff_ne,
      beq_eq_false_iff_ne, decide_eq_true_eq]
    exact ⟨fun hc => hc.1, fun hc => ⟨hc, hc.2.1⟩⟩
  have hline : (cut s).length ≤ (s.takeWhile (· != 10)).length := by
    rw [← hfeed]
    exact (List.takeWhile_prefix _).length_le
  rw [← List.take_takeWhile, List.length_take] at hn
  omega

theorem chomp_fgets {s row : Bytes} (h : chomp RECORD_SIZE (fgets RECORD_SIZE s).1 = some row) :
    row = cut s ∧ cut (fgets RECORD_SIZE s).1 = cut s := by
  have hrow : row = cut (fgets RECORD_SIZE s).1 := by
    unfold chomp at h
    split at h
    · cases h
    · cases h
      exact takeWhile_cstr _
  have hwhole : cut (fgets RECORD_SIZE s).1 = cut s := by
    by_cases hshort : (cut s).length ≤ RECORD_SIZE - 1
    · exact cut_fgets hshort
    · -- the buffer is full then, and there is no line end in it
      exfalso
      have hlen : ((cut s).take (RECORD_SIZE - 1)).length = RECORD_SIZE - 1 := by
        rw [List.length_take]
        omega
      have hplain : PlainLine ((cut s).take (RECORD_SIZE - 1)) :=
        (cut_plain s).sub (List.take_subset _ _)
      obtain ⟨rest, hs⟩ : (cut s).take (RECORD_SIZE - 1) <+: s :=
        (List.take_prefix _ _).trans (List.takeWhile_prefix _)
      have hread := @fgets_full _ rest hplain.noFeed hlen
      rw [hs] at hread
      rw [hread, hplain.chomp_full hlen] at h
      cases h
  exact ⟨hrow.trans hwhole, hwhole⟩

/-- A row that `fgets` reads whole is found at its offset, by the page or by `fgets`. -/
theorem rowAt_of_cut {file : Bytes} {offset : Nat} (hin : offset < file.length)
    (hline : cut (fgets RECORD_SIZE (file.drop offset)).1 = cut (file.drop offset)) :
    rowAt file offset = some (cut (file.drop offset)) := by
  unfold rowAt
  rw [if_neg (Nat.not_le.2 hin)]
  simp only
  rw [Option.some_inj]
  generalize file.drop offset = s at hline
  generalize PAGE_CACHE_PAGE_SIZE - offset % PAGE_CACHE_PAGE_SIZE = room
  split
  · rw [cstr_takeWhile, hline]
  · rename_i hroom
    rw [cstr_takeWhile]
    apply cut_take_of_le
    rw [← List.take_takeWhile, List.length_take] at hroom
    have hlen := length_cut_le s
    omega

theorem placedRows_at {file : Bytes} {rows A B : List (Nat × Bytes)} {e : Nat × Bytes}
    (h : placedRows file = some rows) (hrows : rows = A ++ e :: B) :
    0 < e.1 ∧ e.1 < file.length ∧
      chomp RECORD_SIZE (fgets RECORD_SIZE (file.drop e.1)).1 = some e.2 ∧ e.2 ≠ [] ∧
        lineRows (readLines RECORD_SIZE (file.drop e.1)) = e.2 :: B.map Prod.snd := by
  have hsize : 1 < RECORD_SIZE := by decide
  obtain ⟨before, line, after, hlines, hoffset, hrow, hne, hafter⟩ := offsetRows_split h hrows
  have hdrop : readLines RECORD_SIZE (file.drop e.1) = line :: after := by
    have hleft := @List.drop_left _ (fgets RECORD_SIZE file).1 (fgets RECORD_SIZE file).2
    rw [fgets_append] at hleft
    rw [hoffset, ← List.drop_drop, hleft]
    exact readLines_drop hsize hlines
  have hrest : file.drop e.1 ≠ [] := by
    intro hnil
    rw [hnil, readLines_nil] at hdrop
    cases hdrop
  have hin : e.1 < file.length := by
    by_contra hout
    exact hrest (List.drop_of_length_le (by omega))
  have hfile : file ≠ [] := by
    rintro rfl
    exact absurd hin (Nat.not_lt_zero _)
  have hheader := List.length_pos_iff.2 (fgets_fst_ne_nil hsize hfile)
  have hfirst := hdrop
  rw [readLines_cons hrest hsize] at hfirst
  obtain ⟨rfl, -⟩ := List.cons.inj hfirst
  refine ⟨by omega, hin, hrow, hne, ?_⟩
  rw [hdrop, lineRows, hrow]
  simp only
  rw [if_neg hne, lineRows_eq hafter]

/-! ## The state of the loop -/

/-- The key of the `i`-th row of a file in the id index. -/
def scanKey (schema : Schema) (row : Bytes) (i : Nat) : Int :=
  if schema.pkIdx.isSome then (scanId schema row).getD 0 else i + 1

/-- No two of these rows have one key. -/
def KeysDistinct {κ : Type} (rows : List Bytes) (keyOf : Bytes → Nat → Option κ) : Prop :=
  ∀ i j row row' key, rows[i]? = some row → rows[j]? = some row' → keyOf row i = some key →
    keyOf row' j = some key → i = j

/-- The ids of the rows are distinct, and their non-empty values in each UK column. -/
structure Distinct (schema : Schema) (rows : List Bytes) : Prop where
  id : KeysDistinct rows fun row i => some (scanKey schema row i)
  uk : ∀ col ∈ schema.ukIndices, KeysDistinct rows (ukEntryKey col)

/-- The slots of the first rows. -/
def slotsUpTo (limit : Nat) (rows : List (Nat × Bytes)) : List Slot :=
  (rows.take limit).zipIdx.map fun e =>
    { active := true, rowId := e.2 + 1, store := .csv, offset := e.1.1 }

/-- The texts of the first rows. -/
def cachedTexts (limit : Nat) (rows : List (Nat × Bytes)) : List Bytes :=
  (rows.take limit).map Prod.snd

/-- The first rows are in slots and in the indexes, the others in the tail index. -/
structure LoadedTo (limit : Nat) (csv : Bytes) (rows : List (Nat × Bytes)) (tc : TableCache) :
    Prop where
  file : tc.file = csv
  schema : tc.schema = (openTable csv).schema
  slots : tc.slots = slotsUpTo limit rows
  free : tc.freeSlots = []
  next : tc.nextRowId = rows.length + 1
  tail : tc.tail.Perm ((rows.zipIdx.drop limit).map fun e => (scanKey tc.schema e.1.2 e.2, e.1.1))
  sorted : tc.tail.Pairwise fun a b => a.1 ≤ b.1
  start : tc.uncachedStart = (rows[limit]?).map Prod.fst
  pos : tc.writePos = none
  cols : tc.ukIndexes.map UniqueIndex.colIdx = tc.schema.ukIndices
  id : ∃ m, Holds tc.idIndex m ∧ Entries m (fun i row => (cachedTexts limit rows)[i]? = some row)
    fun row i => some (scanKey tc.schema row i)
  uk : ∀ index ∈ tc.ukIndexes, ∃ m, Holds index.tree m ∧
    Entries m (fun i row => (cachedTexts limit rows)[i]? = some row) (ukEntryKey index.colIdx)

/-! ## One more row -/

section Rows

variable {κ : Type} {m : κ → Option Nat} {rows : List Bytes} {keyOf : Bytes → Nat → Option κ}

theorem Entries.distinct (h : Entries m (fun i row => rows[i]? = some row) keyOf) :
    KeysDistinct rows keyOf := by
  intro i j row row' key hrow hrow' hkey hkey'
  have hi := (h key i).2 ⟨row, hrow, hkey⟩
  have hj := (h key j).2 ⟨row', hrow', hkey'⟩
  exact Option.some.inj (hi.symm.trans hj)

theorem Entries.taken (h : Entries m (fun i row => rows[i]? = some row) keyOf) {row : Bytes}
    {key : κ} (hkey : keyOf row rows.length = some key) (htaken : (m key).isSome = true) :
    ¬ KeysDistinct (rows ++ [row]) keyOf := by
  intro hdistinct
  obtain ⟨i, hi⟩ := Option.isSome_iff_exists.1 htaken
  obtain ⟨row', hrow', hkey'⟩ := (h key i).1 hi
  have hlt := (List.getElem?_eq_some_iff.1 hrow').1
  have hold : (rows ++ [row])[i]? = some row' := by
    rw [List.getElem?_append_left hlt]
    exact hrow'
  have hnew : (rows ++ [row])[rows.length]? = some row := by simp
  exact absurd (hdistinct i rows.length row' row key hold hnew hkey' hkey) (Nat.ne_of_lt hlt)

theorem getElem?_concat_eq_some {i : Nat} {row row' : Bytes} :
    (rows ++ [row])[i]? = some row' ↔ rows[i]? = some row' ∨ (i = rows.length ∧ row' = row) := by
  obtain hlt | heq | hgt := lt_trichotomy i rows.length
  · rw [List.getElem?_append_left hlt]
    exact ⟨Or.inl, fun h => h.resolve_right fun hi => Nat.ne_of_lt hlt hi.1⟩
  · subst heq
    simp [eq_comm]
  · rw [List.getElem?_eq_none (by rw [List.length_append, List.length_singleton]; omega),
      List.getElem?_eq_none (by omega)]
    simp only [reduceCtorEq, false_or, false_iff]
    omega

theorem Entries.skip (h : Entries m (fun i row => rows[i]? = some row) keyOf) {row : Bytes}
    (hkey : keyOf row rows.length = none) :
    Entries m (fun i row' => (rows ++ [row])[i]? = some row') keyOf := by
  intro key i
  rw [h key i]
  simp only [getElem?_concat_eq_some]
  constructor
  · rintro ⟨row', hrow', hkey'⟩
    exact ⟨row', Or.inl hrow', hkey'⟩
  · rintro ⟨row', hrow' | ⟨rfl, rfl⟩, hkey'⟩
    · exact ⟨row', hrow', hkey'⟩
    · rw [hkey] at hkey'
      cases hkey'

theorem Entries.append [LinearOrder κ] (h : Entries m (fun i row => rows[i]? = some row) keyOf)
    {row : Bytes} {key : κ} (hkey : keyOf row rows.length = some key) (hfree : m key = none) :
    Entries (put m key (some rows.length)) (fun i row' => (rows ++ [row])[i]? = some row')
      keyOf := by
  intro key' i
  simp only [getElem?_concat_eq_some]
  by_cases heq : key' = key
  · subst heq
    rw [put_self, Option.some.injEq]
    constructor
    · rintro rfl
      exact ⟨row, Or.inr ⟨rfl, rfl⟩, hkey⟩
    · rintro ⟨row', hrow' | ⟨rfl, rfl⟩, hkey'⟩
      · have hold := (h key' i).2 ⟨row', hrow', hkey'⟩
        rw [hfree] at hold
        cases hold
      · rfl
  · rw [put_of_ne heq, h key' i]
    constructor
    · rintro ⟨row', hrow', hkey'⟩
      exact ⟨row', Or.inl hrow', hkey'⟩
    · rintro ⟨row', hrow' | ⟨rfl, rfl⟩, hkey'⟩
      · exact ⟨row', hrow', hkey'⟩
      · rw [hkey] at hkey'
        exact absurd (Option.some.inj hkey').symm heq

end Rows

theorem insertTail_perm (id : Int) (offset : Nat) (tail : List (Int × Nat)) :
    (insertTail id offset tail).Perm ((id, offset) :: tail) := by
  unfold insertTail
  refine List.perm_middle.trans ((List.perm_cons _).2 ?_)
  rw [List.rdropWhile_append_rtakeWhile]

theorem insertTail_sorted {id : Int} {offset : Nat} {tail : List (Int × Nat)}
    (h : tail.Pairwise fun a b => a.1 ≤ b.1) :
    (insertTail id offset tail).Pairwise fun a b => a.1 ≤ b.1 := by
  have hsplit : tail.rdropWhile (id < ·.1) ++ tail.rtakeWhile (id < ·.1) = tail :=
    List.rdropWhile_append_rtakeWhile
  unfold insertTail
  generalize hfront : tail.rdropWhile (id < ·.1) = front at hsplit ⊢
  generalize hback : tail.rtakeWhile (id < ·.1) = back at hsplit ⊢
  rw [← hsplit, List.pairwise_append] at h
  obtain ⟨hf, hb, hfb⟩ := h
  have hle : ∀ a ∈ front, a.1 ≤ id := by
    intro a ha
    have hne : front ≠ [] := List.ne_nil_of_mem ha
    obtain ⟨init, z, rfl⟩ := List.eq_nil_or_concat front |>.resolve_left hne
    have hz : z.1 ≤ id := by
      have hlast := List.rdropWhile_last_not (fun e : Int × Nat => decide (id < e.1)) tail
        (by rw [hfront]; exact hne)
      simp only [hfront, List.concat_eq_append, List.getLast_append_singleton,
        decide_eq_true_eq, not_lt] at hlast
      exact hlast
    rw [List.concat_eq_append, List.pairwise_append] at hf
    rw [List.concat_eq_append] at ha
    obtain ha | ha := List.mem_append.1 ha
    · exact (hf.2.2 a ha z (List.mem_singleton_self z)).trans hz
    · rw [List.mem_singleton.1 ha]
      exact hz
  have hlt : ∀ b ∈ back, id < b.1 := by
    intro b hb
    rw [← hback] at hb
    simpa using List.mem_rtakeWhile_imp hb
  rw [List.pairwise_append, List.pairwise_cons]
  refine ⟨hf, ⟨fun b hb => (hlt b hb).le, hb⟩, fun a ha b hb => ?_⟩
  obtain rfl | hb := List.mem_cons.1 hb
  · exact hle a ha
  · exact hfb a ha b hb

theorem length_slotsUpTo (limit : Nat) (rows : List (Nat × Bytes)) :
    (slotsUpTo limit rows).length = min limit rows.length := by
  simp [slotsUpTo]

theorem length_cachedTexts (limit : Nat) (rows : List (Nat × Bytes)) :
    (cachedTexts limit rows).length = min limit rows.length := by
  simp [cachedTexts]

theorem slotsUpTo_active {limit : Nat} {rows : List (Nat × Bytes)} {slot : Slot}
    (h : slot ∈ slotsUpTo limit rows) : slot.active = true := by
  obtain ⟨e, -, rfl⟩ := List.mem_map.1 h
  rfl

namespace LoadedTo

variable {limit : Nat} {csv : Bytes} {rows : List (Nat × Bytes)} {tc : TableCache}

theorem activeCount (h : LoadedTo limit csv rows tc) : tc.activeCount = min limit rows.length := by
  rw [TableCache.activeCount, h.slots, ← length_slotsUpTo, List.countP_eq_length]
  exact fun slot hslot => slotsUpTo_active hslot

theorem slotIsActive (h : LoadedTo limit csv rows tc) {i : Nat} (hi : i < limit)
    (hlen : i < rows.length) : tc.slotIsActive i = true := by
  unfold TableCache.slotIsActive
  rw [h.slots]
  have hlt : i < (slotsUpTo limit rows).length := by
    rw [length_slotsUpTo]
    omega
  rw [List.getElem?_eq_getElem hlt, Option.any_some]
  exact slotsUpTo_active (List.getElem_mem hlt)

theorem distinct (h : LoadedTo limit csv rows tc) :
    Distinct tc.schema (cachedTexts limit rows) where
  id := by
    obtain ⟨m, -, hm⟩ := h.id
    exact hm.distinct
  uk := by
    intro col hcol
    rw [← h.cols] at hcol
    obtain ⟨index, hindex, rfl⟩ := List.mem_map.1 hcol
    obtain ⟨m, -, hm⟩ := h.uk index hindex
    exact hm.distinct

end LoadedTo

/-! ## The entries of one more row -/

namespace TableCache

variable {tc : TableCache} {texts : List Bytes}

theorem entered_uk {row : Bytes} {j : Nat} {tc' : TableCache}
    (huk : ∀ index ∈ tc.ukIndexes, ∃ m, Holds index.tree m ∧
      Entries m (fun i r => texts[i]? = some r) (ukEntryKey index.colIdx))
    (hactive : ∀ i < texts.length, tc.slotIsActive i = true)
    (hentered : EnteredTo tc row texts.length j tc') (hlen : tc.ukIndexes.length ≤ j)
    (hfree : ∀ i, ¬ tc.Clash row texts.length i) :
    ∀ index ∈ tc'.ukIndexes, ∃ m, Holds index.tree m ∧
      Entries m (fun i r => (texts ++ [row])[i]? = some r) (ukEntryKey index.colIdx) := by
  intro index hindex
  obtain ⟨i, hi⟩ := List.mem_iff_getElem?.1 hindex
  have hcol := hentered.cols i
  rw [hi, Option.map_some] at hcol
  obtain ⟨old, hold, heq⟩ := Option.map_eq_some_iff.1 hcol.symm
  obtain ⟨m, hm, hentries⟩ := huk old (List.mem_of_getElem? hold)
  obtain ⟨m', hm'⟩ := hentered.trees index hindex
  have hij : i < j := lt_of_lt_of_le (List.getElem?_eq_some_iff.1 hold).1 hlen
  have hentry : tc.ukEntry row i = ukKey row old.colIdx := by
    unfold ukEntry
    rw [hold]
    rfl
  have hsearch : ∀ key, tc.ukSearch i key = m key := fun key => by
    unfold ukSearch
    rw [hold, Option.bind_some, hm.search_eq]
  have hmap : ∀ key, m' key =
      if key = ukKey row old.colIdx ∧ key ≠ [] then some texts.length else m key := by
    intro key
    have hnew := hentered.search i key
    rw [hentry, hsearch] at hnew
    unfold ukSearch at hnew
    rw [hi, Option.bind_some, hm'.search_eq] at hnew
    rw [hnew]
    exact if_congr (and_iff_right hij) rfl rfl
  refine ⟨m', hm', ?_⟩
  rw [← heq]
  by_cases hempty : ukKey row old.colIdx = []
  · have hsame : m' = m := by
      funext key
      rw [hmap, if_neg]
      rintro ⟨rfl, hne⟩
      exact hne hempty
    rw [hsame]
    exact hentries.skip (if_pos hempty)
  · have habsent : m (ukKey row old.colIdx) = none := by
      refine Option.eq_none_iff_forall_ne_some.2 fun other hother => hfree i ?_
      obtain ⟨r, hr, -⟩ := (hentries _ other).1 hother
      have hlt := (List.getElem?_eq_some_iff.1 hr).1
      refine ⟨by rw [hentry]; exact hempty, other, ?_, Nat.ne_of_lt hlt, hactive other hlt⟩
      rw [hentry, hsearch, hother]
    have hput : m' = put m (ukKey row old.colIdx) (some texts.length) := by
      funext key
      rw [hmap]
      by_cases hkey : key = ukKey row old.colIdx
      · subst hkey
        rw [if_pos ⟨rfl, hempty⟩, put_self]
      · rw [if_neg fun hc => hkey hc.1, put_of_ne hkey]
    rw [hput]
    exact hentries.append (if_neg hempty) habsent

/-- The entries of a row are made when its keys are new, and otherwise the row is refused. -/
theorem indexLoadedRow_spec {idKey : Bytes → Nat → Option Int}
    (hid : ∃ m, Holds tc.idIndex m ∧ Entries m (fun i r => texts[i]? = some r) idKey)
    (huk : ∀ index ∈ tc.ukIndexes, ∃ m, Holds index.tree m ∧
      Entries m (fun i r => texts[i]? = some r) (ukEntryKey index.colIdx))
    (hactive : ∀ i < texts.length, tc.slotIsActive i = true) {row : Bytes} {key : Int}
    (hkey : idKey row texts.length = some key) :
    (∃ tree uks, tc.indexLoadedRow key row texts.length =
        some { tc with idIndex := tree, ukIndexes := uks } ∧
      uks.map UniqueIndex.colIdx = tc.ukIndexes.map UniqueIndex.colIdx ∧
      (∃ m, Holds tree m ∧ Entries m (fun i r => (texts ++ [row])[i]? = some r) idKey) ∧
      ∀ index ∈ uks, ∃ m, Holds index.tree m ∧
        Entries m (fun i r => (texts ++ [row])[i]? = some r) (ukEntryKey index.colIdx)) ∨
    (tc.indexLoadedRow key row texts.length = none ∧
      (¬ KeysDistinct (texts ++ [row]) idKey ∨
        ∃ index ∈ tc.ukIndexes, ¬ KeysDistinct (texts ++ [row]) (ukEntryKey index.colIdx))) := by
  obtain ⟨m, hm, hentries⟩ := hid
  have hspec := hm.insertWith firstOfRight_ok key texts.length
  unfold indexLoadedRow bptreeInsert
  cases hins : insertWith firstOfRight tc.idIndex key texts.length with
  | none =>
      rw [hins] at hspec
      exact Or.inr ⟨rfl, Or.inl (hentries.taken hkey hspec)⟩
  | some tree =>
      rw [hins] at hspec
      obtain ⟨habsent, htree⟩ := hspec
      obtain ⟨j, tc', hentered, -, ⟨hok, hlen, hfree⟩ | ⟨hfail, hclash⟩⟩ :=
        @indexRecordUksFromRow_spec { tc with idIndex := tree }
          (fun index hindex => (huk index hindex).imp fun _ h => h.1) row texts.length
      · refine Or.inl ⟨tree, tc'.ukIndexes, ?_, ?_, ⟨_, htree, hentries.append hkey habsent⟩, ?_⟩
        · simp only [hok, succeeded]
          exact congrArg some hentered.rest
        · apply List.ext_getElem?
          intro i
          rw [List.getElem?_map, List.getElem?_map]
          exact hentered.cols i
        · exact @entered_uk { tc with idIndex := tree } texts row j tc' huk hactive hentered hlen
            hfree
      · refine Or.inr ⟨by simp only [hfail, succeeded], Or.inr ?_⟩
        obtain ⟨hne, other, hother, -⟩ := hclash
        unfold ukSearch at hother
        obtain ⟨index, hindex, hfound⟩ := Option.bind_eq_some_iff.1 hother
        have hmem := List.mem_of_getElem? hindex
        obtain ⟨m', hm', hentries'⟩ := huk index hmem
        have hentry : ({ tc with idIndex := tree } : TableCache).ukEntry row j =
            ukKey row index.colIdx := by
          unfold ukEntry
          simp only at hindex ⊢
          rw [hindex]
          rfl
        rw [hentry] at hne hfound
        rw [hm'.search_eq] at hfound
        exact ⟨index, hmem, hentries'.taken (if_neg hne) (by rw [hfound]; rfl)⟩

end TableCache

/-! ## The run -/

theorem slotsUpTo_concat {limit : Nat} {rows : List (Nat × Bytes)} (h : rows.length < limit)
    (e : Nat × Bytes) : slotsUpTo limit (rows ++ [e]) = slotsUpTo limit rows ++
      [{ active := true, rowId := rows.length + 1, store := .csv, offset := e.1 }] := by
  unfold slotsUpTo
  rw [List.take_of_length_le (by simp; omega), List.take_of_length_le (by omega),
    List.zipIdx_append, List.map_append]
  simp

theorem cachedTexts_concat {limit : Nat} {rows : List (Nat × Bytes)} (h : rows.length < limit)
    (e : Nat × Bytes) : cachedTexts limit (rows ++ [e]) = cachedTexts limit rows ++ [e.2] := by
  unfold cachedTexts
  rw [List.take_of_length_le (by simp; omega), List.take_of_length_le (by omega), List.map_append]
  rfl

theorem take_concat_full {limit : Nat} {rows : List (Nat × Bytes)} (h : limit ≤ rows.length)
    (e : Nat × Bytes) : (rows ++ [e]).take limit = rows.take limit :=
  List.take_append_of_le_length h

namespace LoadedTo

variable {limit : Nat} {csv : Bytes} {rows : List (Nat × Bytes)} {tc : TableCache}

theorem key (h : LoadedTo limit csv rows tc) {id : Int} {row : Bytes}
    (hid : scanId tc.schema row = some id) :
    (if tc.schema.pkIdx.isSome then id else tc.nextRowId) = scanKey tc.schema row rows.length := by
  unfold scanKey
  rw [hid, h.next]
  rfl

theorem cacheRow (h : LoadedTo limit csv rows tc) (hroom : rows.length < limit) {id : Int}
    {row : Bytes} (hid : scanId tc.schema row = some id) (offset : Nat) :
    (∃ tc', tc.scanRowUpTo limit id row offset = some tc' ∧
      LoadedTo limit csv (rows ++ [(offset, row)]) tc') ∨
    (tc.scanRowUpTo limit id row offset = none ∧
      ¬ Distinct tc.schema (cachedTexts limit (rows ++ [(offset, row)]))) := by
  have hlen : tc.slots.length = rows.length := by
    rw [h.slots, length_slotsUpTo]
    omega
  have htexts : (cachedTexts limit rows).length = rows.length := by
    rw [length_cachedTexts]
    omega
  let grown : TableCache :=
    { tc with
      nextRowId := tc.nextRowId + 1
      slots := tc.slots ++
        [{ active := true, rowId := tc.nextRowId, store := .csv, offset := offset }]
      activeTally := tc.activeTally + 1 }
  have hscan : tc.scanRowUpTo limit id row offset =
      grown.indexLoadedRow (scanKey tc.schema row rows.length) row
        (cachedTexts limit rows).length := by
    unfold TableCache.scanRowUpTo
    simp only
    have hcount : ({ tc with nextRowId := tc.nextRowId + 1 } : TableCache).activeCount < limit := by
      change tc.activeCount < limit
      rw [h.activeCount]
      omega
    rw [if_pos hcount]
    unfold TableCache.appendRecordUpTo
    rw [if_neg (by simp only; omega), h.key hid, htexts, ← hlen]
    rfl
  have hactive : ∀ i < (cachedTexts limit rows).length, grown.slotIsActive i = true := by
    intro i hi
    rw [htexts] at hi
    have hold := h.slotIsActive (hi.trans hroom) hi
    unfold TableCache.slotIsActive at hold ⊢
    simp only [grown]
    rwa [List.getElem?_append_left (by omega)]
  rw [hscan]
  obtain ⟨tree, uks, hindexed, hcols, hidIndex, huks⟩ | ⟨hrefused, hsame⟩ :=
    @TableCache.indexLoadedRow_spec grown (cachedTexts limit rows)
      (fun r i => some (scanKey tc.schema r i)) h.id h.uk hactive row _ (by rw [htexts])
  · refine Or.inl ⟨_, hindexed, h.file, h.schema, ?_, h.free, ?_, ?_, h.sorted, ?_, h.pos,
      hcols.trans h.cols, ?_, ?_⟩
    · rw [slotsUpTo_concat hroom, ← h.slots, ← h.next]
    · simp only [grown, h.next, List.length_append, List.length_singleton, Nat.cast_add,
        Nat.cast_one]
    · have hnil : rows.zipIdx.drop limit = [] := List.drop_of_length_le (by simp; omega)
      have hnil' : (rows ++ [(offset, row)]).zipIdx.drop limit = [] :=
        List.drop_of_length_le (by simp; omega)
      have htail := h.tail
      rw [hnil] at htail
      rw [hnil']
      exact htail
    · have hstart := h.start
      rw [List.getElem?_eq_none (by omega)] at hstart
      rw [List.getElem?_eq_none (by simp; omega)]
      exact hstart
    · rw [cachedTexts_concat hroom]
      exact hidIndex
    · rw [cachedTexts_concat hroom]
      exact huks
  · refine Or.inr ⟨hrefused, fun hdistinct => ?_⟩
    rw [cachedTexts_concat hroom] at hdistinct
    obtain hno | ⟨index, hindex, hno⟩ := hsame
    · exact hno hdistinct.id
    · refine hno (hdistinct.uk index.colIdx ?_)
      rw [← h.cols]
      exact List.mem_map_of_mem hindex

theorem tailRow (h : LoadedTo limit csv rows tc) (hfull : limit ≤ rows.length) {id : Int}
    {row : Bytes} (hid : scanId tc.schema row = some id) (offset : Nat) :
    ∃ tc', tc.scanRowUpTo limit id row offset = some tc' ∧
      LoadedTo limit csv (rows ++ [(offset, row)]) tc' := by
  have hcount : ¬ ({ tc with nextRowId := tc.nextRowId + 1 } : TableCache).activeCount < limit := by
    change ¬ tc.activeCount < limit
    rw [h.activeCount]
    omega
  unfold TableCache.scanRowUpTo
  simp only
  rw [if_neg hcount, h.key hid]
  have htexts : cachedTexts limit (rows ++ [(offset, row)]) = cachedTexts limit rows := by
    unfold cachedTexts
    rw [take_concat_full hfull]
  refine ⟨_, rfl, h.file, h.schema, ?_, h.free, ?_, ?_, insertTail_sorted h.sorted, ?_, h.pos,
    h.cols, by rw [htexts]; exact h.id, by rw [htexts]; exact h.uk⟩
  · unfold slotsUpTo
    rw [take_concat_full hfull]
    exact h.slots
  · simp only [h.next, List.length_append, List.length_singleton, Nat.cast_add, Nat.cast_one]
  · have hdrop : (rows ++ [(offset, row)]).zipIdx.drop limit =
        rows.zipIdx.drop limit ++ [((offset, row), rows.length)] := by
      rw [List.zipIdx_append, List.drop_append_of_le_length (by simp; omega)]
      simp
    rw [hdrop, List.map_append]
    refine (insertTail_perm _ _ _).trans ?_
    exact ((h.tail.cons _).trans (List.perm_append_singleton _ _).symm)
  · simp only [h.start]
    obtain hlt | heq := Nat.lt_or_eq_of_le hfull
    · rw [List.getElem?_append_left hlt, List.getElem?_eq_getElem hlt]
      rfl
    · rw [heq]
      simp

theorem start_openTable (limit : Nat) (csv : Bytes) : LoadedTo limit csv [] (openTable csv) where
  file := rfl
  schema := rfl
  slots := by simp [slotsUpTo, openTable]
  free := rfl
  next := rfl
  tail := by simp [openTable]
  sorted := List.Pairwise.nil
  start := rfl
  pos := rfl
  cols := by simp [openTable, Function.comp_def]
  id := ⟨_, holds_create Int, fun key i => by simp [cachedTexts]⟩
  uk := by
    intro index hindex
    obtain ⟨col, -, rfl⟩ := List.mem_map.1 hindex
    exact ⟨_, holds_create Bytes, fun key i => by simp [cachedTexts]⟩

theorem line {scan scan' : Scan} (h : LoadedTo limit csv rows scan.tc) {line : Bytes}
    (hline : scanLineUpTo limit scan line = some scan') :
    ∃ row, chomp RECORD_SIZE line = some row ∧ scan'.offset = scan.offset + line.length ∧
      (row ≠ [] → (scanId (openTable csv).schema row).isSome = true) ∧
      LoadedTo limit csv (rows ++ if row = [] then [] else [(scan.offset, row)]) scan'.tc := by
  obtain ⟨row, hrow, hline⟩ := Option.bind_eq_some_iff.1 hline
  refine ⟨row, hrow, ?_⟩
  by_cases hnil : row = []
  · simp only [if_pos hnil] at hline ⊢
    cases hline
    rw [List.append_nil]
    exact ⟨rfl, fun hne => absurd hnil hne, h⟩
  · simp only [if_neg hnil] at hline ⊢
    obtain ⟨id, hid, hline⟩ := Option.bind_eq_some_iff.1 hline
    obtain ⟨tc, htc, hline⟩ := Option.bind_eq_some_iff.1 hline
    cases hline
    refine ⟨rfl, fun _ => by rw [← h.schema, hid]; rfl, ?_⟩
    by_cases hroom : rows.length < limit
    · obtain ⟨tc', htc', hloaded⟩ | ⟨hnone, -⟩ := h.cacheRow hroom hid scan.offset
      · rw [htc] at htc'
        cases htc'
        exact hloaded
      · rw [htc] at hnone
        cases hnone
    · obtain ⟨tc', htc', hloaded⟩ := h.tailRow (Nat.le_of_not_lt hroom) hid scan.offset
      rw [htc] at htc'
      cases htc'
      exact hloaded

theorem lines : ∀ {lines : List Bytes} {rows : List (Nat × Bytes)} {scan scan' : Scan},
    LoadedTo limit csv rows scan.tc → lines.foldlM (scanLineUpTo limit) scan = some scan' →
      ∃ more, offsetRows scan.offset lines = some more ∧
        (∀ e ∈ more, (scanId (openTable csv).schema e.2).isSome = true) ∧
        LoadedTo limit csv (rows ++ more) scan'.tc
  | [], rows, scan, scan', h, hfold => by
      cases hfold
      exact ⟨[], rfl, by simp, by rw [List.append_nil]; exact h⟩
  | l :: ls, rows, scan, scan', h, hfold => by
      rw [List.foldlM_cons] at hfold
      obtain ⟨next, hnext, hfold⟩ := Option.bind_eq_some_iff.1 hfold
      obtain ⟨row, hrow, hoffset, hid, hloaded⟩ := h.line hnext
      obtain ⟨more, hmore, hids, hlast⟩ := LoadedTo.lines hloaded hfold
      rw [hoffset] at hmore
      rw [List.append_assoc] at hlast
      refine ⟨if row = [] then more else (scan.offset, row) :: more,
        by rw [offsetRows, hrow, hmore]; rfl, ?_, ?_⟩
      · split
        · exact hids
        · rename_i hne
          exact List.forall_mem_cons.2 ⟨hid hne, hids⟩
      · split at hlast
        · rename_i hnil
          rw [if_pos hnil]
          exact hlast
        · rename_i hne
          rw [if_neg hne]
          exact hlast

end LoadedTo

theorem KeysDistinct.front {κ : Type} {rows rows' : List Bytes}
    {keyOf : Bytes → Nat → Option κ} (h : KeysDistinct rows' keyOf) (hpre : rows <+: rows') :
    KeysDistinct rows keyOf := by
  have hget : ∀ {i : Nat} {row : Bytes}, rows[i]? = some row → rows'[i]? = some row := by
    intro i row hi
    obtain ⟨more, rfl⟩ := hpre
    rw [List.getElem?_append_left (List.getElem?_eq_some_iff.1 hi).1]
    exact hi
  exact fun i j row row' key hi hj => h i j row row' key (hget hi) (hget hj)

theorem Distinct.front {schema : Schema} {rows rows' : List Bytes} (h : Distinct schema rows')
    (hpre : rows <+: rows') : Distinct schema rows :=
  ⟨h.id.front hpre, fun col hcol => (h.uk col hcol).front hpre⟩

theorem cachedTexts_prefix {limit : Nat} {rows rows' : List (Nat × Bytes)} (h : rows <+: rows') :
    cachedTexts limit rows <+: cachedTexts limit rows' :=
  (h.take limit).map Prod.snd

theorem LoadedTo.lines_exists {limit : Nat} {csv : Bytes} : ∀ {lines : List Bytes}
    {rows more : List (Nat × Bytes)} {scan : Scan}, LoadedTo limit csv rows scan.tc →
      offsetRows scan.offset lines = some more →
      (∀ e ∈ more, (scanId (openTable csv).schema e.2).isSome = true) →
      Distinct (openTable csv).schema (cachedTexts limit (rows ++ more)) →
        ∃ scan', lines.foldlM (scanLineUpTo limit) scan = some scan'
  | [], _, _, scan, _, _, _, _ => ⟨scan, rfl⟩
  | l :: ls, rows, more, scan, h, hmore, hids, hdistinct => by
      obtain ⟨row, rest, hrow, hrest, rfl⟩ := offsetRows_cons hmore
      have hstep : ∃ next, scanLineUpTo limit scan l = some next := by
        unfold scanLineUpTo
        rw [hrow]
        simp only [Option.bind_eq_bind, Option.bind_some]
        by_cases hnil : row = []
        · rw [if_pos hnil]
          exact ⟨_, rfl⟩
        · rw [if_neg hnil]
          rw [if_neg hnil] at hids hdistinct
          obtain ⟨id, hid⟩ := Option.isSome_iff_exists.1 (hids (scan.offset, row) List.mem_cons_self)
          have hid' : scanId scan.tc.schema row = some id := by
            rw [h.schema]
            exact hid
          rw [hid']
          simp only [Option.bind_some]
          by_cases hroom : rows.length < limit
          · obtain ⟨tc', htc', -⟩ | ⟨-, hno⟩ := h.cacheRow hroom hid' scan.offset
            · rw [htc']
              exact ⟨_, rfl⟩
            · exact absurd (hdistinct.front ( cachedTexts_prefix ⟨rest, by simp⟩)) (h.schema ▸ hno)
          · obtain ⟨tc', htc', -⟩ := h.tailRow (Nat.le_of_not_lt hroom) hid' scan.offset
            rw [htc']
            exact ⟨_, rfl⟩
      obtain ⟨next, hnext⟩ := hstep
      obtain ⟨row', hrow', hoffset, -, hloaded⟩ := h.line hnext
      rw [hrow] at hrow'
      cases hrow'
      rw [← hoffset] at hrest
      have hids' : ∀ e ∈ rest, (scanId (openTable csv).schema e.2).isSome = true := by
        intro e he
        refine hids e ?_
        split
        · exact he
        · exact List.mem_cons_of_mem _ he
      have hdistinct' : Distinct (openTable csv).schema
          (cachedTexts limit ((rows ++ if row = [] then [] else [(scan.offset, row)]) ++ rest)) := by
        rw [List.append_assoc]
        split
        · rename_i hnil
          rw [if_pos hnil] at hdistinct
          exact hdistinct
        · rename_i hne
          rw [if_neg hne] at hdistinct
          exact hdistinct
      obtain ⟨scan', hscan'⟩ := LoadedTo.lines_exists hloaded hrest hids' hdistinct'
      exact ⟨scan', by rw [List.foldlM_cons, hnext]; exact hscan'⟩

theorem loadUpTo_some {limit : Nat} {file : Bytes} {tc : TableCache}
    (h : loadUpTo limit file = some tc) :
    ∃ rows, placedRows file = some rows ∧
      (∀ e ∈ rows, (scanId (openTable file).schema e.2).isSome = true) ∧
      LoadedTo limit file rows tc := by
  obtain ⟨scan, hscan, h⟩ := Option.bind_eq_some_iff.1 h
  cases h
  obtain ⟨rows, hrows, hids, hloaded⟩ := LoadedTo.lines (LoadedTo.start_openTable limit file) hscan
  exact ⟨rows, hrows, hids, { hloaded with }⟩

/-- A file loads when its rows have ids and the cached ones are distinct. -/
theorem loadUpTo_exists {limit : Nat} {file : Bytes} {rows : List (Nat × Bytes)}
    (hrows : placedRows file = some rows)
    (hids : ∀ e ∈ rows, (scanId (openTable file).schema e.2).isSome = true)
    (hdistinct : Distinct (openTable file).schema (cachedTexts limit rows)) :
    ∃ tc, loadUpTo limit file = some tc := by
  obtain ⟨scan, hscan⟩ := @LoadedTo.lines_exists limit file _ [] rows
    ⟨openTable file, (fgets RECORD_SIZE file).1.length, 1⟩ (LoadedTo.start_openTable limit file)
    hrows hids hdistinct
  exact ⟨_, by unfold loadUpTo; rw [hscan]; rfl⟩

/-- **Loading a table.**  Without a delta log a file loads exactly when every line fits the
buffer, every row has an id and the rows that are kept in slots are distinct in the id and in
the UK columns.  Then the slots, the indexes and the tail index are those of its rows, each at
its offset. -/
theorem loadTableContents_iff (file : Bytes) :
    ((∃ tc, loadTableContents file none = some tc) ↔
      ∃ rows, placedRows file = some rows ∧
        (∀ e ∈ rows, (scanId (openTable file).schema e.2).isSome = true) ∧
        Distinct (openTable file).schema (cachedTexts MAX_RECORDS rows)) ∧
    ∀ tc, loadTableContents file none = some tc →
      ∃ rows, placedRows file = some rows ∧ LoadedTo MAX_RECORDS file rows tc := by
  rw [loadTableContents_eq]
  refine ⟨⟨?_, ?_⟩, fun tc htc => ?_⟩
  · rintro ⟨tc, htc⟩
    obtain ⟨rows, hrows, hids, hloaded⟩ := loadUpTo_some htc
    refine ⟨rows, hrows, hids, ?_⟩
    rw [← hloaded.schema]
    exact hloaded.distinct
  · rintro ⟨rows, hrows, hids, hdistinct⟩
    exact loadUpTo_exists hrows hids hdistinct
  · obtain ⟨rows, hrows, -, hloaded⟩ := loadUpTo_some htc
    exact ⟨rows, hrows, hloaded⟩

end MiniDbms.Legacy
