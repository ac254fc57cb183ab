import MiniDbms.Legacy.RowCache
import MiniDbms.Legacy.Limit

/-!
# The caches hold what was assigned

A slot is in one of four states, and each of them determines its row: it is free, its
row is in memory only, in the file, or in the file with a copy in the slot.  A page is a
piece of the file as it was at some time, when it ended with a line feed like now; the
rows that were in it then are the same now.
-/

namespace MiniDbms.Legacy

/-! ## Lines -/

/-- Some byte of a text ends a line. -/
def HasLineEnd (s : Bytes) : Prop := ∃ c ∈ s, isLineEnd c = true

theorem takeWhile_append_of_hasLineEnd {p : UInt8 → Bool} (hp : ∀ c, isLineEnd c = true → p c = false)
    {s : Bytes} (h : HasLineEnd s) (t : Bytes) : (s ++ t).takeWhile p = s.takeWhile p := by
  obtain ⟨c, hc, hend⟩ := h
  rw [List.takeWhile_append, if_neg]
  intro hlen
  have hwhole : s.takeWhile p = s := (List.takeWhile_prefix p).eq_of_length hlen
  have hkeep := List.mem_takeWhile_imp (hwhole.symm ▸ hc)
  rw [hp c hend] at hkeep
  cases hkeep

theorem cut_append_of_hasLineEnd {s : Bytes} (h : HasLineEnd s) (t : Bytes) :
    cut (s ++ t) = cut s :=
  takeWhile_append_of_hasLineEnd (fun c hc => by simp [hc]) h t

theorem length_takeWhile_lt {s : Bytes} (h : HasLineEnd s) :
    (s.takeWhile (!isLineEnd ·)).length < s.length := by
  obtain ⟨c, hc, hend⟩ := h
  refine lt_of_le_of_ne (List.takeWhile_prefix _).length_le fun hlen => ?_
  have hwhole := (List.takeWhile_prefix (!isLineEnd ·)).eq_of_length hlen
  have hkeep := List.mem_takeWhile_imp (hwhole.symm ▸ hc)
  simp [hend] at hkeep

/-- The row that starts at an offset of a file. -/
structure Placed (file : Bytes) (offset : Nat) (row : Bytes) : Prop where
  row_eq : cut (file.drop offset) = row
  fits : row.length ≤ RECORD_SIZE - 1
  ends : HasLineEnd (file.drop offset)

theorem HasLineEnd.offset_lt {file : Bytes} {offset : Nat} (h : HasLineEnd (file.drop offset)) :
    offset < file.length := by
  obtain ⟨c, hc, -⟩ := h
  by_contra hout
  rw [List.drop_of_length_le (Nat.not_lt.1 hout)] at hc
  cases hc

theorem Placed.append {file : Bytes} {offset : Nat} {row : Bytes} (h : Placed file offset row)
    (more : Bytes) : Placed (file ++ more) offset row := by
  have hdrop : (file ++ more).drop offset = file.drop offset ++ more :=
    List.drop_append_of_le_length h.ends.offset_lt.le
  obtain ⟨c, hc, hend⟩ := h.ends
  refine ⟨?_, h.fits, ?_⟩
  · rw [hdrop, cut_append_of_hasLineEnd h.ends, h.row_eq]
  · rw [hdrop]
    exact ⟨c, List.mem_append_left _ hc, hend⟩

theorem cut_of_plain {row : Bytes} (h : PlainLine row) (rest : Bytes) :
    cut (row ++ 10 :: rest) = row := by
  unfold cut
  rw [List.takeWhile_append_of_pos]
  · rw [List.takeWhile_cons_of_neg (by decide), List.append_nil]
  · intro c hc
    have hend := List.all_eq_true.1 h.noEnd c hc
    simp only [Bool.and_eq_true, bne_iff_ne]
    exact ⟨h.noNul c hc, hend⟩

/-- A row that can be inserted: a C string without line breaks that fits the buffer. -/
structure RowOk (row : Bytes) : Prop where
  plain : PlainLine row
  fits : row.length ≤ RECORD_SIZE - 1

theorem RowOk.placed {row : Bytes} (h : RowOk row) (file : Bytes) :
    Placed (file ++ row ++ [10]) file.length row := by
  have hdrop : (file ++ row ++ [10]).drop file.length = row ++ [10] := by
    rw [List.append_assoc, List.drop_left]
  refine ⟨?_, h.fits, ?_⟩
  · rw [hdrop]
    exact cut_of_plain h.plain []
  · rw [hdrop]
    exact ⟨10, by simp, by decide⟩

theorem hasLineEnd_drop {file : Bytes} (hfile : file.getLast? = some 10) {offset : Nat}
    (h : offset < file.length) : HasLineEnd (file.drop offset) := by
  have hlast : (file.drop offset).getLast? = some 10 := by
    rw [List.getLast?_drop, if_neg (Nat.not_le.2 h), hfile]
  exact ⟨10, List.mem_of_getLast? hlast, by decide⟩

namespace RowCache

variable {limits : CacheLimits} {tc : RowCache}

/-! ## Reading a row -/

theorem readRow_of_placed {offset : Nat} {row : Bytes} (h : Placed tc.file offset row) :
    tc.readRow offset = some row := by
  have hfits : (cut (tc.file.drop offset)).length ≤ RECORD_SIZE - 1 := by
    rw [h.row_eq]
    exact h.fits
  unfold readRow
  rw [if_neg (Nat.not_le.2 h.ends.offset_lt), takeWhile_cstr, cut_fgets hfits, h.row_eq]

/-- A page holds a piece of the file as it was at some time. -/
def PageOk (limits : CacheLimits) (file : Bytes) (entry : PageCacheEntry) : Prop :=
  ∃ old, old <+: file ∧ old.getLast? = some 10 ∧
    entry.data = (old.drop entry.pageStart).take limits.pageSize

theorem PageOk.append {file : Bytes} {entry : PageCacheEntry} (h : PageOk limits file entry)
    (more : Bytes) : PageOk limits (file ++ more) entry := by
  obtain ⟨old, hold, hend, hdata⟩ := h
  exact ⟨old, hold.trans (List.prefix_append _ _), hend, hdata⟩

theorem PageOk.row {file : Bytes} {entry : PageCacheEntry} (h : PageOk limits file entry)
    {offset : Nat} {row text : Bytes} (hrow : Placed file offset row)
    (hread : PageCacheEntry.row limits entry offset = some text) : text = row := by
  obtain ⟨old, ⟨more, rfl⟩, hold, hdata⟩ := h
  unfold PageCacheEntry.row at hread
  dsimp only at hread
  split at hread
  · cases hread
  · rename_i hin
    rw [not_or, Nat.not_lt, Nat.not_le] at hin
    obtain ⟨hstart, hin⟩ := hin
    set inPage := offset - entry.pageStart with hinPage
    have hoffset : entry.pageStart + inPage = offset := by omega
    have hlen : entry.data.length = min limits.pageSize (old.length - entry.pageStart) := by
      rw [hdata, List.length_take, List.length_drop]
    have hdrop : entry.data.drop inPage = (old.drop offset).take (limits.pageSize - inPage) := by
      rw [hdata, List.drop_take, List.drop_drop, hoffset]
    have hends : HasLineEnd (old.drop offset) := hasLineEnd_drop hold (by omega)
    have hcut : cut (old.drop offset) = row := by
      have happend : (old ++ more).drop offset = old.drop offset ++ more :=
        List.drop_append_of_le_length hends.offset_lt.le
      rw [← hrow.row_eq, happend, cut_append_of_hasLineEnd hends]
    split at hread
    · cases hread
    · rename_i hfull
      cases hread
      rw [hdrop, ← List.take_takeWhile] at hfull ⊢
      have hshort := length_takeWhile_lt hends
      set line := (old.drop offset).takeWhile (!isLineEnd ·) with hline
      rw [List.length_drop] at hshort
      -- a text that runs to the end of the page is the one that is read with `fgets`
      have hwhole : line.length ≤ limits.pageSize - inPage := by
        by_contra hlong
        apply hfull
        rw [List.length_take]
        omega
      rw [List.take_of_length_le hwhole, hline, cstr_takeWhile, hcut]

/-! ## The invariant -/

/-- The states of a slot, with the row that each stands for. -/
inductive SlotOk (file : Bytes) : CacheSlot → Option Bytes → Prop
  | free (row : Option Bytes) : SlotOk file {} row
  | memory (row : Bytes) :
    SlotOk file ⟨true, some row, .memory, -1, false⟩ (some row)
  | copied {row : Bytes} {offset : Nat} (h : Placed file offset row) :
    SlotOk file ⟨true, some row, .csv, offset, true⟩ (some row)
  | filed {row : Bytes} {offset : Nat} (h : Placed file offset row) :
    SlotOk file ⟨true, none, .csv, offset, false⟩ (some row)

theorem SlotOk.append {file : Bytes} {slot : CacheSlot} {row : Option Bytes}
    (h : SlotOk file slot row) (more : Bytes) : SlotOk (file ++ more) slot row := by
  cases h with
  | free => exact .free row
  | memory row => exact .memory row
  | copied h => exact .copied (h.append more)
  | filed h => exact .filed (h.append more)

theorem SlotOk.evictable_eq {file : Bytes} {slot : CacheSlot} {row : Option Bytes}
    (h : SlotOk file slot row) : slot.evictable = slot.cached := by
  cases h <;> rfl

/-- The caches of a table whose file was `first` when it was opened, with the row last
assigned to each slot. -/
structure Coherent (limits : CacheLimits) (first : Bytes) (tc : RowCache)
    (rows : Nat → Option Bytes) : Prop where
  grown : first <+: tc.file
  ends : tc.file.getLast? = some 10
  appendOffset : ∀ offset ∈ tc.appendOffset, offset = tc.file.length
  slots : ∀ i slot, tc.slots[i]? = some slot → SlotOk tc.file slot (rows i)
  pages : ∀ entry, some entry ∈ tc.pageCache → PageOk limits tc.file entry
  count : tc.cachedRecordCount = tc.slots.countP CacheSlot.evictable

variable {first : Bytes} {rows : Nat → Option Bytes}

theorem fresh_coherent (h : first.getLast? = some 10) :
    Coherent limits first (fresh limits first) rows where
  grown := List.prefix_refl _
  ends := h
  appendOffset := by simp [fresh]
  slots := by simp [fresh]
  pages := by simp [fresh]
  count := by simp [fresh]

/-- What a slot adds to the count. -/
def weight (slot : CacheSlot) : Int := if slot.evictable then 1 else 0

theorem countP_set_weight {slots : List CacheSlot} {i : Nat} {old : CacheSlot}
    (h : slots[i]? = some old) (new : CacheSlot) :
    ((slots.set i new).countP CacheSlot.evictable : Int) =
      slots.countP CacheSlot.evictable - weight old + weight new := by
  obtain ⟨hi, hget⟩ := List.getElem?_eq_some_iff.1 h
  rw [List.countP_set hi, hget]
  unfold weight
  by_cases hold : old.evictable = true
  · have hpos : 0 < slots.countP CacheSlot.evictable :=
      List.countP_pos_iff.2 ⟨old, List.mem_of_getElem? h, hold⟩
    rw [if_pos hold, if_pos hold]
    split <;> omega
  · rw [if_neg hold, if_neg hold]
    split <;> omega

namespace Coherent

theorem setSlot (h : Coherent limits first tc rows) {i : Nat} {old new : CacheSlot}
    {rows' : Nat → Option Bytes} (hold : tc.slots[i]? = some old)
    (hnew : SlotOk tc.file new (rows' i)) (hrows : ∀ j, j ≠ i → rows' j = rows j)
    {count : Int} (hcount : count = tc.cachedRecordCount - weight old + weight new) :
    Coherent limits first { tc with slots := tc.slots.set i new, cachedRecordCount := count } rows' where
  grown := h.grown
  ends := h.ends
  appendOffset := h.appendOffset
  slots := by
    intro j slot hslot
    by_cases hj : j = i
    · subst hj
      have hlt := (List.getElem?_eq_some_iff.1 hold).1
      rw [List.getElem?_set_self hlt] at hslot
      cases hslot
      exact hnew
    · rw [List.getElem?_set_ne (Ne.symm hj)] at hslot
      rw [hrows j hj]
      exact h.slots j slot hslot
  pages := h.pages
  count := by
    rw [countP_set_weight hold, hcount, h.count]

theorem countWithout (h : Coherent limits first tc rows) {i : Nat} {slot : CacheSlot}
    (hslot : tc.slots[i]? = some slot) :
    tc.countWithout slot = tc.cachedRecordCount - weight slot := by
  have heq := (h.slots i slot hslot).evictable_eq
  unfold RowCache.countWithout weight
  rw [heq]
  by_cases hcached : slot.cached = true
  · have hpos : 0 < tc.slots.countP CacheSlot.evictable :=
      List.countP_pos_iff.2 ⟨slot, List.mem_of_getElem? hslot, by rw [heq, hcached]⟩
    have hcount := h.count
    rw [if_pos ⟨hcached, by omega⟩, if_pos hcached]
  · rw [if_neg fun hc => hcached hc.1, if_neg hcached]
    omega

theorem setPages (h : Coherent limits first tc rows) {pages : List (Option PageCacheEntry)} {clock : Nat}
    (hpages : ∀ entry, some entry ∈ pages → PageOk limits tc.file entry) :
    Coherent limits first { tc with pageCache := pages, pageCacheClock := clock } rows :=
  ⟨h.grown, h.ends, h.appendOffset, h.slots, hpages, h.count⟩

end Coherent

/-! ## Pages -/

theorem pageHit_mem {pageStart : Nat} : ∀ {entries : List (Option PageCacheEntry)} {i j : Nat}
    {entry : PageCacheEntry}, pageHit entries i pageStart = some (j, entry) →
      some entry ∈ entries ∧ entry.pageStart = pageStart
  | [], _, _, _, h => by cases h
  | none :: entries, i, j, entry, h => by
      obtain ⟨hmem, hstart⟩ := @pageHit_mem pageStart entries _ _ _ h
      exact ⟨List.mem_cons_of_mem _ hmem, hstart⟩
  | some first :: entries, i, j, entry, h => by
      rw [pageHit] at h
      split at h
      · rename_i hstart
        cases h
        exact ⟨List.mem_cons_self, hstart⟩
      · obtain ⟨hmem, hstart⟩ := @pageHit_mem pageStart entries _ _ _ h
        exact ⟨List.mem_cons_of_mem _ hmem, hstart⟩

theorem mem_setPage {pages : List (Option PageCacheEntry)} {P : PageCacheEntry → Prop}
    (h : ∀ entry, some entry ∈ pages → P entry) {new : PageCacheEntry} (hnew : P new) (i : Nat) :
    ∀ entry, some entry ∈ pages.set i (some new) → P entry := by
  intro entry hentry
  rcases List.mem_or_eq_of_mem_set hentry with hentry | hentry
  · exact h entry hentry
  · cases hentry
    exact hnew

theorem Coherent.getPageCacheEntry (h : Coherent limits first tc rows) (offset : Nat) :
    (∀ entry ∈ (tc.getPageCacheEntry limits offset).1, PageOk limits tc.file entry) ∧
      ∃ pages clock, (tc.getPageCacheEntry limits offset).2 =
        { tc with pageCache := pages, pageCacheClock := clock } ∧
          ∀ entry, some entry ∈ pages → PageOk limits tc.file entry := by
  unfold RowCache.getPageCacheEntry
  dsimp only
  split
  · rename_i i entry hhit
    have hentry : PageOk limits tc.file { entry with lastUsed := tc.pageCacheClock + 1 } :=
      h.pages entry (pageHit_mem hhit).1
    refine ⟨fun e he => ?_, _, _, rfl, mem_setPage h.pages hentry i⟩
    cases he
    exact hentry
  · split
    · exact ⟨fun e he => (by cases he), tc.pageCache, tc.pageCacheClock, rfl, h.pages⟩
    · rename_i i hi
      have hentry : PageOk limits tc.file ⟨offset / limits.pageSize * limits.pageSize,
          (tc.file.drop (offset / limits.pageSize * limits.pageSize)).take limits.pageSize,
          tc.pageCacheClock + 1⟩ := ⟨tc.file, List.prefix_refl _, h.ends, rfl⟩
      refine ⟨fun e he => ?_, _, _, rfl, mem_setPage h.pages hentry i⟩
      cases he
      exact hentry

/-- A row of the file is found, wherever it is read from, and only pages change. -/
theorem Coherent.fetchRow (h : Coherent limits first tc rows) {offset : Nat} {row : Bytes}
    (hrow : Placed tc.file offset row) :
    (tc.fetchRow limits offset).1 = some row ∧
      ∃ pages clock, (tc.fetchRow limits offset).2 =
        { tc with pageCache := pages, pageCacheClock := clock } ∧
          ∀ entry, some entry ∈ pages → PageOk limits tc.file entry := by
  obtain ⟨hentry, pages, clock, hpages, hok⟩ := h.getPageCacheEntry offset
  have hdirect : ({ tc with pageCache := pages, pageCacheClock := clock } :
      RowCache).readRow offset = some row := readRow_of_placed hrow
  unfold RowCache.fetchRow RowCache.readRowFromPageCache
  cases hget : tc.getPageCacheEntry limits offset with
  | mk found tc' =>
      rw [hget] at hentry hpages
      dsimp only at hentry hpages
      subst hpages
      cases found with
      | none => exact ⟨hdirect, pages, clock, rfl, hok⟩
      | some entry =>
          dsimp only
          cases hread : PageCacheEntry.row limits entry offset with
          | none => exact ⟨hdirect, pages, clock, rfl, hok⟩
          | some text =>
              have htext := (hentry entry rfl).row hrow hread
              exact ⟨congrArg some htext, pages, clock, rfl, hok⟩

/-! ## Taking rows back -/

theorem findEvictable_some {slots : List CacheSlot} : ∀ {left cursor i cursor' left' : Nat}
    {slot : CacheSlot}, findEvictable slots left cursor = (some (i, slot), cursor', left') →
      slots[i]? = some slot ∧ slot.evictable = true
  | 0, _, _, _, _, _, h => by cases h
  | left + 1, cursor, i, cursor', left', slot, h => by
      rw [findEvictable] at h
      split at h
      · rename_i slot' hslot'
        split at h
        · rename_i hev
          cases h
          exact ⟨hslot', hev⟩
        · exact findEvictable_some h
      · exact findEvictable_some h

/-- A state that only gave copies back. -/
structure GaveBack (tc tc' : RowCache) : Prop where
  file : tc'.file = tc.file
  pages : tc'.pageCache = tc.pageCache
  kept : ∀ (i : Nat) (slot : CacheSlot), tc.slots[i]? = some slot → slot.evictable = false →
    tc'.slots[i]? = some slot

theorem GaveBack.refl (tc : RowCache) : GaveBack tc tc := ⟨rfl, rfl, fun _ _ h _ => h⟩

theorem GaveBack.trans {a b c : RowCache} (h : GaveBack a b) (h' : GaveBack b c) :
    GaveBack a c :=
  ⟨h'.file.trans h.file, h'.pages.trans h.pages,
    fun i slot hslot hev => h'.kept i slot (h.kept i slot hslot hev) hev⟩

theorem Coherent.giveUp (h : Coherent limits first tc rows) {i : Nat} {slot : CacheSlot}
    (hslot : tc.slots[i]? = some slot) (hev : slot.evictable = true) (cursor : Nat) :
    Coherent limits first (tc.giveUp i slot cursor) rows ∧ GaveBack tc (tc.giveUp i slot cursor) := by
  constructor
  · have hok := h.slots i slot hslot
    generalize hrow : rows i = row at hok
    cases hok with
    | free => cases hev
    | memory => cases hev
    | filed => cases hev
    | @copied row offset hplaced =>
        have hnew : SlotOk tc.file ⟨true, none, .csv, offset, false⟩ (rows i) := by
          rw [hrow]
          exact .filed hplaced
        have hset : Coherent limits first { tc with
            slots := tc.slots.set i ⟨true, none, .csv, offset, false⟩
            cachedRecordCount := tc.cachedRecordCount - 1 } rows :=
          h.setSlot hslot hnew (fun _ _ => rfl) (Int.add_zero _).symm
        exact ⟨hset.grown, hset.ends, hset.appendOffset, hset.slots, hset.pages, hset.count⟩
  · refine ⟨rfl, rfl, fun j slot' hslot' hkeep => ?_⟩
    have hne : i ≠ j := by
      rintro rfl
      rw [hslot] at hslot'
      cases hslot'
      rw [hev] at hkeep
      cases hkeep
    exact (List.getElem?_set_ne hne).trans hslot'

theorem Coherent.evictLoop : ∀ (fuel : Nat) {tc : RowCache}, Coherent limits first tc rows →
    Coherent limits first (evictLoop limits fuel tc) rows ∧ GaveBack tc (evictLoop limits fuel tc)
  | 0, tc, h => ⟨h, GaveBack.refl tc⟩
  | fuel + 1, tc, h => by
      rw [RowCache.evictLoop]
      split
      · split
        · exact ⟨⟨h.grown, h.ends, h.appendOffset, h.slots, h.pages, h.count⟩, rfl, rfl,
            fun _ _ hslot _ => hslot⟩
        · rename_i i slot cursor left hfind
          obtain ⟨hslot, hev⟩ := findEvictable_some hfind
          obtain ⟨hco, hback⟩ := h.giveUp hslot hev cursor
          split
          · exact ⟨hco, hback⟩
          · obtain ⟨hco', hback'⟩ := Coherent.evictLoop fuel hco
            exact ⟨hco', hback.trans hback'⟩
      · exact ⟨h, GaveBack.refl tc⟩

theorem Coherent.evictRowCacheIfNeeded (h : Coherent limits first tc rows) :
    Coherent limits first (tc.evictRowCacheIfNeeded limits) rows ∧
      GaveBack tc (tc.evictRowCacheIfNeeded limits) :=
  Coherent.evictLoop _ h

/-- The loop has come to its end: more rounds change nothing. -/
theorem evictLoop_enough : ∀ (fuel : Nat) {tc : RowCache},
    tc.slots.countP CacheSlot.evictable < fuel →
      evictLoop limits (fuel + 1) tc = evictLoop limits fuel tc
  | 0, _, h => absurd h (Nat.not_lt_zero _)
  | fuel + 1, tc, h => by
      rw [evictLoop, evictLoop]
      split
      · split
        · rfl
        · rename_i i slot cursor left hfind
          obtain ⟨hslot, hev⟩ := findEvictable_some hfind
          split
          · rfl
          · refine evictLoop_enough fuel ?_
            have hset := countP_set_weight hslot { slot with record := none, cached := false }
            have hold : weight slot = 1 := if_pos hev
            have hnew : weight { slot with record := none, cached := false } = 0 := rfl
            change (tc.slots.set i _).countP CacheSlot.evictable < fuel
            omega
      · rfl

/-! ## Operations -/

theorem slotRow_filed {i offset : Nat} {row : Bytes} {tc' : RowCache}
    (hslot : tc.slots[i]? = some ⟨true, none, .csv, offset, false⟩)
    (hread : (tc.evictRowCacheIfNeeded limits).fetchRow limits offset = (some row, tc')) :
    tc.slotRow limits i = (some row,
      { tc' with
        slots := tc'.slots.set i ⟨true, some row, .csv, offset, true⟩
        cachedRecordCount := tc'.cachedRecordCount + 1 }) := by
  have hoffset : ¬ (RowStore.csv ≠ .csv ∨ (offset : Int) < 0) := by simp
  unfold RowCache.slotRow
  rw [hslot]
  dsimp only
  rw [if_neg (by decide), if_neg hoffset]
  simp only [Int.toNat_natCast, hread]

/-- **A read** of an active slot gives the row last assigned to it. -/
theorem Coherent.slotRow (h : Coherent limits first tc rows) (i : Nat) :
    Coherent limits first (tc.slotRow limits i).2 rows ∧
      (tc.slotIsActive i = true → ∃ row, rows i = some row ∧
        (tc.slotRow limits i).1 = some row) := by
  unfold slotIsActive
  cases hslot : tc.slots[i]? with
  | none =>
      unfold RowCache.slotRow
      rw [hslot]
      exact ⟨h, fun hactive => by simp at hactive⟩
  | some slot =>
      have hok := h.slots i slot hslot
      generalize hrow : rows i = assigned at hok
      cases hok with
      | free =>
          unfold RowCache.slotRow
          rw [hslot]
          exact ⟨h, fun hactive => by simp at hactive⟩
      | memory row =>
          unfold RowCache.slotRow
          rw [hslot]
          exact ⟨h, fun _ => ⟨row, rfl, rfl⟩⟩
      | @copied row offset hplaced =>
          have hnew : SlotOk tc.file ⟨true, some row, .csv, offset, true⟩ (rows i) := by
            rw [hrow]
            exact .copied hplaced
          have hset : Coherent limits first { tc with
              slots := tc.slots.set i ⟨true, some row, .csv, offset, true⟩
              cachedRecordCount := tc.cachedRecordCount } rows :=
            h.setSlot hslot hnew (fun _ _ => rfl) (by omega)
          unfold RowCache.slotRow
          rw [hslot]
          exact ⟨hset, fun _ => ⟨row, rfl, rfl⟩⟩
      | @filed row offset hplaced =>
          obtain ⟨hco, hback⟩ := h.evictRowCacheIfNeeded
          have hplaced' : Placed (tc.evictRowCacheIfNeeded limits).file offset row := by
            rw [hback.file]
            exact hplaced
          have hkept : (tc.evictRowCacheIfNeeded limits).slots[i]? =
              some ⟨true, none, .csv, offset, false⟩ := hback.kept i _ hslot rfl
          have hnew : SlotOk (tc.evictRowCacheIfNeeded limits).file
              ⟨true, some row, .csv, offset, true⟩ (rows i) := by
            rw [hrow]
            exact .copied hplaced'
          obtain ⟨hfetch, pages, clock, htc, hpages⟩ := hco.fetchRow hplaced'
          have hpaged : Coherent limits first { tc.evictRowCacheIfNeeded limits with
              pageCache := pages, pageCacheClock := clock } rows := hco.setPages hpages
          rw [slotRow_filed hslot (Prod.ext hfetch htc)]
          refine ⟨?_, fun _ => ⟨row, rfl, rfl⟩⟩
          exact hpaged.setSlot hkept hnew (fun _ _ => rfl) (by simp [weight, CacheSlot.evictable])

/-- **A scan** does the same and leaves the row cache alone. -/
theorem Coherent.slotRowScan (h : Coherent limits first tc rows) (i : Nat) :
    Coherent limits first (tc.slotRowScan limits i).2 rows ∧
      (tc.slotIsActive i = true → ∃ row, rows i = some row ∧
        (tc.slotRowScan limits i).1.1 = some row) := by
  unfold slotIsActive
  cases hslot : tc.slots[i]? with
  | none =>
      unfold RowCache.slotRowScan
      rw [hslot]
      exact ⟨h, fun hactive => by simp at hactive⟩
  | some slot =>
      have hok := h.slots i slot hslot
      generalize hrow : rows i = assigned at hok
      unfold RowCache.slotRowScan
      rw [hslot]
      cases hok with
      | free => exact ⟨h, fun hactive => by simp at hactive⟩
      | memory row => exact ⟨h, fun _ => ⟨row, rfl, rfl⟩⟩
      | @copied row offset hplaced => exact ⟨h, fun _ => ⟨row, rfl, rfl⟩⟩
      | @filed row offset hplaced =>
          have hoffset : ¬ (RowStore.csv ≠ .csv ∨ (offset : Int) < 0) := by simp
          obtain ⟨hfetch, pages, clock, htc, hpages⟩ := h.fetchRow hplaced
          have hread : tc.fetchRow limits offset =
              (some row, { tc with pageCache := pages, pageCacheClock := clock }) :=
            Prod.ext hfetch htc
          dsimp only
          rw [if_neg (by decide), if_neg hoffset]
          simp only [Int.toNat_natCast, hread]
          exact ⟨h.setPages hpages, fun _ => ⟨row, rfl, rfl⟩⟩

theorem Coherent.deactivateSlot (h : Coherent limits first tc rows) {i : Nat} {tc' : RowCache}
    (hres : tc.deactivateSlot i = some tc') {rows' : Nat → Option Bytes}
    (hrows : ∀ j, j ≠ i → rows' j = rows j) : Coherent limits first tc' rows' := by
  unfold RowCache.deactivateSlot at hres
  split at hres
  · cases hres
  · rename_i slot hslot
    split at hres
    · cases hres
    · cases hres
      have hset : Coherent limits first
          { tc with slots := tc.slots.set i {}, cachedRecordCount := tc.countWithout slot } rows' :=
        h.setSlot hslot (.free _) hrows ((h.countWithout hslot).trans (Int.add_zero _).symm)
      exact ⟨hset.grown, hset.ends, hset.appendOffset, hset.slots, hset.pages, hset.count⟩

theorem Coherent.replaceRecordAt (h : Coherent limits first tc rows) {i : Nat} {row : Bytes}
    {tc' : RowCache} (hres : tc.replaceRecordAt i row = some tc') {rows' : Nat → Option Bytes}
    (hrow : rows' i = some row) (hrows : ∀ j, j ≠ i → rows' j = rows j) :
    Coherent limits first tc' rows' := by
  unfold RowCache.replaceRecordAt at hres
  split at hres
  · cases hres
  · rename_i slot hslot
    split at hres
    · cases hres
    · rename_i hactive
      cases hres
      have hnew : SlotOk tc.file ⟨slot.active, some row, .memory, -1, false⟩ (rows' i) := by
        rw [hrow, Bool.of_not_eq_false hactive]
        exact .memory row
      exact h.setSlot hslot hnew hrows ((h.countWithout hslot).trans (Int.add_zero _).symm)

theorem Coherent.appendRecordFile (h : Coherent limits first tc rows) (row : Bytes) :
    Coherent limits first (tc.appendRecordFile row) rows where
  grown := h.grown.trans ⟨row ++ [10], by simp [RowCache.appendRecordFile]⟩
  ends := by simp [RowCache.appendRecordFile]
  appendOffset := by
    intro offset hoffset
    obtain ⟨old, hold, rfl⟩ := Option.map_eq_some_iff.1 hoffset
    rw [h.appendOffset old hold]
    simp [RowCache.appendRecordFile]
  slots := by
    intro i slot hslot
    have hok := (h.slots i slot hslot).append (row ++ [10])
    rwa [← List.append_assoc] at hok
  pages := by
    intro entry hentry
    have hok := (h.pages entry hentry).append (row ++ [10])
    rwa [← List.append_assoc] at hok
  count := h.count

theorem Coherent.takeRecordSlot (h : Coherent limits first tc rows) {reuse : Bool} {i : Nat}
    {tc' : RowCache} (hres : tc.takeRecordSlot limits reuse = some (i, tc')) :
    Coherent limits first tc' rows ∧ tc'.file = tc.file ∧ tc'.appendOffset = tc.appendOffset := by
  unfold RowCache.takeRecordSlot at hres
  split at hres
  · cases hres
    exact ⟨⟨h.grown, h.ends, h.appendOffset, h.slots, h.pages, h.count⟩, rfl, rfl⟩
  · split at hres
    · cases hres
    · cases hres
      refine ⟨⟨h.grown, h.ends, h.appendOffset, ?_, h.pages, ?_⟩, rfl, rfl⟩
      · intro j slot hslot
        rw [List.getElem?_append] at hslot
        split at hslot
        · exact h.slots j slot hslot
        · obtain rfl : {} = slot := List.mem_singleton.1 (List.mem_of_getElem? hslot) |>.symm
          exact .free _
      · rw [List.countP_append, h.count]
        rfl

theorem Coherent.appendRecord (h : Coherent limits first tc rows) {reuse : Bool} {row : Bytes}
    {offset i : Nat} {tc' : RowCache}
    (hres : tc.appendRecord limits reuse row offset = some (i, tc')) :
    ∃ base old, Coherent limits first base rows ∧ base.file = tc.file ∧
      base.appendOffset = tc.appendOffset ∧ base.slots[i]? = some old ∧
      tc' = { base with
        slots := base.slots.set i ⟨true, none, .csv, offset, false⟩
        cachedRecordCount := base.cachedRecordCount - weight old } := by
  obtain ⟨⟨j, base⟩, htake, hrest⟩ := Option.bind_eq_some_iff.1 hres
  obtain ⟨assigned, hassign, hlast⟩ := Option.bind_eq_some_iff.1 hrest
  cases hlast
  obtain ⟨hbase, hfile, happend⟩ := h.takeRecordSlot htake
  unfold RowCache.assignSlotRow at hassign
  split at hassign
  · cases hassign
  · rename_i old hold
    cases hassign
    refine ⟨base, old, hbase, hfile, happend, hold, ?_⟩
    have hlt := (List.getElem?_eq_some_iff.1 hold).1
    unfold activate
    dsimp only
    rw [List.getElem?_set_self hlt, hbase.countWithout hold]
    simp only [List.set_set]

theorem weight_filed (offset : Int) : weight ⟨true, none, .csv, offset, false⟩ = 0 := rfl

theorem Coherent.loadRow (h : Coherent limits first tc rows) {row : Bytes} {offset : Nat}
    (hrow : Placed first offset row) :
    Coherent limits first (tc.loadRow limits row offset).2
      ((tc.loadRow limits row offset).1.apply rows) := by
  unfold RowCache.loadRow
  split
  · cases happ : tc.appendRecord limits false row offset with
    | none => exact h
    | some result =>
        obtain ⟨i, tc'⟩ := result
        obtain ⟨base, old, hbase, hfile, -, hold, rfl⟩ := h.appendRecord happ
        have hplaced : Placed base.file offset row := by
          obtain ⟨more, hmore⟩ := hbase.grown
          rw [← hmore]
          exact hrow.append more
        refine hbase.setSlot hold ?_ (fun j hj => Function.update_of_ne hj _ _) ?_
        · rw [Effect.apply, Function.update_self]
          exact .filed hplaced
        · rw [weight_filed, Int.add_zero]
  · exact ⟨h.grown, h.ends, h.appendOffset, h.slots, h.pages, h.count⟩

theorem Coherent.insertRowData (h : Coherent limits first tc rows) {row : Bytes}
    (hrow : RowOk row) (indexed : Bool) :
    Coherent limits first (tc.insertRowData limits row indexed).2
      ((tc.insertRowData limits row indexed).1.apply rows) := by
  have hoffset : tc.appendOffset.getD tc.file.length = tc.file.length := by
    cases happend : tc.appendOffset with
    | none => rfl
    | some offset => exact h.appendOffset offset happend
  have hsought : Coherent limits first { tc with appendOffset := some tc.file.length } rows :=
    ⟨h.grown, h.ends, fun _ ho => (Option.some.inj ho).symm, h.slots, h.pages, h.count⟩
  unfold RowCache.insertRowData
  rw [hoffset]
  dsimp only
  split
  · cases happ : RowCache.appendRecord limits
        { tc with appendOffset := some tc.file.length } true row tc.file.length with
    | none => exact hsought
    | some result =>
        obtain ⟨i, tc'⟩ := result
        obtain ⟨base, old, hbase, hfile, -, hold, rfl⟩ := hsought.appendRecord happ
        have hfile' : base.file = tc.file := hfile
        dsimp only
        split
        · -- the row is in the file by the time it can be read
          have hplaced : Placed (base.appendRecordFile row).file tc.file.length row := by
            rw [← hfile']
            exact hrow.placed base.file
          refine (hbase.appendRecordFile row).setSlot hold ?_
            (fun j hj => Function.update_of_ne hj _ _) ?_
          · rw [Effect.apply, Function.update_self]
            exact .filed hplaced
          · rw [weight_filed, Int.add_zero]
            rfl
        · -- the slot is free again
          have hlt := (List.getElem?_eq_some_iff.1 hold).1
          have hfree : Coherent limits first { base with
              slots := base.slots.set i {}
              cachedRecordCount := base.cachedRecordCount - weight old } rows :=
            hbase.setSlot hold (.free _) (fun _ _ => rfl) (Int.add_zero _).symm
          unfold RowCache.deactivateSlot
          dsimp only
          rw [List.getElem?_set_self hlt]
          simp only [Bool.true_eq_false, if_false, Option.getD_some, List.set_set]
          exact ⟨hfree.grown, hfree.ends, hfree.appendOffset, hfree.slots, hfree.pages,
            hfree.count⟩
  · have happended := hsought.appendRecordFile row
    exact ⟨happended.grown, happended.ends, happended.appendOffset, happended.slots,
      happended.pages, happended.count⟩

theorem slotRow_active {i : Nat} {row : Bytes} {tc' : RowCache}
    (h : tc.slotRow limits i = (some row, tc')) : tc.slotIsActive i = true := by
  unfold RowCache.slotRow at h
  unfold slotIsActive
  cases hslot : tc.slots[i]? with
  | none =>
      rw [hslot] at h
      cases h
  | some slot =>
      rw [hslot] at h
      cases hactive : slot.active with
      | true => simp [hactive]
      | false =>
          simp only [hactive, if_true] at h
          cases h

theorem Coherent.executeUpdateSingleRow (h : Coherent limits first tc rows) (i : Nat)
    (rebuild : Bytes → Option Bytes) (persisted : Bool) :
    Coherent limits first (tc.executeUpdateSingleRow limits i rebuild persisted).2
      ((tc.executeUpdateSingleRow limits i rebuild persisted).1.apply rows) := by
  obtain ⟨hco, hread⟩ := h.slotRow i
  unfold RowCache.executeUpdateSingleRow
  cases hres : tc.slotRow limits i with
  | mk found tc' =>
      rw [hres] at hco hread
      cases found with
      | none => exact hco
      | some old =>
          obtain ⟨row, hrow, hfound⟩ := hread (slotRow_active hres)
          cases hfound
          dsimp only
          cases hbuilt : rebuild old with
          | none => exact hco
          | some new =>
              dsimp only
              cases persisted with
              | true =>
                  rw [if_pos rfl]
                  cases hset : tc'.replaceRecordAt i new with
                  | none => exact hco
                  | some tc'' =>
                      exact hco.replaceRecordAt hset (Function.update_self ..)
                        fun j hj => Function.update_of_ne hj _ _
              | false =>
                  rw [if_neg (by decide)]
                  cases hset : tc'.replaceRecordAt i old with
                  | none => exact hco
                  | some tc'' => exact hco.replaceRecordAt hset hrow fun _ _ => rfl

/-! ## What the operations report -/

theorem slotIsActive_of_getElem? {i : Nat} {slot : CacheSlot} (h : tc.slots[i]? = some slot) :
    tc.slotIsActive i = slot.active := by
  unfold slotIsActive
  rw [h, Option.any_some]

theorem Coherent.slotRow_isActive (h : Coherent limits first tc rows) {i : Nat}
    (hactive : tc.slotIsActive i = true) : (tc.slotRow limits i).2.slotIsActive i = true := by
  cases hslot : tc.slots[i]? with
  | none => simp [slotIsActive, hslot] at hactive
  | some slot =>
      have hlt := (List.getElem?_eq_some_iff.1 hslot).1
      have hok := h.slots i slot hslot
      rw [slotIsActive_of_getElem? hslot] at hactive
      generalize rows i = assigned at hok
      cases hok with
      | free => cases hactive
      | memory row =>
          unfold RowCache.slotRow
          rw [hslot]
          exact slotIsActive_of_getElem? hslot
      | @copied row offset hplaced =>
          unfold RowCache.slotRow
          rw [hslot]
          simp [slotIsActive, hlt]
      | @filed row offset hplaced =>
          obtain ⟨hco, hback⟩ := h.evictRowCacheIfNeeded
          have hplaced' : Placed (tc.evictRowCacheIfNeeded limits).file offset row := by
            rw [hback.file]
            exact hplaced
          have hkept := (List.getElem?_eq_some_iff.1 (hback.kept i _ hslot rfl)).1
          obtain ⟨hfetch, pages, clock, htc, -⟩ := hco.fetchRow hplaced'
          rw [slotRow_filed hslot (Prod.ext hfetch htc)]
          simp [slotIsActive, hkept]

theorem replaceRecordAt_of_active {i : Nat} (h : tc.slotIsActive i = true) (row : Bytes) :
    ∃ tc', tc.replaceRecordAt i row = some tc' := by
  cases hslot : tc.slots[i]? with
  | none => simp [slotIsActive, hslot] at h
  | some slot =>
      rw [slotIsActive_of_getElem? hslot] at h
      exact ⟨_, by simp only [RowCache.replaceRecordAt, hslot, h, Bool.true_eq_false, if_false]; rfl⟩

/-- An update of an active slot that reaches the log assigns the row it rebuilds. -/
theorem Coherent.update_effect (h : Coherent limits first tc rows) {i : Nat}
    (hactive : tc.slotIsActive i = true) (rebuild : Bytes → Option Bytes) :
    ∃ old, rows i = some old ∧ (tc.step limits (.update i rebuild true)).1 =
      ((rebuild old).map (Effect.assigned i)).getD .nothing := by
  obtain ⟨old, hold, hread⟩ := (h.slotRow i).2 hactive
  have hstill := h.slotRow_isActive hactive
  refine ⟨old, hold, ?_⟩
  rw [step, RowCache.executeUpdateSingleRow]
  cases hres : tc.slotRow limits i with
  | mk found tc' =>
      rw [hres] at hread hstill
      cases hread
      cases hnew : rebuild old with
      | none => simp [hnew]
      | some row =>
          obtain ⟨tc'', hset⟩ := replaceRecordAt_of_active hstill row
          simp [hnew, hset]

theorem delete_effect (i : Nat) :
    (tc.step limits (.delete i)).1 = if tc.slotIsActive i then .removed i else .nothing := by
  rw [step, RowCache.deactivateSlot]
  cases hslot : tc.slots[i]? with
  | none => simp [slotIsActive, hslot]
  | some slot =>
      rw [slotIsActive_of_getElem? hslot]
      cases hactive : slot.active with
      | false => simp [hactive]
      | true => simp [hactive]

theorem appendRecord_of_take {reuse : Bool} {i : Nat} {tc' : RowCache}
    (htake : tc.takeRecordSlot limits reuse = some (i, tc')) (hlt : i < tc'.slots.length)
    (row : Bytes) (offset : Nat) :
    ∃ tc'', tc.appendRecord limits reuse row offset = some (i, tc'') := by
  unfold RowCache.appendRecord RowCache.assignSlotRow
  rw [htake]
  simp [List.getElem?_eq_getElem hlt]

theorem takeRecordSlot_room {i : Nat} {tc' : RowCache}
    (hfree : ∀ j ∈ tc.freeSlots, j < tc.slots.length)
    (htake : tc.takeRecordSlot limits true = some (i, tc')) :
    (tc.activeCount < limits.records ∨ tc.freeSlots ≠ []) ∧ i < tc'.slots.length := by
  have hcount : tc.activeCount ≤ tc.slots.length := List.countP_le_length
  unfold RowCache.takeRecordSlot at htake
  cases hslots : tc.freeSlots with
  | nil =>
      simp only [hslots] at htake
      split at htake
      · cases htake
      · cases htake
        simp only [List.length_append, List.length_singleton]
        omega
  | cons j rest =>
      rw [hslots] at hfree
      simp only [hslots] at htake
      cases htake
      exact ⟨Or.inr (List.cons_ne_nil _ _), hfree _ List.mem_cons_self⟩

theorem takeRecordSlot_appendOffset {reuse : Bool} {i : Nat} {tc' : RowCache}
    (htake : tc.takeRecordSlot limits reuse = some (i, tc')) (offset : Option Nat) :
    takeRecordSlot limits { tc with appendOffset := offset } reuse =
      some (i, { tc' with appendOffset := offset }) := by
  unfold RowCache.takeRecordSlot at htake ⊢
  dsimp only
  split at htake
  · cases htake
    rfl
  · split at htake
    · cases htake
    · rename_i hroom
      cases htake
      rw [if_neg hroom]

/-- An insert that the indexes take assigns its row to the slot it takes. -/
theorem insert_effect {i : Nat} {tc' : RowCache} (row : Bytes)
    (hopen : tc.cacheTruncated = false) (hfree : ∀ j ∈ tc.freeSlots, j < tc.slots.length)
    (htake : tc.takeRecordSlot limits true = some (i, tc')) :
    (tc.step limits (.insert row true)).1 = .assigned i row := by
  obtain ⟨hroom, hlt⟩ := takeRecordSlot_room hfree htake
  obtain ⟨tc'', happ⟩ := appendRecord_of_take
    (takeRecordSlot_appendOffset htake (some (tc.appendOffset.getD tc.file.length))) hlt row
    (tc.appendOffset.getD tc.file.length)
  have hcount (offset : Option Nat) :
      activeCount { tc with appendOffset := offset } = tc.activeCount := rfl
  rw [step, RowCache.insertRowData]
  simp only [hcount, if_pos (And.intro hopen hroom), happ, if_true]

/-! ## Runs -/

/-- What an operation may be given: a row that the file has at an offset, or one that can
be a line of its own. -/
def OpOk (first : Bytes) : CacheOp → Prop
  | .load row offset => Placed first offset row
  | .insert row _ => RowOk row
  | _ => True

theorem step_coherent (h : Coherent limits first tc rows) {op : CacheOp} (hop : OpOk first op) :
    Coherent limits first (tc.step limits op).2 ((tc.step limits op).1.apply rows) := by
  cases op with
  | load row offset => exact h.loadRow hop
  | insert row indexed => exact h.insertRowData hop indexed
  | update i rebuild persisted => exact h.executeUpdateSingleRow i rebuild persisted
  | replace i row =>
      rw [step]
      cases hset : tc.replaceRecordAt i row with
      | none => exact h
      | some tc' =>
          exact h.replaceRecordAt hset (Function.update_self ..)
            fun j hj => Function.update_of_ne hj _ _
  | delete i =>
      rw [step]
      cases hres : tc.deactivateSlot i with
      | none => exact h
      | some tc' => exact h.deactivateSlot hres fun j hj => Function.update_of_ne hj _ _
  | read i => exact (h.slotRow i).1
  | scan i => exact (h.slotRowScan i).1
  | evictRows => exact h.evictRowCacheIfNeeded.1
  | touchPage offset =>
      obtain ⟨-, pages, clock, htc, hpages⟩ := h.getPageCacheEntry offset
      rw [step, htc]
      exact h.setPages hpages
  | clearPages =>
      refine h.setPages fun entry hentry => ?_
      obtain ⟨_, -, hnone⟩ := List.mem_map.1 hentry
      cases hnone

theorem run_coherent {ops : List CacheOp} (hops : ∀ op ∈ ops, OpOk first op)
    (h : Coherent limits first tc rows) :
    Coherent limits first (run limits (tc, rows) ops).1 (run limits (tc, rows) ops).2 := by
  induction ops generalizing tc rows with
  | nil => exact h
  | cons op ops ih =>
      exact ih (fun op' hop' => hops op' (List.mem_cons_of_mem _ hop'))
        (step_coherent h (hops op List.mem_cons_self))

theorem load_ok {file : Bytes} (hfile : file.getLast? = some 10) {placed : List (Nat × Bytes)}
    (h : placedRows file = some placed) :
    ∀ e ∈ placed, OpOk file (.load e.2 e.1) := by
  intro e he
  obtain ⟨A, B, hsplit⟩ := List.append_of_mem he
  obtain ⟨-, hin, hchomp, -, -⟩ := placedRows_at h hsplit
  obtain ⟨hrow, hline⟩ := chomp_fgets hchomp
  have hfits : (cut (fgets RECORD_SIZE (file.drop e.1)).1).length ≤ RECORD_SIZE - 1 := by
    exact (List.takeWhile_prefix _).length_le.trans (length_fgets_le _ _)
  refine ⟨hrow.symm, ?_, hasLineEnd_drop hfile hin⟩
  rwa [hrow, ← hline]

/-- A slot without its copy, as in `TableCache`. -/
def CacheSlot.toSlot (slot : CacheSlot) (rowId : Int) : Slot where
  active := slot.active
  rowId := rowId
  store := slot.store
  offset := slot.offset
  record := if slot.store = .memory then slot.record else none

/-- Reading through the caches is reading the file, as `TableCache` does. -/
theorem Coherent.slotRow_eq_row (h : Coherent limits first tc rows) {i : Nat} {slot : CacheSlot}
    (hslot : tc.slots[i]? = some slot) (rowId : Int) :
    (tc.slotRow limits i).1 = (CacheSlot.toSlot slot rowId).row tc.file := by
  have hrowAt {offset : Nat} {row : Bytes} (hplaced : Placed tc.file offset row) :
      rowAt tc.file offset = some row := by
    have hfits : (cut (tc.file.drop offset)).length ≤ RECORD_SIZE - 1 := by
      rw [hplaced.row_eq]
      exact hplaced.fits
    rw [rowAt_of_cut hplaced.ends.offset_lt (cut_fgets hfits), hplaced.row_eq]
  have hread := (h.slotRow i).2
  have hok := h.slots i slot hslot
  generalize hassigned : rows i = assigned at hok hread
  cases hok with
  | free =>
      unfold RowCache.slotRow
      rw [hslot]
      rfl
  | memory row =>
      unfold RowCache.slotRow
      rw [hslot]
      rfl
  | @copied row offset hplaced =>
      obtain ⟨_, hrow, hfound⟩ := hread (by simp [slotIsActive, hslot])
      cases hrow
      rw [hfound, ← hrowAt hplaced]
      simp [Slot.row, CacheSlot.toSlot]
  | @filed row offset hplaced =>
      obtain ⟨_, hrow, hfound⟩ := hread (by simp [slotIsActive, hslot])
      cases hrow
      rw [hfound, ← hrowAt hplaced]
      simp [Slot.row, CacheSlot.toSlot]

/-- **The caches are coherent.** After any operations on a table over a file that ends
with a line feed, both reads of an active slot give the row last assigned to it, and the
count is that of the copies the row cache may take back. -/
theorem caches_coherent (limits : CacheLimits) {file : Bytes} (hfile : file.getLast? = some 10)
    {ops : List CacheOp} (hops : ∀ op ∈ ops, OpOk file op) {tc : RowCache}
    {rows : Nat → Option Bytes}
    (hrun : run limits (fresh limits file, fun _ => none) ops = (tc, rows)) :
    (∀ i, tc.slotIsActive i = true → ∃ row, rows i = some row ∧
      (tc.slotRow limits i).1 = some row ∧ (tc.slotRowScan limits i).1.1 = some row) ∧
      tc.cachedRecordCount = tc.slots.countP CacheSlot.evictable := by
  have hstart : Coherent limits file (fresh limits file) fun _ => none := fresh_coherent hfile
  have hco := run_coherent hops hstart
  rw [hrun] at hco
  refine ⟨fun i hactive => ?_, hco.count⟩
  obtain ⟨row, hrow, hread⟩ := (hco.slotRow i).2 hactive
  obtain ⟨row', hrow', hscan⟩ := (hco.slotRowScan i).2 hactive
  rw [hrow] at hrow'
  cases hrow'
  exact ⟨row, hrow, hread, hscan⟩

/-- Room for one copy, and two pages of eight bytes. -/
def smallLimits : CacheLimits := ⟨1, 2, 8, 4⟩

def smallFile : Bytes := str "id,n\n1,abc\n"

/-- A row that reaches into the next page, one behind the bytes that were there when its
page was read, an update and a slot that is used again. -/
def smallOps : List CacheOp :=
  [.load (str "1,abc") 5, .read 0, .insert (str "2,de") true, .read 1, .scan 0,
    .update 0 (fun _ => some (str "1,x")) true, .delete 1, .insert (str "3,f") true, .read 1]

theorem smallOps_ok : ∀ op ∈ smallOps, OpOk smallFile op := by
  have hplain : RowOk (str "2,de") ∧ RowOk (str "3,f") :=
    ⟨⟨⟨by decide +kernel, by decide +kernel⟩, by decide +kernel⟩,
      ⟨⟨by decide +kernel, by decide +kernel⟩, by decide +kernel⟩⟩
  simp only [smallOps, List.forall_mem_cons, OpOk, hplain, true_and]
  exact ⟨⟨by decide +kernel, by decide +kernel, 10, by decide +kernel, rfl⟩,
    fun _ hop => nomatch hop⟩

def smallRun : RowCache × (Nat → Option Bytes) :=
  run smallLimits (fresh smallLimits smallFile, fun _ => none) smallOps

theorem caches_coherent_small :
    (smallRun.1.slotRow smallLimits 1).1 = some (str "3,f") ∧
      (smallRun.1.slotRowScan smallLimits 1).1.1 = some (str "3,f") ∧
        smallRun.1.cachedRecordCount = 1 := by
  obtain ⟨hread, hcount⟩ := caches_coherent smallLimits (by decide +kernel) smallOps_ok
    (show run smallLimits (fresh smallLimits smallFile, fun _ => none) smallOps =
      (smallRun.1, smallRun.2) from rfl)
  obtain ⟨row, hrow, hslot, hscan⟩ := hread 1 (by decide +kernel)
  have hlast : smallRun.2 1 = some (str "3,f") := by decide +kernel
  rw [hlast] at hrow
  rw [hslot, hscan, hcount, ← hrow]
  exact ⟨rfl, rfl, by decide +kernel⟩

end RowCache

end MiniDbms.Legacy
