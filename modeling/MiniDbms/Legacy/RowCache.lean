import MiniDbms.Legacy.TableCache
import MiniDbms.Legacy.Text

/-!
# The row cache and the page cache

Where the text of a row is kept.  A row that was inserted is in the file, at the
offset its slot has; reading it copies it into the slot, and the row cache takes such
copies back when there are too many of them.  Reads go through a cache of pages of
the file, each as the file was when the page was read.  A row that was updated is in
its slot only.

The limits are parameters.  The file is what has been written to it, flushed or not:
every read flushes first.  Compaction is left out, and so are the numbers that no
function here reads.
-/

namespace MiniDbms.Legacy

/-- `ROW_CACHE_LIMIT`, `PAGE_CACHE_LIMIT`, `PAGE_CACHE_PAGE_SIZE` and `MAX_RECORDS`. -/
structure CacheLimits where
  rows : Nat
  pages : Nat
  pageSize : Nat
  records : Nat

/-- What the arrays `record_active`, `records`, `row_store`, `row_refs` and `row_cached`
have for a slot. -/
structure CacheSlot where
  active : Bool := false
  record : Option Bytes := none
  store : RowStore := .none
  offset : Int := 0
  cached : Bool := false
deriving DecidableEq

/-- A row that the row cache may take back. -/
def CacheSlot.evictable (slot : CacheSlot) : Bool :=
  slot.cached && slot.record.isSome && slot.store != .memory

structure PageCacheEntry where
  pageStart : Nat
  data : Bytes
  lastUsed : Nat
deriving DecidableEq

structure RowCache where
  file : Bytes
  appendOffset : Option Nat := none
  cacheTruncated : Bool := false
  slots : List CacheSlot := []
  freeSlots : List Nat := []
  cachedRecordCount : Int := 0
  evictCursor : Nat := 0
  pageCache : List (Option PageCacheEntry)
  pageCacheClock : Nat := 0

namespace RowCache

/-- A table without slots over a file. -/
def fresh (limits : CacheLimits) (file : Bytes) : RowCache where
  file := file
  pageCache := List.replicate limits.pages none

variable (limits : CacheLimits) (tc : RowCache)

def slotIsActive (slotId : Nat) : Bool := (tc.slots[slotId]?).any CacheSlot.active

def activeCount : Nat := tc.slots.countP CacheSlot.active

/-! ## Pages -/

/-- `clear_page_cache`. -/
def clearPageCache : RowCache :=
  { tc with pageCache := tc.pageCache.map fun _ => none, pageCacheClock := 0 }

/-- The entry that is given up for a new page: the first that is not in use, or the one
that was used least recently. -/
def pageTarget : List (Option PageCacheEntry) → Nat → Option (Nat × Nat) → Option Nat
  | [], _, target => target.map Prod.fst
  | none :: _, i, _ => some i
  | some entry :: entries, i, none => pageTarget entries (i + 1) (some (i, entry.lastUsed))
  | some entry :: entries, i, some (target, oldest) =>
    if entry.lastUsed < oldest then pageTarget entries (i + 1) (some (i, entry.lastUsed))
    else pageTarget entries (i + 1) (some (target, oldest))

/-- The entry in use that has the page from an offset on. -/
def pageHit : List (Option PageCacheEntry) → Nat → Nat → Option (Nat × PageCacheEntry)
  | [], _, _ => none
  | none :: entries, i, pageStart => pageHit entries (i + 1) pageStart
  | some entry :: entries, i, pageStart =>
    if entry.pageStart = pageStart then some (i, entry) else pageHit entries (i + 1) pageStart

/-- `get_page_cache_entry`. -/
def getPageCacheEntry (offset : Nat) : Option PageCacheEntry × RowCache :=
  let pageStart := offset / limits.pageSize * limits.pageSize
  let clock := tc.pageCacheClock + 1
  match pageHit tc.pageCache 0 pageStart with
  | some (i, entry) =>
    let entry := { entry with lastUsed := clock }
    (some entry,
      { tc with pageCache := tc.pageCache.set i (some entry), pageCacheClock := clock })
  | none =>
    match pageTarget tc.pageCache 0 none with
    | none => (none, tc)
    | some i =>
      let entry : PageCacheEntry :=
        ⟨pageStart, (tc.file.drop pageStart).take limits.pageSize, clock⟩
      (some entry,
        { tc with pageCache := tc.pageCache.set i (some entry), pageCacheClock := clock })

/-- The row at an offset of a page; `none` when it does not end in the page. -/
def PageCacheEntry.row (entry : PageCacheEntry) (offset : Nat) : Option Bytes :=
  let inPage := offset - entry.pageStart
  if offset < entry.pageStart ∨ entry.data.length ≤ inPage then none
  else
    let text := (entry.data.drop inPage).takeWhile (!isLineEnd ·)
    if entry.data.length ≤ inPage + text.length ∧ text.length = limits.pageSize - inPage then
      none
    else some (cstr text)

/-- `read_row_from_page_cache`. -/
def readRowFromPageCache (offset : Nat) : Option Bytes × RowCache :=
  match tc.getPageCacheEntry limits offset with
  | (none, tc) => (none, tc)
  | (some entry, tc) => (PageCacheEntry.row limits entry offset, tc)

/-- The row at an offset of the file, read with `fgets`. -/
def readRow (offset : Nat) : Option Bytes :=
  if tc.file.length ≤ offset then none
  else some ((cstr (fgets RECORD_SIZE (tc.file.drop offset)).1).takeWhile (!isLineEnd ·))

/-- A row from its page or, failing that, from the file. -/
def fetchRow (offset : Nat) : Option Bytes × RowCache :=
  match tc.readRowFromPageCache limits offset with
  | (some row, tc) => (some row, tc)
  | (none, tc) => (tc.readRow offset, tc)

/-! ## The row cache -/

/-- The inner loop of `evict_row_cache_if_needed`: it looks at `left` slots from the
cursor on.  The slot to give up, the cursor behind it and the slots that are left. -/
def findEvictable (slots : List CacheSlot) :
    Nat → Nat → Option (Nat × CacheSlot) × Nat × Nat
  | 0, cursor => (none, cursor, 0)
  | left + 1, cursor =>
    let next := if slots.length ≤ cursor + 1 then 0 else cursor + 1
    match slots[cursor]? with
    | some slot =>
      if slot.evictable then (some (cursor, slot), next, left)
      else findEvictable slots left next
    | none => findEvictable slots left next

/-- A row is taken out of its slot. -/
def giveUp (i : Nat) (slot : CacheSlot) (cursor : Nat) : RowCache :=
  { tc with
    slots := tc.slots.set i { slot with record := none, cached := false }
    cachedRecordCount := tc.cachedRecordCount - 1
    evictCursor := cursor }

/-- The outer loop; every round but the last takes a row back. -/
def evictLoop : Nat → RowCache → RowCache
  | 0, tc => tc
  | fuel + 1, tc =>
    if (limits.rows : Int) ≤ tc.cachedRecordCount ∧ tc.slots ≠ [] then
      match findEvictable tc.slots tc.slots.length tc.evictCursor with
      | (none, cursor, _) => { tc with evictCursor := cursor }
      | (some (i, slot), cursor, left) =>
        if left = 0 then tc.giveUp i slot cursor else evictLoop fuel (tc.giveUp i slot cursor)
    else tc

/-- `evict_row_cache_if_needed`. -/
def evictRowCacheIfNeeded : RowCache := evictLoop limits (tc.slots.length + 1) tc

/-- `slot_row`. -/
def slotRow (slotId : Nat) : Option Bytes × RowCache :=
  match tc.slots[slotId]? with
  | none => (none, tc)
  | some slot =>
    if slot.active = false then (none, tc)
    else
      match slot.record with
      | some row =>
        if slot.store ≠ .memory then
          (some row, { tc with slots := tc.slots.set slotId { slot with cached := true } })
        else (some row, tc)
      | none =>
        if slot.store ≠ .csv ∨ slot.offset < 0 then (none, tc)
        else
          match (tc.evictRowCacheIfNeeded limits).fetchRow limits slot.offset.toNat with
          | (none, tc) => (none, tc)
          | (some row, tc) => (some row,
              { tc with
                slots := tc.slots.set slotId { slot with record := some row, cached := true }
                cachedRecordCount := tc.cachedRecordCount + 1 })

/-- `slot_row_scan`: a row that is not in its slot belongs to the caller. -/
def slotRowScan (slotId : Nat) : (Option Bytes × Bool) × RowCache :=
  match tc.slots[slotId]? with
  | none => ((none, false), tc)
  | some slot =>
    if slot.active = false then ((none, false), tc)
    else
      match slot.record with
      | some row => ((some row, false), tc)
      | none =>
        if slot.store ≠ .csv ∨ slot.offset < 0 then ((none, false), tc)
        else
          match tc.fetchRow limits slot.offset.toNat with
          | (none, tc) => ((none, false), tc)
          | (some row, tc) => ((some row, true), tc)

/-! ## Slots -/

/-- The count without a slot that is about to lose its copy. -/
def countWithout (slot : CacheSlot) : Int :=
  if slot.cached = true ∧ 0 < tc.cachedRecordCount then tc.cachedRecordCount - 1
  else tc.cachedRecordCount

/-- `assign_slot_row`. -/
def assignSlotRow (slotId : Nat) (row : Bytes) (store : RowStore) (offset : Int)
    (cacheRow : Bool) : Option RowCache :=
  match tc.slots[slotId]? with
  | none => none
  | some slot =>
    let slot' := { slot with record := none, cached := false, store := store, offset := offset }
    let tc' := { tc with
      slots := tc.slots.set slotId slot'
      cachedRecordCount := tc.countWithout slot }
    if cacheRow = false then some tc'
    else if store = .memory then
      some { tc' with slots := tc'.slots.set slotId { slot' with record := some row } }
    else
      let tc' := tc'.evictRowCacheIfNeeded limits
      some { tc' with
        slots := tc'.slots.set slotId { slot' with record := some row, cached := true }
        cachedRecordCount := tc'.cachedRecordCount + 1 }

/-- `deactivate_slot` with the slot added to the free list. -/
def deactivateSlot (slotId : Nat) : Option RowCache :=
  match tc.slots[slotId]? with
  | none => none
  | some slot =>
    if slot.active = false then none
    else some { tc with
      slots := tc.slots.set slotId {}
      cachedRecordCount := tc.countWithout slot
      freeSlots := slotId :: tc.freeSlots }

/-- `take_record_slot`. -/
def takeRecordSlot (allowReuse : Bool) : Option (Nat × RowCache) :=
  match allowReuse, tc.freeSlots with
  | true, slotId :: rest => some (slotId, { tc with freeSlots := rest })
  | _, _ =>
    if limits.records ≤ tc.slots.length then none
    else some (tc.slots.length, { tc with slots := tc.slots ++ [{}] })

def activate (slotId : Nat) : RowCache :=
  match tc.slots[slotId]? with
  | none => tc
  | some slot => { tc with slots := tc.slots.set slotId { slot with active := true } }

/-- The start of `append_record_raw_memory` and of `append_record_csv_indexed`: a slot for
the row at an offset of the file. -/
def appendRecord (allowReuse : Bool) (row : Bytes) (offset : Nat) : Option (Nat × RowCache) := do
  let (slotId, tc) ← tc.takeRecordSlot limits allowReuse
  let tc ← tc.assignSlotRow limits slotId row .csv offset false
  some (slotId, tc.activate slotId)

/-- `append_record_file`. -/
def appendRecordFile (row : Bytes) : RowCache :=
  { tc with
    file := tc.file ++ row ++ [10]
    appendOffset := tc.appendOffset.map (· + (row.length + 1)) }

/-- `replace_record_at`, and the switch of stores in `execute_update_single_row`. -/
def replaceRecordAt (slotId : Nat) (row : Bytes) : Option RowCache :=
  match tc.slots[slotId]? with
  | none => none
  | some slot =>
    if slot.active = false then none
    else some { tc with
      slots := tc.slots.set slotId
        { slot with record := some row, store := .memory, offset := -1, cached := false }
      cachedRecordCount := tc.countWithout slot }

/-! ## Operations -/

/-- What an operation does to the rows of the slots. -/
inductive Effect
  | nothing
  | assigned (slotId : Nat) (row : Bytes)
  | removed (slotId : Nat)

/-- The row last assigned to each slot. -/
def Effect.apply (rows : Nat → Option Bytes) : Effect → Nat → Option Bytes
  | .nothing => rows
  | .assigned slotId row => Function.update rows slotId (some row)
  | .removed slotId => Function.update rows slotId none

/-- `insert_row_data` with a built row.  `indexed` tells whether the indexes take it. -/
def insertRowData (row : Bytes) (indexed : Bool) : Effect × RowCache :=
  let offset := tc.appendOffset.getD tc.file.length
  let tc := { tc with appendOffset := some offset }
  if tc.cacheTruncated = false ∧ (tc.activeCount < limits.records ∨ tc.freeSlots ≠ []) then
    match tc.appendRecord limits true row offset with
    | none => (.nothing, tc)
    | some (slotId, tc) =>
      if indexed then (.assigned slotId row, tc.appendRecordFile row)
      else (.nothing, (tc.deactivateSlot slotId).getD tc)
  else (.nothing, { tc.appendRecordFile row with cacheTruncated := true })

/-- A row that the loader has read at an offset. -/
def loadRow (row : Bytes) (offset : Nat) : Effect × RowCache :=
  if tc.activeCount < limits.records then
    match tc.appendRecord limits false row offset with
    | none => (.nothing, tc)
    | some (slotId, tc) => (.assigned slotId row, tc)
  else (.nothing, { tc with cacheTruncated := true })

/-- `execute_update_single_row` for a slot.  `rebuild` makes the new row of the old one;
when the update is not `persisted`, the old row is put back. -/
def executeUpdateSingleRow (slotId : Nat) (rebuild : Bytes → Option Bytes) (persisted : Bool) :
    Effect × RowCache :=
  match tc.slotRow limits slotId with
  | (none, tc) => (.nothing, tc)
  | (some old, tc) =>
    match rebuild old with
    | none => (.nothing, tc)
    | some row =>
      if persisted then
        match tc.replaceRecordAt slotId row with
        | none => (.nothing, tc)
        | some tc => (.assigned slotId row, tc)
      else (.nothing, (tc.replaceRecordAt slotId old).getD tc)

inductive CacheOp
  | load (row : Bytes) (offset : Nat)
  | insert (row : Bytes) (indexed : Bool)
  | update (slotId : Nat) (rebuild : Bytes → Option Bytes) (persisted : Bool)
  | replace (slotId : Nat) (row : Bytes)
  | delete (slotId : Nat)
  | read (slotId : Nat)
  | scan (slotId : Nat)
  | evictRows
  | touchPage (offset : Nat)
  | clearPages

def step : CacheOp → Effect × RowCache
  | .load row offset => tc.loadRow limits row offset
  | .insert row indexed => tc.insertRowData limits row indexed
  | .update slotId rebuild persisted => tc.executeUpdateSingleRow limits slotId rebuild persisted
  | .replace slotId row =>
    match tc.replaceRecordAt slotId row with
    | none => (.nothing, tc)
    | some tc => (.assigned slotId row, tc)
  | .delete slotId =>
    match tc.deactivateSlot slotId with
    | none => (.nothing, tc)
    | some tc => (.removed slotId, tc)
  | .read slotId => (.nothing, (tc.slotRow limits slotId).2)
  | .scan slotId => (.nothing, (tc.slotRowScan limits slotId).2)
  | .evictRows => (.nothing, tc.evictRowCacheIfNeeded limits)
  | .touchPage offset => (.nothing, (tc.getPageCacheEntry limits offset).2)
  | .clearPages => (.nothing, tc.clearPageCache)

/-- A sequence of operations, with the row last assigned to each slot. -/
def run : RowCache × (Nat → Option Bytes) → List CacheOp → RowCache × (Nat → Option Bytes)
  | s, [] => s
  | (tc, rows), op :: ops =>
    let (effect, tc) := tc.step limits op
    run (tc, effect.apply rows) ops

end RowCache

end MiniDbms.Legacy
