import MiniDbms.Lib.CString
import Mathlib.Data.List.Basic

/-!
# The query cache

`query_cache.c`: entries in an array, hash chains and an LRU list through indices
into it.  An index -1 is `none`.  Clock readings are natural numbers, and a walk
along a chain is cut off after as many entries as there are.
-/

namespace MiniDbms

def QUERY_CACHE_BUCKETS : Nat := 2048
def QUERY_CACHE_MAX_ENTRIES : Nat := 1024
def QUERY_CACHE_MAX_BODY_BYTES : Nat := 256 * 1024

structure QueryCacheEntry where
  inUse : Bool := false
  hash : UInt64 := 0
  key : Bytes := []
  body : Bytes := []
  tableVersion : Nat := 0
  expireAtNs : Nat := 0
  nextHash : Option Nat := none
  prevLru : Option Nat := none
  nextLru : Option Nat := none

structure QueryCache where
  bucketHeads : Nat → Option Nat
  entries : Nat → QueryCacheEntry
  lruHead : Option Nat
  lruTail : Option Nat
  entryCount : Nat
  ttlNs : Nat

inductive QueryCacheMissReason
  | none
  | noEntry
  | ttlExpired
  | versionChanged
deriving DecidableEq, Repr

namespace QueryCache

/-- `query_cache_init` with the TTL of the environment. -/
def queryCacheInit (ttlNs : Nat) : QueryCache where
  bucketHeads := fun _ => none
  entries := fun _ => {}
  lruHead := none
  lruTail := none
  entryCount := 0
  ttlNs := ttlNs

/-- `query_cache_clear`. -/
def queryCacheClear (c : QueryCache) : QueryCache where
  bucketHeads := fun _ => none
  entries := fun i => if (c.entries i).inUse then {} else c.entries i
  lruHead := none
  lruTail := none
  entryCount := 0
  ttlNs := c.ttlNs

/-- FNV-1a. -/
def hashKey (key : Bytes) : UInt64 :=
  (cstr key).foldl (fun hash b => (hash ^^^ b.toUInt64) * 1099511628211) 1469598103934665603

def bucketOf (hash : UInt64) : Nat := hash.toNat % QUERY_CACHE_BUCKETS

def setEntry (c : QueryCache) (idx : Nat) (e : QueryCacheEntry) : QueryCache :=
  { c with entries := fun i => if i = idx then e else c.entries i }

def setBucket (c : QueryCache) (bucket : Nat) (idx : Option Nat) : QueryCache :=
  { c with bucketHeads := fun b => if b = bucket then idx else c.bucketHeads b }

/-- The loop of `unlink_from_bucket`. -/
def unlinkLoop (c : QueryCache) (bucket idx : Nat) : Nat → Option Nat → Option Nat → QueryCache
  | 0, _, _ => c
  | _, _, none => c
  | fuel + 1, prev, some cur =>
    if cur = idx then
      let next := (c.entries cur).nextHash
      let c := match prev with
        | none => c.setBucket bucket next
        | some p => c.setEntry p { c.entries p with nextHash := next }
      c.setEntry cur { c.entries cur with nextHash := none }
    else c.unlinkLoop bucket idx fuel (some cur) (c.entries cur).nextHash

def unlinkFromBucket (c : QueryCache) (idx : Nat) : QueryCache :=
  if (c.entries idx).inUse then
    let bucket := bucketOf (c.entries idx).hash
    c.unlinkLoop bucket idx (QUERY_CACHE_MAX_ENTRIES + 1) none (c.bucketHeads bucket)
  else c

def unlinkFromLru (c : QueryCache) (idx : Nat) : QueryCache :=
  if (c.entries idx).inUse then
    let prev := (c.entries idx).prevLru
    let next := (c.entries idx).nextLru
    let c := match prev with
      | some p => c.setEntry p { c.entries p with nextLru := next }
      | none => { c with lruHead := next }
    let c := match next with
      | some n => c.setEntry n { c.entries n with prevLru := prev }
      | none => { c with lruTail := prev }
    c.setEntry idx { c.entries idx with prevLru := none, nextLru := none }
  else c

def touchLruHead (c : QueryCache) (idx : Nat) : QueryCache :=
  if (c.entries idx).inUse then
    let c := c.unlinkFromLru idx
    let c := c.setEntry idx { c.entries idx with prevLru := none, nextLru := c.lruHead }
    let c := match c.lruHead with
      | some h => c.setEntry h { c.entries h with prevLru := some idx }
      | none => c
    { c with lruHead := some idx, lruTail := if c.lruTail = none then some idx else c.lruTail }
  else c

def removeEntry (c : QueryCache) (idx : Nat) : QueryCache :=
  if (c.entries idx).inUse then
    let c := (c.unlinkFromBucket idx).unlinkFromLru idx
    { c.setEntry idx {} with entryCount := c.entryCount - 1 }
  else c

/-- The first free slot. -/
def freeSlot (c : QueryCache) : Option Nat :=
  (List.range QUERY_CACHE_MAX_ENTRIES).find? fun i => !(c.entries i).inUse

def evict (c : QueryCache) : QueryCache × Option Nat :=
  match c.lruTail with
  | some tail => let c := c.removeEntry tail; (c, c.freeSlot)
  | none => (c, none)

/-- `allocate_entry_index`: the end of the LRU list goes when the table is full. -/
def allocateEntryIndex (c : QueryCache) : QueryCache × Option Nat :=
  if c.entryCount < QUERY_CACHE_MAX_ENTRIES then
    match c.freeSlot with
    | some i => (c, some i)
    | none => c.evict
  else c.evict

def findLoop (c : QueryCache) (key : Bytes) (hash : UInt64) : Nat → Option Nat → Option Nat
  | 0, _ => none
  | _, none => none
  | fuel + 1, some cur =>
    let e := c.entries cur
    if e.inUse ∧ e.hash = hash ∧ e.key = key then some cur
    else c.findLoop key hash fuel e.nextHash

def findEntryIndex (c : QueryCache) (key : Bytes) (hash : UInt64) : Option Nat :=
  c.findLoop key hash (QUERY_CACHE_MAX_ENTRIES + 1) (c.bucketHeads (bucketOf hash))

/-- `query_cache_lookup` at the clock reading `now`. -/
def queryCacheLookup (c : QueryCache) (key : Bytes) (tableVersion now : Nat) :
    QueryCache × Option Bytes × QueryCacheMissReason :=
  if key = [] then (c, none, .none)
  else
    match c.findEntryIndex key (hashKey key) with
    | none => (c, none, .noEntry)
    | some idx =>
      let e := c.entries idx
      if e.expireAtNs ≤ now then (c.removeEntry idx, none, .ttlExpired)
      else if e.tableVersion ≠ tableVersion then (c.removeEntry idx, none, .versionChanged)
      else (c.touchLruHead idx, some e.body, .none)

/-- The body, version and expiry of a stored entry. -/
def fill (c : QueryCache) (idx tableVersion : Nat) (body : Bytes) (now : Nat) : QueryCache :=
  (c.setEntry idx { c.entries idx with
    body := body, tableVersion := tableVersion, expireAtNs := now + c.ttlNs }).touchLruHead idx

/-- `query_cache_store` at the clock reading `now`. -/
def queryCacheStore (c : QueryCache) (key : Bytes) (tableVersion : Nat) (body : Bytes)
    (now : Nat) : QueryCache :=
  if key = [] ∨ QUERY_CACHE_MAX_BODY_BYTES < body.length then c
  else
    let hash := hashKey key
    match c.findEntryIndex key hash with
    | some idx => c.fill idx tableVersion body now
    | none =>
      match c.allocateEntryIndex with
      | (c, none) => c
      | (c, some idx) =>
        let bucket := bucketOf hash
        let c := c.setEntry idx { c.entries idx with
          inUse := true, hash := hash, key := key, nextHash := c.bucketHeads bucket }
        let c := c.setBucket bucket (some idx)
        { c with entryCount := c.entryCount + 1 }.fill idx tableVersion body now

end QueryCache

end MiniDbms
