import MiniDbms.Api.QueryCache
import MiniDbms.Lib.Links

/-!
# The representation of the query cache

Every entry in use is on the chain of its bucket and nowhere else, and lookups find
exactly the keys of the entries in use.  `touch_lru_head` unlinks an entry that is not
on the list yet and thereby forgets the list, so no entry is ever linked to another by
the LRU links: head and tail are the entry that was touched last.
-/

namespace MiniDbms

namespace QueryCache

variable {c c' : QueryCache} {idx : Nat}

/-! ## Chains -/

def inUse (c : QueryCache) (i : Nat) : Bool := (c.entries i).inUse

def next (c : QueryCache) (i : Nat) : Option Nat := (c.entries i).nextHash

/-- The chains of the buckets hold the entries in use, each under its hash. -/
structure Chained (c : QueryCache) (chains : Nat → List Nat) : Prop where
  linked : ∀ b, Linked c.next (c.bucketHeads b) (chains b)
  nodup : ∀ b, (chains b).Nodup
  mem : ∀ b i, i ∈ chains b ↔ c.inUse i = true ∧ bucketOf (c.entries i).hash = b

/-- What holds also in the middle of a store. -/
structure Base (c : QueryCache) : Prop where
  chained : ∃ chains, Chained c chains
  lt : ∀ i, c.inUse i = true → i < QUERY_CACHE_MAX_ENTRIES
  hash : ∀ i, c.inUse i = true → (c.entries i).hash = hashKey (c.entries i).key
  keys : ∀ i j, c.inUse i = true → c.inUse j = true → (c.entries i).key = (c.entries j).key → i = j
  count : c.entryCount = (List.range QUERY_CACHE_MAX_ENTRIES).countP c.inUse
  links : ∀ i, (c.entries i).prevLru = none ∧ (c.entries i).nextLru = none
  ends : c.lruHead = c.lruTail
  tail : ∀ i, c.lruTail = some i → c.inUse i = true

/-- A full cache has an entry to evict. -/
structure Ok (c : QueryCache) : Prop extends Base c where
  room : c.lruTail = none → c.entryCount < QUERY_CACHE_MAX_ENTRIES

theorem Chained.length_le {chains : Nat → List Nat} (h : Chained c chains)
    (hlt : ∀ i, c.inUse i = true → i < QUERY_CACHE_MAX_ENTRIES) (b : Nat) :
    (chains b).length ≤ QUERY_CACHE_MAX_ENTRIES :=
  Linked.length_le (h.nodup b) fun i hi => hlt i ((h.mem b i).1 hi).1

theorem init_ok (ttlNs : Nat) : (queryCacheInit ttlNs).Ok where
  chained := ⟨fun _ => [], fun _ => rfl, fun _ => List.nodup_nil, fun b i => by
    simp [queryCacheInit, inUse]⟩
  lt := fun i hi => by simp [queryCacheInit, inUse] at hi
  hash := fun i hi => by simp [queryCacheInit, inUse] at hi
  keys := fun i j hi => by simp [queryCacheInit, inUse] at hi
  count := (List.countP_eq_zero.2 fun i _ => by simp [queryCacheInit, inUse]).symm
  links := fun _ => ⟨rfl, rfl⟩
  ends := rfl
  tail := fun i hi => nomatch hi
  room := fun _ => (by decide : 0 < QUERY_CACHE_MAX_ENTRIES)

/-! ## Finding -/

theorem findLoop_eq {key : Bytes} {hash : UInt64} {fuel : Nat} {cur : Option Nat} {l : List Nat}
    (h : Linked c.next cur l) (hfuel : l.length < fuel) : c.findLoop key hash fuel cur =
      l.find? fun i => decide ((c.entries i).inUse ∧ (c.entries i).hash = hash ∧
        (c.entries i).key = key) := by
  induction l generalizing fuel cur with
  | nil =>
      obtain rfl : cur = none := h
      cases fuel with
      | zero => rfl
      | succ fuel => rfl
  | cons i l ih =>
      obtain ⟨rfl, hrest⟩ := h
      cases fuel with
      | zero => simp at hfuel
      | succ fuel =>
          rw [findLoop, List.find?_cons]
          rw [List.length_cons] at hfuel
          by_cases he : (c.entries i).inUse ∧ (c.entries i).hash = hash ∧ (c.entries i).key = key
          · rw [if_pos he, decide_eq_true he]
          · rw [if_neg he, decide_eq_false he]
            exact ih hrest (by omega)

theorem Ok.find_eq_some (h : c.Ok) {key : Bytes} :
    c.findEntryIndex key (hashKey key) = some idx ↔
      c.inUse idx = true ∧ (c.entries idx).key = key := by
  obtain ⟨chains, hch⟩ := h.chained
  have hlen := hch.length_le h.lt (bucketOf (hashKey key))
  have hwalk : c.findEntryIndex key (hashKey key) = _ :=
    findLoop_eq (hch.linked (bucketOf (hashKey key))) (Nat.lt_succ_of_le hlen)
  rw [hwalk]
  constructor
  · intro hfind
    have hp := List.find?_some hfind
    rw [decide_eq_true_eq] at hp
    exact ⟨hp.1, hp.2.2⟩
  · rintro ⟨huse, hkey⟩
    have hhash : (c.entries idx).hash = hashKey key := by rw [h.hash idx huse, hkey]
    have hmem : idx ∈ chains (bucketOf (hashKey key)) :=
      (hch.mem _ idx).2 ⟨huse, by rw [hhash]⟩
    cases hfind : (chains (bucketOf (hashKey key))).find? fun i =>
        decide ((c.entries i).inUse ∧ (c.entries i).hash = hashKey key ∧
          (c.entries i).key = key) with
    | none =>
        have hno := List.find?_eq_none.1 hfind idx hmem
        rw [decide_eq_true_eq] at hno
        exact absurd ⟨huse, hhash, hkey⟩ hno
    | some j =>
        have hp := List.find?_some hfind
        rw [decide_eq_true_eq] at hp
        rw [h.keys j idx hp.1 huse (hp.2.2.trans hkey.symm)]

theorem Ok.find_eq_none (h : c.Ok) {key : Bytes} :
    c.findEntryIndex key (hashKey key) = none ↔
      ∀ i, c.inUse i = true → (c.entries i).key ≠ key := by
  rw [Option.eq_none_iff_forall_ne_some]
  simp only [ne_eq, h.find_eq_some, not_and]

/-! ## Unlinking -/

/-- Take `cur` out behind `prev`. -/
def splice (c : QueryCache) (bucket cur : Nat) (prev : Option Nat) : QueryCache :=
  let next := (c.entries cur).nextHash
  let c := match prev with
    | none => c.setBucket bucket next
    | some p => c.setEntry p { c.entries p with nextHash := next }
  c.setEntry cur { c.entries cur with nextHash := none }

theorem unlinkLoop_eq {bucket fuel : Nat} {cur : Option Nat} {front rest : List Nat}
    (h : Linked c.next cur rest) (hmem : idx ∈ rest) (hfuel : rest.length < fuel) :
    ∃ mid post, rest = mid ++ idx :: post ∧
      c.unlinkLoop bucket idx fuel front.getLast? cur =
        c.splice bucket idx (front ++ mid).getLast? := by
  induction rest generalizing fuel cur front with
  | nil => cases hmem
  | cons i rest ih =>
      obtain ⟨rfl, hrest⟩ := h
      cases fuel with
      | zero => simp at hfuel
      | succ fuel =>
          rw [unlinkLoop]
          rw [List.length_cons] at hfuel
          by_cases hi : i = idx
          · refine ⟨[], rest, by rw [hi]; rfl, ?_⟩
            rw [if_pos hi, List.append_nil]
            subst hi
            unfold splice
            rfl
          · rw [if_neg hi]
            have hmem' : idx ∈ rest := (List.mem_cons.1 hmem).resolve_left fun h => hi h.symm
            obtain ⟨mid, post, hsplit, heq⟩ := @ih fuel _ (front ++ [i]) hrest hmem' (by omega)
            refine ⟨i :: mid, post, by rw [hsplit]; rfl, ?_⟩
            rw [List.getLast?_concat] at heq
            rw [List.append_assoc, List.singleton_append] at heq
            exact heq

/-- What unlinking an entry from its bucket leaves. -/
structure Unchained (c c' : QueryCache) (idx : Nat) (chains : Nat → List Nat) : Prop where
  frame : c' = { c with bucketHeads := c'.bucketHeads, entries := c'.entries }
  entries : ∀ i, c'.entries i = { c.entries i with nextHash := (c'.entries i).nextHash }
  linked : ∀ b, Linked c'.next (c'.bucketHeads b) ((chains b).erase idx)

theorem setEntry_next_ne {i : Nat} {e : QueryCacheEntry} (h : i ≠ idx) :
    (c.setEntry idx e).next i = c.next i := by
  unfold QueryCache.next setEntry
  dsimp only
  rw [if_neg h]

theorem setEntry_next_self {e : QueryCacheEntry} : (c.setEntry idx e).next idx = e.nextHash := by
  unfold QueryCache.next setEntry
  dsimp only
  rw [if_pos rfl]

theorem splice_entries (bucket : Nat) (prev : Option Nat) (i : Nat) :
    (c.splice bucket idx prev).entries i =
      { c.entries i with nextHash := ((c.splice bucket idx prev).entries i).nextHash } := by
  unfold splice setEntry setBucket
  cases prev with
  | none =>
      dsimp only
      split
      · rename_i heq
        rw [heq]
      · rfl
  | some p =>
      dsimp only
      split
      · rename_i heq
        subst heq
        split
        · rename_i heq
          rw [heq]
        · rfl
      · split
        · rename_i heq
          rw [heq]
        · rfl

theorem unlinkFromBucket_spec {chains : Nat → List Nat} (h : Chained c chains)
    (hlt : ∀ i, c.inUse i = true → i < QUERY_CACHE_MAX_ENTRIES) (huse : c.inUse idx = true) :
    Unchained c (c.unlinkFromBucket idx) idx chains := by
  have hmem := (h.mem _ idx).2 ⟨huse, rfl⟩
  have hlen := h.length_le hlt (bucketOf (c.entries idx).hash)
  obtain ⟨mid, post, hsplit, hloop⟩ := @unlinkLoop_eq c idx (bucketOf (c.entries idx).hash)
    (QUERY_CACHE_MAX_ENTRIES + 1) _ [] _ (h.linked (bucketOf (c.entries idx).hash)) hmem
    (Nat.lt_succ_of_le hlen)
  have heq : c.unlinkFromBucket idx =
      c.splice (bucketOf (c.entries idx).hash) idx mid.getLast? := by
    exact (if_pos huse).trans hloop
  have hnodup := h.nodup (bucketOf (c.entries idx).hash)
  have hlinked := h.linked (bucketOf (c.entries idx).hash)
  have hother : ∀ b, b ≠ bucketOf (c.entries idx).hash → ∀ i ∈ chains b,
      i ∉ chains (bucketOf (c.entries idx).hash) := by
    intro b hb i hi hi'
    exact hb (((h.mem b i).1 hi).2.symm.trans ((h.mem _ i).1 hi').2)
  rw [heq]
  generalize bucketOf (c.entries idx).hash = bucket at *
  rw [hsplit] at hnodup hlinked hother
  refine ⟨?_, splice_entries bucket mid.getLast?, ?_⟩
  · unfold splice
    cases mid.getLast? <;> rfl
  · intro b
    rcases List.eq_nil_or_concat' mid with rfl | ⟨mid', p, rfl⟩
    · rw [List.nil_append] at hnodup hlinked
      have hnext : ∀ j, j ≠ idx → (c.splice bucket idx none).next j = c.next j :=
        fun j hj => setEntry_next_ne hj
      by_cases hb : b = bucket
      · subst hb
        have hhead : (c.splice b idx none).bucketHeads b = c.next idx := if_pos rfl
        rw [List.getLast?_nil, hhead, hsplit, List.nil_append, List.erase_cons_head]
        refine hlinked.unlink_first fun j hj => hnext j ?_
        rintro rfl
        exact (List.nodup_cons.1 hnodup).1 hj
      · have hhead : (c.splice bucket idx none).bucketHeads b = c.bucketHeads b := if_neg hb
        have hout : idx ∉ chains b := fun hi => hother b hb idx hi (by simp)
        rw [List.getLast?_nil, hhead, List.erase_of_not_mem hout]
        refine (h.linked b).congr fun j hj => hnext j ?_
        rintro rfl
        exact hout hj
    · rw [List.append_assoc, List.singleton_append] at hnodup hlinked
      rw [List.getLast?_concat]
      have hpi : p ≠ idx := by
        rintro rfl
        have := (List.nodup_append.1 hnodup).2.1
        exact (List.nodup_cons.1 this).1 List.mem_cons_self
      have hnext : ∀ j, j ≠ p → j ≠ idx → (c.splice bucket idx (some p)).next j = c.next j := by
        intro j hp hj
        exact (setEntry_next_ne hj).trans (setEntry_next_ne hp)
      have hat : (c.splice bucket idx (some p)).next p = c.next idx :=
        (setEntry_next_ne hpi).trans setEntry_next_self
      have hhead : (c.splice bucket idx (some p)).bucketHeads b = c.bucketHeads b := rfl
      rw [hhead]
      by_cases hb : b = bucket
      · subst hb
        have herase : (chains b).erase idx = mid' ++ p :: post := by
          have hout : idx ∉ mid' ++ [p] := by
            intro hi
            rw [List.mem_append, List.mem_singleton] at hi
            rcases hi with hi | hi
            · exact (List.nodup_append.1 hnodup).2.2 idx hi idx (by simp) rfl
            · exact hpi hi.symm
          rw [hsplit, List.erase_append_right _ hout,
            List.erase_cons_head, List.append_assoc, List.singleton_append]
        rw [herase]
        refine hlinked.unlink hnodup hat fun j hj => hnext j ?_ ?_
        · rintro rfl
          rcases List.mem_append.1 hj with hj | hj
          · exact (List.nodup_append.1 hnodup).2.2 j hj j (by simp) rfl
          · have := (List.nodup_append.1 hnodup).2.1
            exact (List.nodup_cons.1 this).1 (List.mem_cons_of_mem _ hj)
        · rintro rfl
          rcases List.mem_append.1 hj with hj | hj
          · exact (List.nodup_append.1 hnodup).2.2 j hj j (by simp) rfl
          · have := (List.nodup_cons.1 (List.nodup_append.1 hnodup).2.1).2
            exact (List.nodup_cons.1 this).1 hj
      · have hout : idx ∉ chains b := fun hi => hother b hb idx hi (by simp)
        rw [List.erase_of_not_mem hout]
        refine (h.linked b).congr fun j hj => hnext j ?_ ?_
        · rintro rfl
          exact hother b hb j hj (by simp)
        · rintro rfl
          exact hout hj

/-! ## The LRU links -/

theorem setEntry_self : c.setEntry idx (c.entries idx) = c := by
  unfold setEntry
  congr 1
  funext i
  split
  · rename_i heq
    rw [heq]
  · rfl

theorem unlinked_eq {e : QueryCacheEntry} (h : e.prevLru = none ∧ e.nextLru = none) :
    ({ e with prevLru := none, nextLru := none } : QueryCacheEntry) = e := by
  obtain ⟨_, _, _, _, _, _, _, prev, next⟩ := e
  obtain ⟨rfl, rfl⟩ := h
  rfl

theorem unlinkFromLru_eq (huse : c.inUse idx = true)
    (hlinks : (c.entries idx).prevLru = none ∧ (c.entries idx).nextLru = none) :
    c.unlinkFromLru idx = { c with lruHead := none, lruTail := none } := by
  refine (if_pos huse).trans ?_
  rw [hlinks.1, hlinks.2]
  dsimp only
  rw [unlinked_eq hlinks]
  exact setEntry_self

theorem touchLruHead_eq (huse : c.inUse idx = true)
    (hlinks : (c.entries idx).prevLru = none ∧ (c.entries idx).nextLru = none) :
    c.touchLruHead idx = { c with lruHead := some idx, lruTail := some idx } := by
  refine (if_pos huse).trans ?_
  rw [unlinkFromLru_eq huse hlinks]
  dsimp only
  rw [unlinked_eq hlinks, setEntry_self]
  rfl

/-! ## Removing -/

/-- The entry is gone, and the others say what they said. -/
structure Removed (c c' : QueryCache) (idx : Nat) : Prop where
  gone : c'.entries idx = {}
  others : ∀ i, i ≠ idx →
    c'.entries i = { c.entries i with nextHash := (c'.entries i).nextHash }
  head : c'.lruHead = none
  tail : c'.lruTail = none
  count : c'.entryCount = c.entryCount - 1
  ttl : c'.ttlNs = c.ttlNs

theorem Removed.inUse (h : Removed c c' idx) (i : Nat) :
    c'.inUse i = (c.inUse i && i != idx) := by
  unfold QueryCache.inUse
  by_cases hi : i = idx
  · subst hi
    rw [h.gone]
    simp
  · rw [h.others i hi]
    simp [hi]

theorem countP_remove {p q : Nat → Bool} {n : Nat} (hlt : idx < n) (hp : p idx = true)
    (hq : ∀ i, q i = (p i && i != idx)) :
    (List.range n).countP q + 1 = (List.range n).countP p := by
  have hsplit := List.countP_eq_countP_filter_add (List.range n) p (· != idx)
  have hrest : (List.range n).countP q = ((List.range n).filter (· != idx)).countP p := by
    rw [List.countP_filter]
    exact List.countP_congr fun i _ => by rw [hq i]
  have hself : ((List.range n).filter fun i => !(i != idx)).countP p = 1 := by
    have heq : ((List.range n).filter fun i => !(i != idx)) =
        (List.range n).filter (· == idx) := by
      exact List.filter_congr fun i _ => by simp [bne]
    rw [heq, List.filter_beq, List.count_eq_one_of_mem List.nodup_range (List.mem_range.2 hlt)]
    simp [hp]
  omega

theorem removeEntry_removed (h : c.Ok) (huse : c.inUse idx = true) {chains : Nat → List Nat}
    (hch : Chained c chains) : Removed c (c.removeEntry idx) idx ∧
      ∀ b, Linked (c.removeEntry idx).next ((c.removeEntry idx).bucketHeads b)
        ((chains b).erase idx) := by
  have hun := unlinkFromBucket_spec hch h.lt huse
  have heq : c.removeEntry idx = { ((c.unlinkFromBucket idx).unlinkFromLru idx).setEntry idx {} with
      entryCount := ((c.unlinkFromBucket idx).unlinkFromLru idx).entryCount - 1 } := if_pos huse
  have huse' : (c.unlinkFromBucket idx).inUse idx = true := by
    unfold QueryCache.inUse
    rw [hun.entries]
    exact huse
  have hlinks' : ((c.unlinkFromBucket idx).entries idx).prevLru = none ∧
      ((c.unlinkFromBucket idx).entries idx).nextLru = none := by
    rw [hun.entries]
    exact h.links idx
  rw [unlinkFromLru_eq huse' hlinks'] at heq
  rw [heq]
  generalize c.unlinkFromBucket idx = c₁ at hun huse' hlinks'
  refine ⟨⟨if_pos rfl, fun i hi => ?_, rfl, rfl, ?_, ?_⟩, fun b => ?_⟩
  · have hat : ∀ e : QueryCacheEntry, (({ c₁ with lruHead := none, lruTail := none } :
        QueryCache).setEntry idx e).entries i = c₁.entries i := fun e => if_neg hi
    dsimp only
    rw [hat]
    exact hun.entries i
  · dsimp only [setEntry]
    rw [hun.frame]
  · dsimp only [setEntry]
    rw [hun.frame]
  · refine (hun.linked b).congr fun j hj => ?_
    have hne : j ≠ idx := by
      rintro rfl
      exact ((hch.nodup b).mem_erase_iff.1 hj).1 rfl
    exact setEntry_next_ne hne

theorem Ok.count_le (h : c.Ok) : c.entryCount ≤ QUERY_CACHE_MAX_ENTRIES := by
  rw [h.count]
  have := @List.countP_le_length _ c.inUse (List.range QUERY_CACHE_MAX_ENTRIES)
  rwa [List.length_range] at this

theorem Ok.count_pos (h : c.Ok) (huse : c.inUse idx = true) : 0 < c.entryCount := by
  rw [h.count, List.countP_pos_iff]
  exact ⟨idx, List.mem_range.2 (h.lt idx huse), huse⟩

theorem Ok.removeEntry (h : c.Ok) (huse : c.inUse idx = true) :
    (c.removeEntry idx).Ok ∧ Removed c (c.removeEntry idx) idx := by
  obtain ⟨chains, hch⟩ := h.chained
  obtain ⟨hrem, hlinked⟩ := removeEntry_removed h huse hch
  generalize c.removeEntry idx = c' at hrem hlinked
  have hin : ∀ i, c'.inUse i = true ↔ c.inUse i = true ∧ i ≠ idx := by
    intro i
    rw [hrem.inUse, Bool.and_eq_true, bne_iff_ne]
  have hcount := countP_remove (h.lt idx huse) huse hrem.inUse
  have hle := h.count_le
  have hpos := h.count_pos huse
  refine ⟨⟨⟨⟨fun b => (chains b).erase idx, hlinked, fun b => (hch.nodup b).erase idx, ?_⟩,
    ?_, ?_, ?_, ?_, ?_, ?_, ?_⟩, ?_⟩, hrem⟩
  · intro b i
    rw [(hch.nodup b).mem_erase_iff, hch.mem b i, hin i]
    constructor
    · rintro ⟨hne, hiu, hb⟩
      exact ⟨⟨hiu, hne⟩, by rw [hrem.others i hne]; exact hb⟩
    · rintro ⟨⟨hiu, hne⟩, hb⟩
      rw [hrem.others i hne] at hb
      exact ⟨hne, hiu, hb⟩
  · exact fun i hi => h.lt i ((hin i).1 hi).1
  · intro i hi
    obtain ⟨hiu, hne⟩ := (hin i).1 hi
    rw [hrem.others i hne]
    exact h.hash i hiu
  · intro i j hi hj hkey
    obtain ⟨hiu, hine⟩ := (hin i).1 hi
    obtain ⟨hju, hjne⟩ := (hin j).1 hj
    rw [hrem.others i hine, hrem.others j hjne] at hkey
    exact h.keys i j hiu hju hkey
  · rw [hrem.count, h.count]
    omega
  · intro i
    by_cases hi : i = idx
    · rw [hi, hrem.gone]
      exact ⟨rfl, rfl⟩
    · rw [hrem.others i hi]
      exact h.links i
  · rw [hrem.head, hrem.tail]
  · intro i hi
    rw [hrem.tail] at hi
    cases hi
  · intro _
    rw [hrem.count]
    omega

/-! ## A slot for a new entry -/

theorem freeSlot_eq_some {i : Nat} (h : c.freeSlot = some i) :
    i < QUERY_CACHE_MAX_ENTRIES ∧ c.inUse i = false := by
  unfold QueryCache.freeSlot at h
  have hp := List.find?_some h
  rw [Bool.not_eq_true'] at hp
  exact ⟨List.mem_range.1 (List.mem_of_find?_eq_some h), hp⟩

theorem Ok.freeSlot (h : c.Ok) (hroom : c.entryCount < QUERY_CACHE_MAX_ENTRIES) :
    ∃ i, c.freeSlot = some i := by
  cases hf : c.freeSlot with
  | some i => exact ⟨i, rfl⟩
  | none =>
      have hall : ∀ i ∈ List.range QUERY_CACHE_MAX_ENTRIES, c.inUse i = true := by
        intro i hi
        have hno := List.find?_eq_none.1 hf i hi
        rw [Bool.not_eq_true', Bool.not_eq_false] at hno
        exact hno
      have hcount := h.count
      rw [List.countP_eq_length.2 hall, List.length_range] at hcount
      omega

/-- What `allocate_entry_index` does: nothing, or the end of the LRU list goes. -/
structure Allocated (c c' : QueryCache) (idx : Nat) : Prop where
  ok : c'.Ok
  lt : idx < QUERY_CACHE_MAX_ENTRIES
  free : c'.inUse idx = false
  room : c'.entryCount < QUERY_CACHE_MAX_ENTRIES
  how : (c' = c ∧ c.entryCount < QUERY_CACHE_MAX_ENTRIES) ∨
    ∃ last, c.entryCount = QUERY_CACHE_MAX_ENTRIES ∧ c.lruTail = some last ∧ Removed c c' last

theorem Ok.allocate (h : c.Ok) : ∃ c' idx, c.allocateEntryIndex = (c', some idx) ∧
    Allocated c c' idx := by
  unfold allocateEntryIndex
  by_cases hroom : c.entryCount < QUERY_CACHE_MAX_ENTRIES
  · obtain ⟨i, hi⟩ := h.freeSlot hroom
    obtain ⟨hlt, hfree⟩ := freeSlot_eq_some hi
    rw [if_pos hroom, hi]
    exact ⟨c, i, rfl, h, hlt, hfree, hroom, Or.inl ⟨rfl, hroom⟩⟩
  · rw [if_neg hroom]
    have hfull : c.entryCount = QUERY_CACHE_MAX_ENTRIES := by
      have := h.count_le
      omega
    cases ht : c.lruTail with
    | none => exact absurd (h.room ht) hroom
    | some last =>
        obtain ⟨hok, hrem⟩ := h.removeEntry (h.tail last ht)
        have hless : (c.removeEntry last).entryCount < QUERY_CACHE_MAX_ENTRIES := by
          rw [hrem.count, hfull]
          decide
        obtain ⟨i, hi⟩ := hok.freeSlot hless
        obtain ⟨hlt, hfree⟩ := freeSlot_eq_some hi
        refine ⟨c.removeEntry last, i, ?_, hok, hlt, hfree, hless, Or.inr ⟨last, hfull, ht, hrem⟩⟩
        unfold evict
        rw [ht]
        dsimp only
        rw [hi]

/-! ## Storing -/

/-- The entry that a store leaves. -/
structure Stored (e : QueryCacheEntry) (key : Bytes) (tableVersion : Nat) (body : Bytes)
    (expireAtNs : Nat) : Prop where
  inUse : e.inUse = true
  key : e.key = key
  tableVersion : e.tableVersion = tableVersion
  body : e.body = body
  expireAtNs : e.expireAtNs = expireAtNs

theorem Base.touch (h : c.Base) (huse : c.inUse idx = true) :
    c.touchLruHead idx = { c with lruHead := some idx, lruTail := some idx } ∧
      (c.touchLruHead idx).Ok := by
  have heq := touchLruHead_eq huse (h.links idx)
  refine ⟨heq, ?_⟩
  rw [heq]
  obtain ⟨chains, hch⟩ := h.chained
  refine ⟨⟨⟨chains, hch.linked, hch.nodup, hch.mem⟩, h.lt, h.hash, h.keys, h.count, h.links, rfl,
    ?_⟩, fun hnone => nomatch hnone⟩
  rintro i ⟨⟩
  exact huse

theorem Base.fill (h : c.Base) (huse : c.inUse idx = true) (tableVersion : Nat) (body : Bytes)
    (now : Nat) : (c.fill idx tableVersion body now).Ok ∧
      Stored ((c.fill idx tableVersion body now).entries idx) (c.entries idx).key tableVersion body
        (now + c.ttlNs) ∧
      ∀ i, i ≠ idx → (c.fill idx tableVersion body now).entries i = c.entries i := by
  generalize he : ({ c.entries idx with
    body := body, tableVersion := tableVersion, expireAtNs := now + c.ttlNs } : QueryCacheEntry) = e
  have hfill : c.fill idx tableVersion body now = (c.setEntry idx e).touchLruHead idx := by
    rw [← he]
    rfl
  have hsame : ∀ i, ((c.setEntry idx e).entries i).inUse = c.inUse i ∧
      ((c.setEntry idx e).entries i).hash = (c.entries i).hash ∧
      ((c.setEntry idx e).entries i).key = (c.entries i).key ∧
      (c.setEntry idx e).next i = c.next i ∧
      ((c.setEntry idx e).entries i).prevLru = none ∧
      ((c.setEntry idx e).entries i).nextLru = none := by
    intro i
    unfold setEntry QueryCache.next QueryCache.inUse
    dsimp only
    split
    · rename_i hi
      rw [hi, ← he]
      exact ⟨rfl, rfl, rfl, rfl, h.links idx⟩
    · exact ⟨rfl, rfl, rfl, rfl, h.links i⟩
  have hin : (c.setEntry idx e).inUse = c.inUse := funext fun i => (hsame i).1
  have hok : (c.setEntry idx e).Base := by
    obtain ⟨chains, hch⟩ := h.chained
    refine ⟨⟨chains, fun b => (hch.linked b).congr fun i _ => (hsame i).2.2.2.1, hch.nodup, ?_⟩,
      ?_, ?_, ?_, ?_, fun i => (hsame i).2.2.2.2, h.ends, ?_⟩
    · intro b i
      rw [hin, (hsame i).2.1]
      exact hch.mem b i
    · rw [hin]
      exact h.lt
    · intro i hi
      rw [hin] at hi
      rw [(hsame i).2.1, (hsame i).2.2.1]
      exact h.hash i hi
    · intro i j hi hj hkey
      rw [hin] at hi hj
      rw [(hsame i).2.2.1, (hsame j).2.2.1] at hkey
      exact h.keys i j hi hj hkey
    · rw [hin]
      exact h.count
    · rw [hin]
      exact h.tail
  have huse' : (c.setEntry idx e).inUse idx = true := by rw [hin]; exact huse
  obtain ⟨heq, hok'⟩ := hok.touch huse'
  rw [hfill]
  refine ⟨hok', ?_, ?_⟩
  · rw [heq]
    have hat : (c.setEntry idx e).entries idx = e := if_pos rfl
    dsimp only
    rw [hat, ← he]
    exact ⟨huse, rfl, rfl, rfl, rfl⟩
  · intro i hi
    rw [heq]
    exact if_neg hi

theorem countP_add {p q : Nat → Bool} {n : Nat} (hlt : idx < n) (hp : p idx = false)
    (hq : ∀ i, q i = (p i || i == idx)) :
    (List.range n).countP q = (List.range n).countP p + 1 := by
  refine (countP_remove hlt (by rw [hq]; simp) fun i => ?_).symm
  rw [hq]
  by_cases hi : i = idx
  · rw [hi, hp]
    simp
  · rw [bne, beq_false_of_ne hi, Bool.or_false, Bool.not_false, Bool.and_true]

/-- A free slot becomes the entry of a new key. -/
def enter (c : QueryCache) (idx : Nat) (key : Bytes) : QueryCache :=
  let bucket := bucketOf (hashKey key)
  let c := c.setEntry idx { c.entries idx with
    inUse := true, hash := hashKey key, key := key, nextHash := c.bucketHeads bucket }
  let c := c.setBucket bucket (some idx)
  { c with entryCount := c.entryCount + 1 }

theorem enter_entries_self (key : Bytes) : (c.enter idx key).entries idx = { c.entries idx with
    inUse := true, hash := hashKey key, key := key
    nextHash := c.bucketHeads (bucketOf (hashKey key)) } := if_pos rfl

theorem enter_entries_ne (key : Bytes) {i : Nat} (h : i ≠ idx) :
    (c.enter idx key).entries i = c.entries i := if_neg h

theorem Base.enter (h : c.Base) {key : Bytes} (hlt : idx < QUERY_CACHE_MAX_ENTRIES)
    (hfree : c.inUse idx = false) (hnew : ∀ i, c.inUse i = true → (c.entries i).key ≠ key) :
    (c.enter idx key).Base := by
  obtain ⟨chains, hch⟩ := h.chained
  have hself := @enter_entries_self c idx key
  have hother : ∀ i, i ≠ idx → (c.enter idx key).entries i = c.entries i :=
    fun i hi => enter_entries_ne key hi
  have hin : ∀ i, (c.enter idx key).inUse i = (c.inUse i || i == idx) := by
    intro i
    unfold QueryCache.inUse
    by_cases hi : i = idx
    · rw [hi, hself]
      simp
    · rw [hother i hi]
      simp [hi]
  have hcases : ∀ i, (c.enter idx key).inUse i = true → i = idx ∨ (i ≠ idx ∧ c.inUse i = true) := by
    intro i hi
    rw [hin, Bool.or_eq_true, beq_iff_eq] at hi
    by_cases heq : i = idx
    · exact Or.inl heq
    · exact Or.inr ⟨heq, hi.resolve_right heq⟩
  have hout : ∀ b, idx ∉ chains b := by
    intro b hi
    rw [((hch.mem b idx).1 hi).1] at hfree
    cases hfree
  have hnext : ∀ j, j ≠ idx → (c.enter idx key).next j = c.next j := by
    intro j hj
    unfold QueryCache.next
    rw [hother j hj]
  refine ⟨⟨fun b => if b = bucketOf (hashKey key) then idx :: chains b else chains b, ?_, ?_, ?_⟩,
    ?_, ?_, ?_, ?_, ?_, h.ends, ?_⟩
  · intro b
    have hhead : (c.enter idx key).bucketHeads b =
        if b = bucketOf (hashKey key) then some idx else c.bucketHeads b := rfl
    rw [hhead]
    split
    · rename_i hb
      refine (hch.linked b).push ?_ fun j hj => hnext j ?_
      · unfold QueryCache.next
        rw [hself, hb]
      · rintro rfl
        exact hout b hj
    · refine (hch.linked b).congr fun j hj => hnext j ?_
      rintro rfl
      exact hout b hj
  · intro b
    split
    · exact List.nodup_cons.2 ⟨hout b, hch.nodup b⟩
    · exact hch.nodup b
  · intro b i
    rw [hin]
    by_cases hi : i = idx
    · subst hi
      rw [hself]
      dsimp only
      split
      · rename_i hb
        simp [hb]
      · rename_i hb
        refine iff_of_false (hout b) ?_
        rintro ⟨-, hbucket⟩
        exact hb hbucket.symm
    · rw [hother i hi]
      split
      · rw [List.mem_cons, hch.mem b i]
        simp [hi]
      · rw [hch.mem b i]
        simp [hi]
  · intro i hi
    rcases hcases i hi with rfl | ⟨-, hi⟩
    · exact hlt
    · exact h.lt i hi
  · intro i hi
    rcases hcases i hi with rfl | ⟨hne, hi⟩
    · rw [hself]
    · rw [hother i hne]
      exact h.hash i hi
  · intro i j hi hj hkey
    rcases hcases i hi with rfl | ⟨hine, hiu⟩
    · rcases hcases j hj with rfl | ⟨hjne, hju⟩
      · rfl
      · rw [hself, hother j hjne] at hkey
        exact absurd hkey.symm (hnew j hju)
    · rcases hcases j hj with rfl | ⟨hjne, hju⟩
      · rw [hself, hother i hine] at hkey
        exact absurd hkey (hnew i hiu)
      · rw [hother i hine, hother j hjne] at hkey
        exact h.keys i j hiu hju hkey
  · have hcount : (c.enter idx key).entryCount = c.entryCount + 1 := rfl
    rw [hcount, h.count]
    exact (countP_add hlt hfree hin).symm
  · intro i
    by_cases hi : i = idx
    · rw [hi, hself]
      exact h.links idx
    · rw [hother i hi]
      exact h.links i
  · intro i hi
    rw [hin, h.tail i hi]
    rfl

end QueryCache

end MiniDbms
