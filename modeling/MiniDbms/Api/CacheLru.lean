import MiniDbms.Api.CacheMap
import MiniDbms.Lib.Run

/-!
# The eviction order of the query cache

Beside the cache runs the number of the call that last stored or hit each key.  The LRU
list is right when it goes through all the entries in use by these numbers, the newest
first.  Since every entry that is touched forgets the list, it is right exactly as long
as the cache never holds two entries.
-/

namespace MiniDbms

namespace QueryCache

variable {c : QueryCache}

/-- The call stores the key or hits it. -/
def Uses (c : QueryCache) (key : Bytes) : CacheCall → Prop
  | .store k _ body _ => k = key ∧ key ≠ [] ∧ body.length ≤ QUERY_CACHE_MAX_BODY_BYTES
  | .lookup k tableVersion now =>
    k = key ∧ (c.queryCacheLookup k tableVersion now).2.1.isSome = true
  | .clear => False

instance (c : QueryCache) (key : Bytes) : (call : CacheCall) → Decidable (c.Uses key call)
  | .store k _ body _ => inferInstanceAs
      (Decidable (k = key ∧ key ≠ [] ∧ body.length ≤ QUERY_CACHE_MAX_BODY_BYTES))
  | .lookup k tableVersion now => inferInstanceAs
      (Decidable (k = key ∧ (c.queryCacheLookup k tableVersion now).2.1.isSome = true))
  | .clear => isFalse id

/-- The cache with the number of the call that last used each key. -/
structure Tracked where
  cache : QueryCache
  calls : Nat
  lastUse : Bytes → Nat

def Tracked.start (ttlNs : Nat) : Tracked where
  cache := queryCacheInit ttlNs
  calls := 0
  lastUse := fun _ => 0

def Tracked.step (t : Tracked) (call : CacheCall) : Except Empty Tracked :=
  .ok
    { cache := cacheStep t.cache call
      calls := t.calls + 1
      lastUse := fun key => if t.cache.Uses key call then t.calls + 1 else t.lastUse key }

/-- The list from `g_lru_head` to `g_lru_tail`: all entries in use, each once, the last used
first, and `prev_lru` goes the same way back. -/
structure LruOrder (t : Tracked) (l : List Nat) : Prop where
  forward : Linked (fun i => (t.cache.entries i).nextLru) t.cache.lruHead l
  backward : Linked (fun i => (t.cache.entries i).prevLru) t.cache.lruTail l.reverse
  mem : ∀ i, i ∈ l ↔ t.cache.inUse i = true
  nodup : l.Nodup
  recent : l.Pairwise fun i j =>
    t.lastUse (t.cache.entries j).key < t.lastUse (t.cache.entries i).key

/-- The entry that a full cache would evict is the one used longest ago. -/
def EvictsOldest (t : Tracked) : Prop :=
  t.cache.entryCount = QUERY_CACHE_MAX_ENTRIES → ∀ last, t.cache.lruTail = some last →
    ∀ i, t.cache.inUse i = true →
      t.lastUse (t.cache.entries last).key ≤ t.lastUse (t.cache.entries i).key

def LruExact (t : Tracked) : Prop := (∃ l, LruOrder t l) ∧ EvictsOldest t

theorem LruOrder.evictsOldest {t : Tracked} {l : List Nat} (h : LruOrder t l) :
    EvictsOldest t := by
  intro _ last htail i hi
  have hback := h.backward
  cases hrev : l.reverse with
  | nil =>
      rw [hrev, htail] at hback
      cases hback
  | cons a r =>
      rw [hrev, htail] at hback
      obtain rfl := Option.some.inj hback.1
      have hl : l = r.reverse ++ [last] := by rw [← List.reverse_reverse l, hrev]; simp
      have hmem := (h.mem i).2 hi
      have hrec := h.recent
      rw [hl] at hmem hrec
      rcases List.mem_append.1 hmem with hmem | hmem
      · exact Nat.le_of_lt ((List.pairwise_append.1 hrec).2.2 i hmem last (by simp))
      · rw [List.mem_singleton.1 hmem]

/-! ## One entry at most -/

/-- No entry of the cache is linked to another, so the list is right exactly when the head
is the only entry in use. -/
theorem lruExact_iff {t : Tracked} (h : t.cache.Ok) :
    LruExact t ↔ ∀ i, t.cache.inUse i = true → t.cache.lruHead = some i := by
  constructor
  · rintro ⟨⟨l, hl⟩, -⟩ i hi
    have hmem := (hl.mem i).2 hi
    have hfor := hl.forward
    cases l with
    | nil => cases hmem
    | cons a l =>
        obtain ⟨hhead, hrest⟩ := hfor
        have hend : (t.cache.entries a).nextLru = none := (h.links a).2
        cases l with
        | nil =>
            rw [List.mem_singleton.1 hmem]
            exact hhead
        | cons b l => cases hend.symm.trans hrest.1
  · intro hone
    have hlist : ∃ l, LruOrder t l := by
      cases hhead : t.cache.lruHead with
      | none =>
          refine ⟨[], hhead, h.ends.symm.trans hhead, ?_, List.nodup_nil, List.Pairwise.nil⟩
          intro i
          refine iff_of_false List.not_mem_nil fun hi => ?_
          have := hone i hi
          rw [hhead] at this
          cases this
      | some a =>
          have htail : t.cache.lruTail = some a := h.ends.symm.trans hhead
          refine ⟨[a], ⟨hhead, (h.links a).2⟩, ⟨htail, (h.links a).1⟩, ?_, by simp, by simp⟩
          intro i
          rw [List.mem_singleton]
          constructor
          · rintro rfl
            exact h.tail i htail
          · intro hi
            have := hone i hi
            rw [hhead] at this
            exact (Option.some.inj this).symm
    exact ⟨hlist, hlist.elim fun _ hl => hl.evictsOldest⟩

theorem Ok.not_full (h : c.Ok) (hone : ∀ i, c.inUse i = true → c.lruHead = some i) :
    c.entryCount ≠ QUERY_CACHE_MAX_ENTRIES := by
  have hsub : ((List.range QUERY_CACHE_MAX_ENTRIES).filter c.inUse).Subperm
      c.lruHead.toList := by
    refine List.subperm_of_subset (List.nodup_range.filter _) fun i hi => ?_
    rw [Option.mem_toList]
    exact hone i (List.mem_filter.1 hi).2
  have hle : c.lruHead.toList.length ≤ 1 := by
    cases c.lruHead with
    | none => exact Nat.zero_le 1
    | some i => exact le_refl 1
  have hcount : c.entryCount ≤ 1 := by
    rw [h.count, List.countP_eq_length_filter]
    exact hsub.length_le.trans hle
  intro hfull
  rw [hfull] at hcount
  exact absurd hcount (by decide)

/-! ## Steps -/

/-- A key that is not in the cache yet is stored only while no entry is in use. -/
def StoresAlone (c : QueryCache) : CacheCall → Prop
  | .store key _ body _ => key ≠ [] → body.length ≤ QUERY_CACHE_MAX_BODY_BYTES →
    (∃ i, c.inUse i = true ∧ (c.entries i).key = key) ∨ ∀ i, c.inUse i = false
  | _ => True

theorem Ok.store_one (h : c.Ok) (hone : ∀ i, c.inUse i = true → c.lruHead = some i)
    (key : Bytes) (tableVersion : Nat) (body : Bytes) (now : Nat) :
    (∀ i, (c.queryCacheStore key tableVersion body now).inUse i = true →
      (c.queryCacheStore key tableVersion body now).lruHead = some i) ↔
      StoresAlone c (.store key tableVersion body now) := by
  rcases store_step c key tableVersion body now with ⟨hkey, hbody⟩ | ⟨hbad, hself⟩
  · have hst := @Ok.store c key body tableVersion now h hkey hbody
    generalize c.queryCacheStore key tableVersion body now = c' at hst
    obtain ⟨idx, hhead, hidx⟩ := hst.head
    have htail : c'.inUse idx = true := hst.ok.tail idx (hst.ok.ends.symm.trans hhead)
    constructor
    · intro hone' _ _
      by_cases hin : ∃ i, c.inUse i = true ∧ (c.entries i).key = key
      · exact Or.inl hin
      · refine Or.inr fun i => ?_
        by_contra hi
        have hiu : c.inUse i = true := Bool.eq_true_of_not_eq_false hi
        have hne : (c.entries i).key ≠ key := fun heq => hin ⟨i, hiu, heq⟩
        obtain ⟨j, hj⟩ := (hst.has (c.entries i).key (c.entries i).tableVersion
          (c.entries i).body (c.entries i).expireAtNs).2 (Or.inr ⟨hne,
            ⟨i, hiu, rfl, rfl, rfl, rfl⟩, fun hout => h.not_full hone hout.2.1⟩)
        have hji := hone' j hj.inUse
        rw [hhead] at hji
        cases hji
        exact hne (hj.key.symm.trans hidx)
    · intro halone i hi
      have hhas : c'.Has (c'.entries i).key (c'.entries i).tableVersion (c'.entries i).body
        (c'.entries i).expireAtNs := ⟨i, hi, rfl, rfl, rfl, rfl⟩
      have hik : (c'.entries i).key = key := by
        rcases (hst.has _ _ _ _).1 hhas with ⟨hk, -⟩ | ⟨hne, ⟨j, hj⟩, -⟩
        · exact hk
        · rcases halone hkey hbody with ⟨a, ha, hak⟩ | hnone
          · have haj := (hone a ha).symm.trans (hone j hj.inUse)
            cases haj
            exact hj.key.symm.trans hak
          · have hju : c.inUse j = true := hj.inUse
            rw [hnone j] at hju
            cases hju
      rw [hhead, hst.ok.keys i idx hi htail (hik.trans hidx.symm)]
  · have hself : c.queryCacheStore key tableVersion body now = c := hself
    rw [hself]
    exact iff_of_true hone fun hkey hbody => absurd ⟨hkey, hbody⟩ hbad

theorem Ok.lookup_one (h : c.Ok) (hone : ∀ i, c.inUse i = true → c.lruHead = some i)
    (key : Bytes) (tableVersion now : Nat) :
    ∀ i, (c.queryCacheLookup key tableVersion now).1.inUse i = true →
      (c.queryCacheLookup key tableVersion now).1.lruHead = some i := by
  have hl := h.lookedUp key tableVersion now
  generalize c.queryCacheLookup key tableVersion now = r at hl
  cases hl with
  | noKey _ => exact hone
  | @stale idx _ _ _ _ _ hs _ =>
      obtain ⟨-, hrem⟩ := h.removeEntry hs.inUse
      intro i hi
      rw [hrem.inUse i, Bool.and_eq_true, bne_iff_ne] at hi
      have hsame := (hone i hi.1).symm.trans (hone idx hs.inUse)
      exact absurd (Option.some.inj hsame) hi.2
  | @hit idx _ _ _ hs _ =>
      obtain ⟨heq, -⟩ := h.toBase.touch hs.inUse
      rw [heq]
      intro i hi
      have hsame := (hone i hi).symm.trans (hone idx hs.inUse)
      exact hsame.symm ▸ rfl

theorem Tracked.step_iff (t : Tracked) (call : CacheCall) (h : t.cache.Ok ∧ LruExact t) :
    (∃ t', t.step call = .ok t' ∧ t'.cache.Ok ∧ LruExact t') ↔ StoresAlone t.cache call := by
  obtain ⟨hok, hex⟩ := h
  have hone := (lruExact_iff hok).1 hex
  have hok' := (hok.step call).1
  have hstep : (∃ t', t.step call = .ok t' ∧ t'.cache.Ok ∧ LruExact t') ↔
      ∀ i, (cacheStep t.cache call).inUse i = true →
        (cacheStep t.cache call).lruHead = some i := by
    constructor
    · rintro ⟨t', ht, hk, hl⟩
      cases ht
      exact (lruExact_iff hk).1 hl
    · intro hone'
      exact ⟨_, rfl, hok', (lruExact_iff hok').2 hone'⟩
  rw [hstep]
  cases call with
  | store key v body now => exact hok.store_one hone key v body now
  | lookup key v now => exact iff_of_true (hok.lookup_one hone key v now) trivial
  | clear =>
      refine iff_of_true (fun i hi => ?_) trivial
      have hfree : (cacheStep t.cache .clear).inUse i = false := clear_inUse i
      rw [hfree] at hi
      cases hi

theorem Tracked.step_cache {t t' : Tracked} {call : CacheCall} (h : t.step call = .ok t') :
    t'.cache = cacheStep t.cache call := by
  cases h
  rfl

theorem Tracked.start_ok (ttlNs : Nat) : (Tracked.start ttlNs).cache.Ok := init_ok ttlNs

theorem Tracked.start_exact (ttlNs : Nat) : LruExact (Tracked.start ttlNs) :=
  (lruExact_iff (start_ok ttlNs)).2 fun _ hi => nomatch hi

/-- The LRU list is right in every state of a run exactly when the run stores a new key only
into a cache without entries. -/
theorem lru_exact_iff (ttlNs : Nat) (calls : List CacheCall) :
    Run.Always Tracked.step LruExact (Tracked.start ttlNs) calls ↔
      Run.Guarded Tracked.step (fun t call => StoresAlone t.cache call) (Tracked.start ttlNs)
        calls := by
  have hok : Run.Always Tracked.step (fun t => t.cache.Ok) (Tracked.start ttlNs) calls :=
    Run.always_of_step (fun t call h => ⟨_, rfl, (h.step call).1⟩) (Tracked.start_ok ttlNs)
  have hiff := @Run.always_iff_guarded _ _ _ Tracked.step
    (fun t call => StoresAlone t.cache call) (fun t => t.cache.Ok ∧ LruExact t)
    Tracked.step_iff (Tracked.start ttlNs) calls ⟨Tracked.start_ok ttlNs, Tracked.start_exact ttlNs⟩
  rw [← hiff]
  exact ⟨fun h => hok.and h, fun h => h.mono fun t hand => hand.2⟩

theorem not_exact_of_two_stores {ttlNs : Nat} {a b body : Bytes} {now : Nat} (ha : a ≠ [])
    (hb : b ≠ []) (hab : a ≠ b) (hbody : body.length ≤ QUERY_CACHE_MAX_BODY_BYTES) :
    ¬ Run.Always Tracked.step LruExact (Tracked.start ttlNs)
      [.store a 1 body now, .store b 1 body now] := by
  rintro ⟨-, t₁, ht₁, hex₁, t₂, ht₂, hex₂⟩
  have hst := @Ok.store _ a body 1 now (Tracked.start_ok ttlNs) ha hbody
  have hcache := Tracked.step_cache ht₁
  rw [cacheStep] at hcache
  rw [← hcache] at hst
  have hok₂ : t₂.cache.Ok := by
    rw [Tracked.step_cache ht₂]
    exact (hst.ok.step (.store b 1 body now)).1
  have halone := (t₁.step_iff (.store b 1 body now) ⟨hst.ok, hex₁⟩).1 ⟨t₂, ht₂, hok₂, hex₂⟩
  rcases halone hb hbody with ⟨i, hi, hkey⟩ | hnone
  · rcases (hst.has _ _ _ _).1 ⟨i, hi, rfl, rfl, rfl, rfl⟩ with ⟨hk, -⟩ | ⟨-, ⟨j, hj⟩, -⟩
    · exact hab (hk.symm.trans hkey)
    · cases hj.inUse
  · obtain ⟨j, hj⟩ := (hst.has a 1 body _).2 (Or.inl ⟨rfl, rfl, rfl, rfl⟩)
    exact Bool.false_ne_true ((hnone j).symm.trans hj.inUse)

theorem two_stores_break_lru : ¬ Run.Always Tracked.step LruExact (Tracked.start 5000000000)
    [.store [97] 1 [120] 0, .store [98] 1 [120] 0] :=
  not_exact_of_two_stores (by simp) (by simp) (by simp) (by decide)

end QueryCache

end MiniDbms
