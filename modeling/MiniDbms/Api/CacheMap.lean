import MiniDbms.Api.CacheRep

/-!
# The query cache as a map

Each operation of the cache is described by what it does to the map from keys to stored
bodies.  Over whole runs, a lookup hits with the last body stored under its key or not
at all, and it misses only for the reasons the cache has to drop an entry.
-/

namespace MiniDbms

namespace QueryCache

variable {c c' : QueryCache} {idx : Nat} {key body : Bytes} {tableVersion now : Nat}

/-- The cache has this body for the key. -/
def Has (c : QueryCache) (key : Bytes) (tableVersion : Nat) (body : Bytes) (expireAtNs : Nat) :
    Prop := ∃ i, Stored (c.entries i) key tableVersion body expireAtNs

theorem Stored.congr {e e' : QueryCacheEntry} {exp : Nat} {next : Option Nat}
    (h : Stored e key tableVersion body exp) (he : e' = { e with nextHash := next }) :
    Stored e' key tableVersion body exp := by
  rw [he]
  exact ⟨h.inUse, h.key, h.tableVersion, h.body, h.expireAtNs⟩

theorem Stored.of_congr {e e' : QueryCacheEntry} {exp : Nat} {next : Option Nat}
    (h : Stored e' key tableVersion body exp) (he : e' = { e with nextHash := next }) :
    Stored e key tableVersion body exp := by
  rw [he] at h
  exact ⟨h.inUse, h.key, h.tableVersion, h.body, h.expireAtNs⟩

theorem Removed.has_iff (h : c.Ok) (huse : c.inUse idx = true) (hrem : Removed c c' idx)
    {exp : Nat} : c'.Has key tableVersion body exp ↔
      c.Has key tableVersion body exp ∧ key ≠ (c.entries idx).key := by
  constructor
  · rintro ⟨i, hi⟩
    have hne : i ≠ idx := by
      rintro rfl
      have := hi.inUse
      rw [hrem.gone] at this
      cases this
    have hold := hi.of_congr (hrem.others i hne)
    refine ⟨⟨i, hold⟩, fun hkey => hne ?_⟩
    exact h.keys i idx hold.inUse huse (hold.key.trans hkey)
  · rintro ⟨⟨i, hi⟩, hkey⟩
    have hne : i ≠ idx := by
      rintro rfl
      exact hkey hi.key.symm
    exact ⟨i, hi.congr (hrem.others i hne)⟩

/-! ## Lookup -/

/-- The outcomes of `query_cache_lookup`. -/
inductive LookedUp (c : QueryCache) (key : Bytes) (tableVersion now : Nat) :
    QueryCache × Option Bytes × QueryCacheMissReason → Prop
  | noKey {reason : QueryCacheMissReason} (h : key = [] ∨ ∀ v b e, ¬ c.Has key v b e) :
      LookedUp c key tableVersion now (c, none, reason)
  | stale {idx v : Nat} {b : Bytes} {e : Nat} {reason : QueryCacheMissReason}
      (hkey : key ≠ []) (hs : Stored (c.entries idx) key v b e)
      (h : e ≤ now ∨ v ≠ tableVersion) :
      LookedUp c key tableVersion now (c.removeEntry idx, none, reason)
  | hit {idx : Nat} {b : Bytes} {e : Nat} (hkey : key ≠ [])
      (hs : Stored (c.entries idx) key tableVersion b e) (h : now < e) :
      LookedUp c key tableVersion now (c.touchLruHead idx, some b, .none)

theorem Ok.lookedUp (h : c.Ok) (key : Bytes) (tableVersion now : Nat) :
    LookedUp c key tableVersion now (c.queryCacheLookup key tableVersion now) := by
  unfold queryCacheLookup
  split
  · rename_i hkey
    exact .noKey (Or.inl hkey)
  · rename_i hkey
    cases hfind : c.findEntryIndex key (hashKey key) with
    | none =>
        refine .noKey (Or.inr ?_)
        rintro v b e ⟨i, hi⟩
        exact h.find_eq_none.1 hfind i hi.inUse hi.key
    | some idx =>
        obtain ⟨huse, hk⟩ := h.find_eq_some.1 hfind
        have hs : Stored (c.entries idx) key (c.entries idx).tableVersion (c.entries idx).body
          (c.entries idx).expireAtNs := ⟨huse, hk, rfl, rfl, rfl⟩
        dsimp only
        split
        · rename_i hexp
          exact .stale hkey hs (Or.inl hexp)
        · rename_i hexp
          split
          · rename_i hver
            exact .stale hkey hs (Or.inr hver)
          · rename_i hver
            rw [not_not.1 hver] at hs
            exact .hit hkey hs (Nat.lt_of_not_le hexp)

theorem Ok.lookup_eq_some (h : c.Ok) : (c.queryCacheLookup key tableVersion now).2.1 = some body ↔
    key ≠ [] ∧ ∃ exp, c.Has key tableVersion body exp ∧ now < exp := by
  have hl := h.lookedUp key tableVersion now
  generalize c.queryCacheLookup key tableVersion now = r at hl
  cases hl with
  | noKey hno =>
      refine iff_of_false (fun hnone => nomatch hnone) ?_
      rintro ⟨hkey, exp, hhas, -⟩
      exact (hno.resolve_left hkey) _ _ _ hhas
  | @stale i v b e _ hkey hs hold =>
      refine iff_of_false (fun hnone => nomatch hnone) ?_
      rintro ⟨-, exp, ⟨j, hj⟩, hlt⟩
      obtain rfl := h.keys i j hs.inUse hj.inUse (hs.key.trans hj.key.symm)
      rcases hold with hexp | hver
      · have := hs.expireAtNs.symm.trans hj.expireAtNs
        omega
      · exact hver (hs.tableVersion.symm.trans hj.tableVersion)
  | @hit i b e hkey hs hlt =>
      constructor
      · rintro ⟨⟩
        exact ⟨hkey, e, ⟨i, hs⟩, hlt⟩
      · rintro ⟨-, exp, ⟨j, hj⟩, -⟩
        obtain rfl := h.keys i j hs.inUse hj.inUse (hs.key.trans hj.key.symm)
        rw [← hs.body, hj.body]

theorem Ok.lookup_has (h : c.Ok) {k : Bytes} {v e : Nat} {b : Bytes} :
    (c.queryCacheLookup key tableVersion now).1.Has k v b e ↔ c.Has k v b e ∧
      ¬ (k = key ∧ (c.queryCacheLookup key tableVersion now).2.1 = none ∧ key ≠ []) := by
  have hl := h.lookedUp key tableVersion now
  generalize c.queryCacheLookup key tableVersion now = r at hl
  cases hl with
  | noKey hno =>
      refine ⟨fun hhas => ⟨hhas, ?_⟩, fun hand => hand.1⟩
      rintro ⟨rfl, -, hkey⟩
      exact (hno.resolve_left hkey) _ _ _ hhas
  | @stale i v' b' e' _ hkey hs hold =>
      rw [(h.removeEntry hs.inUse).2.has_iff h hs.inUse, hs.key]
      simp [hkey]
  | @hit i b' e' hkey hs hlt =>
      rw [(h.toBase.touch hs.inUse).1]
      refine ⟨fun hhas => ⟨hhas, fun hand => nomatch hand.2.1⟩, fun hand => hand.1⟩

theorem Ok.lookup (h : c.Ok) (key : Bytes) (tableVersion now : Nat) :
    (c.queryCacheLookup key tableVersion now).1.Ok ∧
      (c.queryCacheLookup key tableVersion now).1.ttlNs = c.ttlNs := by
  have hl := h.lookedUp key tableVersion now
  generalize c.queryCacheLookup key tableVersion now = r at hl
  cases hl with
  | noKey _ => exact ⟨h, rfl⟩
  | stale _ hs _ =>
      obtain ⟨hok, hrem⟩ := h.removeEntry hs.inUse
      exact ⟨hok, hrem.ttl⟩
  | hit _ hs _ =>
      obtain ⟨heq, hok⟩ := h.toBase.touch hs.inUse
      refine ⟨hok, ?_⟩
      rw [heq]

/-! ## Store -/

/-- A store of `key` pushes the entry of `k` out. -/
def PushedOut (c : QueryCache) (key k : Bytes) : Prop :=
  c.findEntryIndex key (hashKey key) = none ∧ c.entryCount = QUERY_CACHE_MAX_ENTRIES ∧
    ∃ last, c.lruTail = some last ∧ (c.entries last).key = k

/-- The map behind a store that is not refused. -/
structure StoredTo (c c' : QueryCache) (key : Bytes) (tableVersion : Nat) (body : Bytes)
    (now : Nat) : Prop where
  ok : c'.Ok
  ttl : c'.ttlNs = c.ttlNs
  has : ∀ k v b e, c'.Has k v b e ↔
    (k = key ∧ v = tableVersion ∧ b = body ∧ e = now + c.ttlNs) ∨
      (k ≠ key ∧ c.Has k v b e ∧ ¬ c.PushedOut key k)
  head : ∃ i, c'.lruHead = some i ∧ (c'.entries i).key = key

theorem Base.fill_has (h : c.Base) (huse : c.inUse idx = true) {k : Bytes} {v e : Nat}
    {b : Bytes} : (c.fill idx tableVersion body now).Has k v b e ↔
      (k = (c.entries idx).key ∧ v = tableVersion ∧ b = body ∧ e = now + c.ttlNs) ∨
        ∃ i, i ≠ idx ∧ Stored (c.entries i) k v b e := by
  obtain ⟨-, hself, hother⟩ := h.fill huse tableVersion body now
  constructor
  · rintro ⟨i, hi⟩
    by_cases heq : i = idx
    · subst heq
      exact Or.inl ⟨hi.key.symm.trans hself.key, hi.tableVersion.symm.trans hself.tableVersion,
        hi.body.symm.trans hself.body, hi.expireAtNs.symm.trans hself.expireAtNs⟩
    · rw [hother i heq] at hi
      exact Or.inr ⟨i, heq, hi⟩
  · rintro (⟨rfl, rfl, rfl, rfl⟩ | ⟨i, hne, hi⟩)
    · exact ⟨idx, hself⟩
    · refine ⟨i, ?_⟩
      rw [hother i hne]
      exact hi

theorem fill_ttl_head (h : c.Base) (huse : c.inUse idx = true) :
    (c.fill idx tableVersion body now).ttlNs = c.ttlNs ∧
      (c.fill idx tableVersion body now).lruHead = some idx := by
  unfold fill
  rw [touchLruHead_eq]
  · exact ⟨rfl, rfl⟩
  · have huse : (c.entries idx).inUse = true := huse
    unfold QueryCache.inUse setEntry
    simpa using huse
  · simpa [setEntry] using h.links idx

theorem Ok.store (h : c.Ok) (hkey : key ≠ []) (hbody : body.length ≤ QUERY_CACHE_MAX_BODY_BYTES) :
    StoredTo c (c.queryCacheStore key tableVersion body now) key tableVersion body now := by
  unfold queryCacheStore
  rw [if_neg (not_or.2 ⟨hkey, Nat.not_lt.2 hbody⟩)]
  dsimp only
  cases hfind : c.findEntryIndex key (hashKey key) with
  | some idx =>
      obtain ⟨huse, hk⟩ := h.find_eq_some.1 hfind
      dsimp only
      obtain ⟨hfillok, hself, -⟩ := h.toBase.fill huse tableVersion body now
      obtain ⟨httl, hhead⟩ := @fill_ttl_head _ _ body tableVersion now h.toBase huse
      refine ⟨hfillok, httl, ?_, idx, hhead, hself.key.trans hk⟩
      intro k v b e
      rw [h.toBase.fill_has huse, hk]
      refine or_congr Iff.rfl ?_
      constructor
      · rintro ⟨i, hne, hi⟩
        refine ⟨fun heq => hne ?_, ⟨i, hi⟩, fun hout => ?_⟩
        · exact h.keys i idx hi.inUse huse (hi.key.trans (heq.trans hk.symm))
        · rw [hout.1] at hfind
          cases hfind
      · rintro ⟨hne, ⟨i, hi⟩, -⟩
        refine ⟨i, ?_, hi⟩
        rintro rfl
        exact hne (hi.key.symm.trans hk)
  | none =>
      have hnew := h.find_eq_none.1 hfind
      obtain ⟨c₁, idx, halloc, ha⟩ := h.allocate
      rw [halloc]
      dsimp only
      have hnew₁ : ∀ i, c₁.inUse i = true → (c₁.entries i).key ≠ key := by
        intro i hi
        rcases ha.how with ⟨rfl, -⟩ | ⟨last, -, -, hrem⟩
        · exact hnew i hi
        · have hand := hrem.inUse i
          rw [hi] at hand
          have hiu : c.inUse i = true ∧ i ≠ last := by simpa using hand.symm
          rw [hrem.others i hiu.2]
          exact hnew i hiu.1
      have hhas₁ : ∀ k v b e, c₁.Has k v b e ↔ c.Has k v b e ∧ ¬ c.PushedOut key k := by
        intro k v b e
        rcases ha.how with ⟨rfl, hroom⟩ | ⟨last, hfull, htail, hrem⟩
        · refine ⟨fun hh => ⟨hh, fun hout => ?_⟩, fun hand => hand.1⟩
          have := hout.2.1
          omega
        · rw [hrem.has_iff h (h.tail last htail)]
          refine and_congr_right fun _ => ?_
          constructor
          · rintro hne ⟨-, -, last', htail', rfl⟩
            rw [htail] at htail'
            cases htail'
            exact hne rfl
          · intro hno heq
            exact hno ⟨hfind, hfull, last, htail, heq.symm⟩
      have httl₁ : c₁.ttlNs = c.ttlNs := by
        rcases ha.how with ⟨rfl, -⟩ | ⟨last, -, -, hrem⟩
        · rfl
        · exact hrem.ttl
      have hent := ha.ok.toBase.enter ha.lt ha.free hnew₁
      have huse : (c₁.enter idx key).inUse idx = true := by
        unfold QueryCache.inUse
        rw [enter_entries_self]
      have hk : ((c₁.enter idx key).entries idx).key = key := by rw [enter_entries_self]
      obtain ⟨hfillok, hself, -⟩ := hent.fill huse tableVersion body now
      obtain ⟨hfillttl, hhead⟩ := @fill_ttl_head _ _ body tableVersion now hent huse
      refine ⟨hfillok, hfillttl.trans httl₁, ?_, idx, hhead, hself.key.trans hk⟩
      intro k v b e
      have hmap := @Base.fill_has _ idx body tableVersion now hent huse k v e b
      refine hmap.trans ?_
      have httl : (c₁.enter idx key).ttlNs = c.ttlNs := httl₁
      rw [hk, httl]
      refine or_congr Iff.rfl ?_
      rw [← hhas₁]
      constructor
      · rintro ⟨i, hne, hi⟩
        rw [enter_entries_ne key hne] at hi
        exact ⟨fun heq => hnew₁ i hi.inUse (hi.key.trans heq), i, hi⟩
      · rintro ⟨-, i, hi⟩
        have hne : i ≠ idx := by
          rintro rfl
          have := ha.free
          unfold QueryCache.inUse at this
          rw [hi.inUse] at this
          cases this
        refine ⟨i, hne, ?_⟩
        rw [enter_entries_ne key hne]
        exact hi

/-! ## Clear -/

theorem clear_inUse (i : Nat) : c.queryCacheClear.inUse i = false := by
  unfold QueryCache.inUse queryCacheClear
  dsimp only
  split
  · rfl
  · rename_i hi
    exact Bool.eq_false_iff.2 hi

theorem clear_has {k : Bytes} {v e : Nat} {b : Bytes} : ¬ c.queryCacheClear.Has k v b e := by
  rintro ⟨i, hi⟩
  exact Bool.false_ne_true ((clear_inUse i).symm.trans hi.inUse)

theorem Ok.clear (h : c.Ok) : c.queryCacheClear.Ok := by
  have hfalse : ∀ i, c.queryCacheClear.inUse i ≠ true := fun i => by simp [clear_inUse]
  refine ⟨⟨⟨fun _ => [], fun _ => rfl, fun _ => List.nodup_nil, fun b i => ?_⟩,
    fun i hi => absurd hi (hfalse i), fun i hi => absurd hi (hfalse i),
    fun i j hi => absurd hi (hfalse i), ?_, fun i => ?_, rfl, fun i hi => nomatch hi⟩,
    fun _ => (by decide : 0 < QUERY_CACHE_MAX_ENTRIES)⟩
  · simp [clear_inUse]
  · exact (List.countP_eq_zero.2 fun i _ => hfalse i).symm
  · unfold queryCacheClear
    dsimp only
    split
    · exact ⟨rfl, rfl⟩
    · exact h.links i

/-! ## Runs -/

inductive CacheCall
  | store (key : Bytes) (tableVersion : Nat) (body : Bytes) (now : Nat)
  | lookup (key : Bytes) (tableVersion now : Nat)
  | clear

def cacheStep (c : QueryCache) : CacheCall → QueryCache
  | .store key tableVersion body now => c.queryCacheStore key tableVersion body now
  | .lookup key tableVersion now => (c.queryCacheLookup key tableVersion now).1
  | .clear => c.queryCacheClear

/-- The cache after some calls. -/
def after (ttlNs : Nat) (calls : List CacheCall) : QueryCache :=
  calls.foldl cacheStep (queryCacheInit ttlNs)

/-- A store under the key of a body that is not too long. -/
def StoresKey (key : Bytes) : CacheCall → Prop
  | .store k _ body _ => k = key ∧ body.length ≤ QUERY_CACHE_MAX_BODY_BYTES
  | _ => False

/-- The call takes the entry of the key out: it clears the cache, is a lookup of the key
that misses, or stores another key into a full cache with this entry at the end of the
LRU list. -/
def Drops (c : QueryCache) (key : Bytes) : CacheCall → Prop
  | .store k _ body _ => k ≠ [] ∧ body.length ≤ QUERY_CACHE_MAX_BODY_BYTES ∧ c.PushedOut k key
  | .lookup k tableVersion now =>
    k = key ∧ (c.queryCacheLookup k tableVersion now).2.1 = none
  | .clear => True

/-- The last store under the key, with nothing stored under it since. -/
def LastStore (calls : List CacheCall) (key : Bytes) (tableVersion : Nat) (body : Bytes)
    (now : Nat) : Prop :=
  ∃ before since, calls = before ++ .store key tableVersion body now :: since ∧ key ≠ [] ∧
    body.length ≤ QUERY_CACHE_MAX_BODY_BYTES ∧ ∀ call ∈ since, ¬ StoresKey key call

theorem after_snoc (ttlNs : Nat) (calls : List CacheCall) (call : CacheCall) :
    after ttlNs (calls ++ [call]) = cacheStep (after ttlNs calls) call := by
  unfold after
  rw [List.foldl_append]
  rfl

theorem store_refused (h : key = [] ∨ QUERY_CACHE_MAX_BODY_BYTES < body.length) :
    c.queryCacheStore key tableVersion body now = c := if_pos h

theorem store_step (c : QueryCache) (key : Bytes) (tableVersion : Nat) (body : Bytes) (now : Nat) :
    (key ≠ [] ∧ body.length ≤ QUERY_CACHE_MAX_BODY_BYTES) ∨
      (¬ (key ≠ [] ∧ body.length ≤ QUERY_CACHE_MAX_BODY_BYTES) ∧
        cacheStep c (.store key tableVersion body now) = c) := by
  by_cases hok : key ≠ [] ∧ body.length ≤ QUERY_CACHE_MAX_BODY_BYTES
  · exact Or.inl hok
  · refine Or.inr ⟨hok, store_refused ?_⟩
    rw [not_and_or, not_not, Nat.not_le] at hok
    exact hok

theorem Ok.step (h : c.Ok) (call : CacheCall) :
    (cacheStep c call).Ok ∧ (cacheStep c call).ttlNs = c.ttlNs := by
  cases call with
  | store key v body now =>
      rcases store_step c key v body now with ⟨hkey, hbody⟩ | ⟨-, hself⟩
      · have hst := @Ok.store c key body v now h hkey hbody
        exact ⟨hst.ok, hst.ttl⟩
      · rw [hself]
        exact ⟨h, rfl⟩
  | lookup key v now => exact h.lookup key v now
  | clear => exact ⟨h.clear, rfl⟩

theorem after_ok (ttlNs : Nat) (calls : List CacheCall) :
    (after ttlNs calls).Ok ∧ (after ttlNs calls).ttlNs = ttlNs := by
  induction calls using List.reverseRecOn with
  | nil => exact ⟨init_ok ttlNs, rfl⟩
  | append_singleton calls call ih =>
      rw [after_snoc]
      obtain ⟨hok, httl⟩ := ih.1.step call
      exact ⟨hok, httl.trans ih.2⟩

theorem LastStore.snoc {calls : List CacheCall} {call : CacheCall}
    (h : LastStore calls key tableVersion body now) (hno : ¬ StoresKey key call) :
    LastStore (calls ++ [call]) key tableVersion body now := by
  obtain ⟨before, since, rfl, hkey, hbody, hsince⟩ := h
  refine ⟨before, since ++ [call], by simp, hkey, hbody, ?_⟩
  intro x hx
  rcases List.mem_append.1 hx with hx | hx
  · exact hsince x hx
  · rw [List.mem_singleton.1 hx]
    exact hno

theorem has_lastStore {ttlNs : Nat} {calls : List CacheCall} {exp : Nat}
    (h : (after ttlNs calls).Has key tableVersion body exp) :
    ∃ now, LastStore calls key tableVersion body now ∧ exp = now + ttlNs := by
  induction calls using List.reverseRecOn generalizing key tableVersion body exp with
  | nil =>
      obtain ⟨i, hi⟩ := h
      cases hi.inUse
  | append_singleton calls call ih =>
      obtain ⟨hok, httl⟩ := after_ok ttlNs calls
      rw [after_snoc] at h
      cases call with
      | store k v b t =>
          rcases store_step (after ttlNs calls) k v b t with hgood | ⟨hbad, hself⟩
          · have hst := @Ok.store _ k b v t hok hgood.1 hgood.2
            rcases (hst.has key tableVersion body exp).1 h with
              ⟨rfl, rfl, rfl, rfl⟩ | ⟨hne, hold, -⟩
            · exact ⟨t, ⟨calls, [], rfl, hgood.1, hgood.2, by simp⟩, by rw [httl]⟩
            · obtain ⟨now, hlast, hexp⟩ := ih hold
              exact ⟨now, hlast.snoc fun hs => hne hs.1.symm, hexp⟩
          · rw [hself] at h
            obtain ⟨now, hlast, hexp⟩ := ih h
            refine ⟨now, hlast.snoc ?_, hexp⟩
            rintro ⟨rfl, hlen⟩
            obtain ⟨-, -, -, hkey, -⟩ := hlast
            exact hbad ⟨hkey, hlen⟩
      | lookup k v t =>
          obtain ⟨now, hlast, hexp⟩ := ih (hok.lookup_has.1 h).1
          exact ⟨now, hlast.snoc id, hexp⟩
      | clear => exact absurd h clear_has

/-- What is not dropped and not stored anew stays. -/
theorem Ok.has_step (h : c.Ok) {exp : Nat} (hhas : c.Has key tableVersion body exp)
    {call : CacheCall} (hno : ¬ StoresKey key call) (hkeep : ¬ c.Drops key call) :
    (cacheStep c call).Has key tableVersion body exp := by
  cases call with
  | store k v b t =>
      rcases store_step c k v b t with hgood | ⟨-, hself⟩
      · have hst := @Ok.store c k b v t h hgood.1 hgood.2
        refine (hst.has key tableVersion body exp).2 (Or.inr ⟨?_, hhas, ?_⟩)
        · rintro rfl
          exact hno ⟨rfl, hgood.2⟩
        · exact fun hout => hkeep ⟨hgood.1, hgood.2, hout⟩
      · rw [hself]
        exact hhas
  | lookup k v t =>
      refine h.lookup_has.2 ⟨hhas, ?_⟩
      rintro ⟨rfl, hnone, -⟩
      exact hkeep ⟨rfl, hnone⟩
  | clear => exact absurd trivial hkeep

/-- A stored body stays as long as no call drops it. -/
theorem has_of_kept {ttlNs : Nat} {before since : List CacheCall} (hkey : key ≠ [])
    (hbody : body.length ≤ QUERY_CACHE_MAX_BODY_BYTES)
    (hsince : ∀ call ∈ since, ¬ StoresKey key call)
    (hkept : ∀ front call rest, since = front ++ call :: rest →
      ¬ (after ttlNs (before ++ .store key tableVersion body now :: front)).Drops key call) :
    (after ttlNs (before ++ .store key tableVersion body now :: since)).Has key tableVersion body
      (now + ttlNs) := by
  induction since using List.reverseRecOn with
  | nil =>
      obtain ⟨hok, httl⟩ := after_ok ttlNs before
      rw [after_snoc]
      have hst := @Ok.store _ key body tableVersion now hok hkey hbody
      exact (hst.has key tableVersion body _).2 (Or.inl ⟨rfl, rfl, rfl, by rw [httl]⟩)
  | append_singleton since call ih =>
      have hhas := ih (fun x hx => hsince x (List.mem_append_left _ hx)) (by
        rintro front x rest rfl
        exact hkept front x (rest ++ [call]) (by simp))
      have hsnoc : before ++ .store key tableVersion body now :: (since ++ [call]) =
          before ++ .store key tableVersion body now :: since ++ [call] := by simp
      rw [hsnoc, after_snoc]
      exact (after_ok ttlNs _).1.has_step hhas (hsince call (by simp)) (hkept since call [] rfl)

/-- The query cache is a partial map: its chains hold each entry in use once, a lookup hits
with the last body stored under its key, of its version and not yet expired, and it does
hit unless a call since the store dropped the entry. -/
theorem queryCache_map (ttlNs : Nat) (calls : List CacheCall) :
    (after ttlNs calls).Ok ∧ (after ttlNs calls).entryCount ≤ QUERY_CACHE_MAX_ENTRIES ∧
    (∀ key tableVersion now body,
      ((after ttlNs calls).queryCacheLookup key tableVersion now).2.1 = some body →
        ∃ t, LastStore calls key tableVersion body t ∧ now < t + ttlNs) ∧
    (∀ key tableVersion now body t before since,
      calls = before ++ .store key tableVersion body t :: since → key ≠ [] →
      body.length ≤ QUERY_CACHE_MAX_BODY_BYTES →
      (∀ call ∈ since, ¬ StoresKey key call) →
      (∀ front call rest, since = front ++ call :: rest →
        ¬ (after ttlNs (before ++ .store key tableVersion body t :: front)).Drops key call) →
      now < t + ttlNs →
        ((after ttlNs calls).queryCacheLookup key tableVersion now).2.1 = some body) := by
  have hok := (after_ok ttlNs calls).1
  refine ⟨hok, hok.count_le, ?_, ?_⟩
  · intro key tableVersion now body hhit
    obtain ⟨-, exp, hhas, hnow⟩ := hok.lookup_eq_some.1 hhit
    obtain ⟨t, hlast, rfl⟩ := has_lastStore hhas
    exact ⟨t, hlast, hnow⟩
  · rintro key tableVersion now body t before since rfl hkey hbody hsince hkept hnow
    have hhas := @has_of_kept key body tableVersion t ttlNs before since hkey hbody hsince hkept
    exact hok.lookup_eq_some.2 ⟨hkey, _, hhas, hnow⟩

/-- A store of a body that is too long is refused: the lookup still has the one before. -/
theorem refused_store_leaves_body : ∃ (calls : List CacheCall) (key old new : Bytes),
    calls = [.store key 1 old 0, .store key 2 new 0] ∧ old ≠ new ∧
      ((after 1 calls).queryCacheLookup key 1 0).2.1 = some old := by
  obtain ⟨new, hlong⟩ : ∃ new : Bytes, QUERY_CACHE_MAX_BODY_BYTES < new.length := by
    refine ⟨List.replicate (QUERY_CACHE_MAX_BODY_BYTES + 1) 0, ?_⟩
    rw [List.length_replicate]
    omega
  refine ⟨_, [107], [97], new, rfl, ?_, ?_⟩
  · rintro rfl
    exact absurd hlong (by decide)
  · have hsame : after 1 [.store [107] 1 [97] 0, .store [107] 2 new 0] =
        after 1 [.store [107] 1 [97] 0] := by
      have hrefused := (store_step (after 1 [.store [107] 1 [97] 0]) [107] 2 new 0).resolve_left
        fun hand => Nat.not_le.2 hlong hand.2
      exact (after_snoc 1 [.store [107] 1 [97] 0] (.store [107] 2 new 0)).trans hrefused.2
    have hhas := @has_of_kept [107] [97] 1 0 1 [] [] (by simp) (by decide) (by simp) (by simp)
    rw [hsame]
    exact (after_ok 1 _).1.lookup_eq_some.2 ⟨by simp, _, hhas, by decide⟩

end QueryCache

end MiniDbms
