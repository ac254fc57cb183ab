import MiniDbms.Api.QueryCache
import MiniDbms.Api.Render
import MiniDbms.Db.Twin

/-!
# What the query cache holds

Lookups and stores move entries around and drop some, but they never change what
an entry says: every entry in use was stored as it is.
-/

namespace MiniDbms

namespace QueryCache

variable {c c' : QueryCache}

/-- An entry in use says that `body` is the answer to `key` at `tableVersion`. -/
def Holds (c : QueryCache) (key : Bytes) (tableVersion : Nat) (body : Bytes) : Prop :=
  ∃ idx, (c.entries idx).inUse = true ∧ (c.entries idx).key = key ∧
    (c.entries idx).tableVersion = tableVersion ∧ (c.entries idx).body = body

/-- What an entry says. -/
def content (e : QueryCacheEntry) : Bool × Bytes × Nat × Bytes :=
  (e.inUse, e.key, e.tableVersion, e.body)

/-- The entries say the same; the links may differ. -/
def SameEntries (c c' : QueryCache) : Prop := ∀ i, content (c'.entries i) = content (c.entries i)

theorem SameEntries.refl (c : QueryCache) : SameEntries c c := fun _ => rfl

theorem SameEntries.trans {c'' : QueryCache} (h : SameEntries c c') (h' : SameEntries c' c'') :
    SameEntries c c'' := fun i => (h' i).trans (h i)

theorem SameEntries.inUse (h : SameEntries c c') (i : Nat) :
    (c'.entries i).inUse = (c.entries i).inUse := congrArg Prod.fst (h i)

theorem SameEntries.holds (h : SameEntries c c') {key body : Bytes} {v : Nat}
    (hc : c'.Holds key v body) : c.Holds key v body := by
  obtain ⟨i, h₁, h₂, h₃, h₄⟩ := hc
  have hi := h i
  simp only [content, Prod.mk.injEq] at hi
  exact ⟨i, hi.1 ▸ h₁, hi.2.1 ▸ h₂, hi.2.2.1 ▸ h₃, hi.2.2.2 ▸ h₄⟩

theorem SameEntries.set (h : SameEntries c c') {idx : Nat} {e : QueryCacheEntry}
    (he : content e = content (c'.entries idx)) : SameEntries c (c'.setEntry idx e) := by
  refine h.trans ?_
  intro i
  unfold setEntry
  dsimp only
  split
  · rename_i heq
    rw [heq, he]
  · rfl

theorem SameEntries.setBucket (h : SameEntries c c') (bucket : Nat) (idx : Option Nat) :
    SameEntries c (c'.setBucket bucket idx) := h

theorem unlinkLoop_same (bucket idx : Nat) : ∀ (fuel : Nat) (prev cur : Option Nat),
    SameEntries c (c.unlinkLoop bucket idx fuel prev cur)
  | 0, _, _ => SameEntries.refl c
  | _ + 1, _, none => SameEntries.refl c
  | fuel + 1, prev, some cur => by
      rw [unlinkLoop]
      split
      · cases prev with
        | none =>
            refine SameEntries.set ?_ rfl
            exact (SameEntries.refl c).setBucket _ _
        | some p =>
            refine SameEntries.set ?_ rfl
            exact (SameEntries.refl c).set rfl
      · exact unlinkLoop_same bucket idx fuel (some cur) _

theorem unlinkFromBucket_same (idx : Nat) : SameEntries c (c.unlinkFromBucket idx) := by
  unfold unlinkFromBucket
  split
  · exact unlinkLoop_same _ _ _ _ _
  · exact SameEntries.refl c

theorem unlinkFromLru_same (idx : Nat) : SameEntries c (c.unlinkFromLru idx) := by
  unfold unlinkFromLru
  split
  · refine SameEntries.set ?_ rfl
    generalize (c.entries idx).nextLru = next
    generalize (c.entries idx).prevLru = prev
    cases prev with
    | none =>
        cases next with
        | none => exact SameEntries.refl c
        | some n =>
            have h₁ : SameEntries c { c with lruHead := some n } := fun _ => rfl
            exact h₁.set rfl
    | some p =>
        have h₁ : SameEntries c (c.setEntry p { c.entries p with nextLru := next }) :=
          (SameEntries.refl c).set rfl
        cases next with
        | none => exact h₁
        | some n => exact h₁.set rfl
  · exact SameEntries.refl c

theorem touchLruHead_same (idx : Nat) : SameEntries c (c.touchLruHead idx) := by
  unfold touchLruHead
  split
  · have h₁ := unlinkFromLru_same (c := c) idx
    dsimp only
    generalize c.unlinkFromLru idx = c₁ at h₁
    have h₂ : SameEntries c
        (c₁.setEntry idx { c₁.entries idx with prevLru := none, nextLru := c₁.lruHead }) :=
      h₁.set rfl
    generalize c₁.setEntry idx { c₁.entries idx with prevLru := none, nextLru := c₁.lruHead } =
      c₂ at h₂
    cases c₂.lruHead with
    | none => exact h₂
    | some h =>
        have he : content { c₂.entries h with prevLru := some idx } = content (c₂.entries h) := rfl
        exact h₂.set he
  · exact SameEntries.refl c

theorem removeEntry_holds {idx : Nat} {key body : Bytes} {v : Nat}
    (h : (c.removeEntry idx).Holds key v body) : c.Holds key v body := by
  unfold removeEntry at h
  split at h
  · have hsame : SameEntries c ((c.unlinkFromBucket idx).unlinkFromLru idx) :=
      (unlinkFromBucket_same idx).trans (unlinkFromLru_same idx)
    refine hsame.holds ?_
    obtain ⟨i, h₁, h₂, h₃, h₄⟩ := h
    by_cases hi : i = idx
    · simp [setEntry, hi] at h₁
    · simp only [setEntry, hi, if_false] at h₁ h₂ h₃ h₄
      exact ⟨i, h₁, h₂, h₃, h₄⟩
  · exact h

theorem findLoop_spec {key : Bytes} {hash : UInt64} {idx : Nat} : ∀ {fuel : Nat} {cur : Option Nat},
    c.findLoop key hash fuel cur = some idx →
      (c.entries idx).inUse = true ∧ (c.entries idx).key = key
  | 0, _, h => by cases h
  | _ + 1, none, h => by cases h
  | fuel + 1, some cur, h => by
      rw [findLoop] at h
      split at h
      · rename_i he
        cases h
        exact ⟨he.1, he.2.2⟩
      · exact findLoop_spec h

/-- **A hit** comes from an entry in use; nothing new is held after a lookup. -/
theorem queryCacheLookup_spec {key : Bytes} {v now : Nat} {reason : QueryCacheMissReason}
    {out : Option Bytes} (h : c.queryCacheLookup key v now = (c', out, reason)) :
    (∀ body, out = some body → c.Holds key v body) ∧
      ∀ k v' b, c'.Holds k v' b → c.Holds k v' b := by
  unfold queryCacheLookup at h
  split at h
  · cases h
    exact ⟨by simp, fun _ _ _ hh => hh⟩
  · split at h
    · cases h
      exact ⟨by simp, fun _ _ _ hh => hh⟩
    · rename_i idx hfind
      obtain ⟨huse, hkey⟩ := findLoop_spec hfind
      dsimp only at h
      split at h
      · cases h
        exact ⟨by simp, fun _ _ _ hh => removeEntry_holds hh⟩
      · split at h
        · cases h
          exact ⟨by simp, fun _ _ _ hh => removeEntry_holds hh⟩
        · rename_i hver
          cases h
          refine ⟨?_, fun _ _ _ hh => (touchLruHead_same idx).holds hh⟩
          rintro body ⟨⟩
          exact ⟨idx, huse, hkey, not_not.1 hver, rfl⟩

theorem evict_holds {idx : Option Nat} {key body : Bytes} {v : Nat} (h : c.evict = (c', idx))
    (hc : c'.Holds key v body) : c.Holds key v body := by
  unfold evict at h
  split at h
  · cases h
    exact removeEntry_holds hc
  · cases h
    exact hc

theorem allocateEntryIndex_holds {idx : Option Nat} {key body : Bytes} {v : Nat}
    (h : c.allocateEntryIndex = (c', idx)) (hc : c'.Holds key v body) : c.Holds key v body := by
  unfold allocateEntryIndex at h
  split at h
  · split at h
    · cases h
      exact hc
    · exact evict_holds h hc
  · exact evict_holds h hc

theorem fill_holds {idx v now : Nat} {body : Bytes} {k b : Bytes} {v' : Nat}
    (h : (c.fill idx v body now).Holds k v' b) :
    (k = (c.entries idx).key ∧ v' = v ∧ b = body) ∨
      ∃ i, i ≠ idx ∧ (c.entries i).inUse = true ∧ (c.entries i).key = k ∧
        (c.entries i).tableVersion = v' ∧ (c.entries i).body = b := by
  unfold fill at h
  obtain ⟨i, h₁, h₂, h₃, h₄⟩ := (touchLruHead_same idx).holds h
  by_cases hi : i = idx
  · simp only [setEntry, hi, if_true] at h₂ h₃ h₄
    exact Or.inl ⟨h₂.symm, h₃.symm, h₄.symm⟩
  · simp only [setEntry, hi, if_false] at h₁ h₂ h₃ h₄
    exact Or.inr ⟨i, hi, h₁, h₂, h₃, h₄⟩

/-- **A store** adds at most the entry it is asked to store. -/
theorem queryCacheStore_holds {key body : Bytes} {v now : Nat} {k b : Bytes} {v' : Nat}
    (h : (c.queryCacheStore key v body now).Holds k v' b) :
    (k = key ∧ v' = v ∧ b = body) ∨ c.Holds k v' b := by
  unfold queryCacheStore at h
  split at h
  · exact Or.inr h
  · dsimp only at h
    split at h
    · rename_i idx hfind
      obtain ⟨-, hkey⟩ := findLoop_spec hfind
      rcases fill_holds h with ⟨h₁, h₂, h₃⟩ | ⟨i, -, hi⟩
      · exact Or.inl ⟨h₁.trans hkey, h₂, h₃⟩
      · exact Or.inr ⟨i, hi⟩
    · split at h
      · rename_i c₁ halloc
        exact Or.inr (allocateEntryIndex_holds halloc h)
      · rename_i c₁ idx halloc
        rcases fill_holds h with ⟨h₁, h₂, h₃⟩ | ⟨i, hne, h₁, h₂, h₃, h₄⟩
        · refine Or.inl ⟨?_, h₂, h₃⟩
          rw [h₁]
          simp [setEntry, setBucket]
        · refine Or.inr (allocateEntryIndex_holds halloc ⟨i, ?_⟩)
          simp only [setEntry, setBucket, hne, if_false] at h₁ h₂ h₃ h₄
          exact ⟨h₁, h₂, h₃, h₄⟩

end QueryCache

/-- The result document of a SELECT on a version. -/
def TabVer.answer (tab : TabVer) (stmt : Statement) : Option Bytes :=
  match tab.execStmt stmt {} with
  | .ok (_, res, true) => some (sqlData res)
  | _ => none

/-- The snapshot id of a result is not part of its document. -/
theorem TabVer.answer_snap {tab tab' : TabVer} {stmt : Statement} {snap : Nat} {res : DbRes}
    (hsel : stmt.type = .select) (h : tab.execStmt stmt { snapId := snap } = .ok (tab', res, true)) :
    tab.answer stmt = some (sqlData res) := by
  have hsnap := tab.selDo_snap stmt snap {}
  rw [show ({ ({} : DbRes) with snapId := snap } : DbRes) = { snapId := snap } from rfl] at hsnap
  unfold execStmt at h
  rw [hsel] at h
  simp only [hsnap, Except.ok.injEq, Prod.mk.injEq] at h
  obtain ⟨-, rfl, hok⟩ := h
  unfold answer execStmt
  rw [hsel]
  dsimp only
  rw [hok]
  rfl

end MiniDbms
