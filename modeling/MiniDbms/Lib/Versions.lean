import Mathlib.Data.List.Basic
import Mathlib.Order.Nat

/-!
# Version chains

The versions of one object, newest first.  A snapshot sees the newest version that
is not newer than itself.  Versions are added in front, and pruning takes old ones
away at the end.  Beside the chain stands the record of all versions that ever were
in front of it.
-/

namespace MiniDbms

namespace Versions

variable {V : Type} (ver : V → Nat)

/-- The version of a chain that snapshot `s` sees. -/
def visible (s : Nat) (l : List V) : Option V := l.find? fun v => decide (ver v ≤ s)

/-- Versions get older along the chain. -/
def Sorted (l : List V) : Prop := l.Pairwise fun v w => ver w < ver v

/-- The version in front of the chain goes on record. -/
def record (past : List V) : Option V → List V
  | none => past
  | some v => if past.head?.map ver = some (ver v) then past else v :: past

/-- What pruning down to `keep` leaves of a chain; zero stands for no snapshot at all. -/
structure Cut (keep : Nat) (l l' : List V) : Prop where
  first : l' <+: l
  nonempty : l ≠ [] → l' ≠ []
  kept : keep ≠ 0 → ∀ s, keep ≤ s → visible ver s l' = visible ver s l
  zero : keep = 0 → l' = l.take 1

/-- What one step can do to a chain; `cur` is the newest version number that was given out
and `prunes` says down to where the step prunes, if it does. -/
inductive Change (cur : Nat) (prunes : Option Nat) : List V → List V → Prop
  | same (l : List V) : Change cur prunes l l
  | load (v : V) (hver : ver v = 1) : Change cur prunes [] [v]
  | install (v : V) {l : List V} (hne : l ≠ []) (hver : ver v = cur)
      (hnew : ∀ w ∈ l, ver w < ver v) : Change cur prunes l (v :: l)
  | prune {keep : Nat} {l l' : List V} (h : prunes = some keep) (hcut : Cut ver keep l l') :
      Change cur prunes l l'

/-- A chain and the record of its versions. -/
structure Recorded (cur : Nat) (l past : List V) : Prop where
  first : l <+: past
  nonempty : past ≠ [] → l ≠ []
  sorted : Sorted ver past
  range : ∀ v ∈ past, 1 ≤ ver v ∧ ver v ≤ cur
  oldest : ∀ v, past.getLast? = some v → ver v = 1

variable {ver} {s cur : Nat} {v w : V} {l l' past : List V}

/-! ## Visible versions -/

theorem visible_cons_of_le (h : ver v ≤ s) : visible ver s (v :: l) = some v :=
  List.find?_cons_of_pos (by simpa using h)

theorem visible_cons_of_lt (h : s < ver v) : visible ver s (v :: l) = visible ver s l :=
  List.find?_cons_of_neg (by simpa using h)

theorem visible_mem (h : visible ver s l = some v) : v ∈ l ∧ ver v ≤ s :=
  ⟨List.mem_of_find?_eq_some h, by simpa using List.find?_some h⟩

theorem visible_of_first (h : l' <+: l) (hv : visible ver s l' = some v) :
    visible ver s l = some v := by
  obtain ⟨rest, rfl⟩ := h
  unfold visible at hv ⊢
  rw [List.find?_append, hv]
  rfl

/-- The visible version is the newest one that is old enough. -/
theorem visible_newest (hs : Sorted ver l) (hw : w ∈ l) (hle : ver w ≤ s) :
    ∃ v, visible ver s l = some v ∧ ver w ≤ ver v := by
  induction l with
  | nil => cases hw
  | cons a l ih =>
      obtain ⟨hall, hrest⟩ := List.pairwise_cons.1 hs
      by_cases ha : ver a ≤ s
      · refine ⟨a, visible_cons_of_le ha, ?_⟩
        rcases List.mem_cons.1 hw with rfl | hw
        · exact Nat.le_refl _
        · exact (hall w hw).le
      · rcases List.mem_cons.1 hw with rfl | hw
        · exact absurd hle ha
        · rw [visible_cons_of_lt (Nat.lt_of_not_le ha)]
          exact ih hrest hw

theorem Sorted.eq_of_ver (hs : Sorted ver l) (hv : v ∈ l) (hw : w ∈ l) (h : ver v = ver w) :
    v = w := by
  induction l with
  | nil => cases hv
  | cons a l ih =>
      obtain ⟨hall, hrest⟩ := List.pairwise_cons.1 hs
      rcases List.mem_cons.1 hv with hva | hv'
      · rcases List.mem_cons.1 hw with hwa | hw'
        · rw [hva, hwa]
        · have := hall w hw'
          rw [hva] at h
          omega
      · rcases List.mem_cons.1 hw with hwa | hw'
        · have := hall v hv'
          rw [hwa] at h
          omega
        · exact ih hrest hv' hw'

/-! ## The record -/

namespace Recorded

theorem head_eq (h : Recorded ver cur l past) : l.head? = past.head? := by
  obtain ⟨rest, rfl⟩ := h.first
  cases l with
  | nil =>
      cases rest with
      | nil => rfl
      | cons a rest => exact absurd rfl (h.nonempty (by simp))
  | cons a l => rfl

theorem le_head (h : Recorded ver cur (v :: l) past) (hw : w ∈ past) : ver w ≤ ver v := by
  obtain ⟨rest, rfl⟩ := h.first
  rcases List.mem_cons.1 hw with rfl | hw
  · exact Nat.le_refl _
  · exact ((List.pairwise_cons.1 h.sorted).1 w hw).le

theorem mono {cur' : Nat} (h : Recorded ver cur l past) (hcur : cur ≤ cur') :
    Recorded ver cur' l past :=
  ⟨h.first, h.nonempty, h.sorted, fun v hv => ⟨(h.range v hv).1, (h.range v hv).2.trans hcur⟩,
    h.oldest⟩

theorem record_self (h : Recorded ver cur l past) : record ver past l.head? = past := by
  rw [h.head_eq]
  cases hp : past.head? with
  | none => rfl
  | some v =>
      unfold record
      rw [hp]
      exact if_pos rfl

theorem record_newer (h : Recorded ver cur l past) (hne : l ≠ []) (hnew : ∀ w ∈ l, ver w < ver v) :
    record ver past (some v) = v :: past := by
  obtain ⟨a, rest, rfl⟩ := List.exists_cons_of_ne_nil hne
  unfold record
  rw [← h.head_eq, List.head?_cons, Option.map_some]
  refine if_neg ?_
  rw [Option.some.injEq]
  exact (hnew a List.mem_cons_self).ne

theorem past_nil (h : Recorded ver cur [] past) : past = [] := by
  by_contra hne
  exact h.nonempty hne rfl

/-- **One step**: the chain and the record stay in order, and the record grows in front. -/
theorem change {prunes : Option Nat} (h : Recorded ver cur l past)
    (hc : Change ver cur prunes l l') (hcur : 1 ≤ cur) :
    Recorded ver cur l' (record ver past l'.head?) := by
  cases hc with
  | same =>
      rw [h.record_self]
      exact h
  | load v hver =>
      have hp := h.past_nil
      subst hp
      refine ⟨List.prefix_rfl, by simp, List.pairwise_singleton _ _, ?_, ?_⟩
      · intro w hw
        rw [List.mem_singleton.1 hw, hver]
        exact ⟨Nat.le_refl _, hcur⟩
      · rintro w ⟨⟩
        exact hver
  | install v hne hver hnew =>
      rw [List.head?_cons, h.record_newer hne hnew]
      obtain ⟨a, rest, rfl⟩ := List.exists_cons_of_ne_nil hne
      have ha := hnew a List.mem_cons_self
      refine ⟨List.cons_prefix_cons.2 ⟨rfl, h.first⟩, by simp,
        List.pairwise_cons.2 ⟨?_, h.sorted⟩, ?_, ?_⟩
      · intro w hw
        exact Nat.lt_of_le_of_lt (h.le_head hw) ha
      · intro w hw
        rcases List.mem_cons.1 hw with rfl | hw
        · have := h.range a (h.first.subset List.mem_cons_self)
          omega
        · exact h.range w hw
      · intro w hw
        have hpast : past ≠ [] := List.ne_nil_of_mem (h.first.subset List.mem_cons_self)
        rw [List.getLast?_cons_of_ne_nil hpast] at hw
        exact h.oldest w hw
  | prune _ hcut =>
      have h' : Recorded ver cur l' past :=
        ⟨hcut.first.trans h.first, fun hp => hcut.nonempty (h.nonempty hp), h.sorted, h.range,
          h.oldest⟩
      rw [h'.record_self]
      exact h'

/-- What is visible in the chain is visible on record. -/
theorem visible_past (h : Recorded ver cur l past) (hv : visible ver s l = some v) :
    visible ver s past = some v := visible_of_first h.first hv

theorem visible_cur (h : Recorded ver cur l past) (hs : cur ≤ s) :
    visible ver s l = past.head? ∧ visible ver s past = past.head? := by
  have key : ∀ l₀, (∀ v ∈ l₀, v ∈ past) → visible ver s l₀ = l₀.head? := by
    intro l₀ hsub
    cases l₀ with
    | nil => rfl
    | cons a l₀ => exact visible_cons_of_le ((h.range a (hsub a List.mem_cons_self)).2.trans hs)
  exact ⟨(key l fun v hv => h.first.subset hv).trans h.head_eq, key past fun _ hv => hv⟩

end Recorded

theorem record_cases (past : List V) (o : Option V) :
    record ver past o = past ∨ ∃ v, o = some v ∧ record ver past o = v :: past := by
  cases o with
  | none => exact Or.inl rfl
  | some v =>
      by_cases h : past.head?.map ver = some (ver v)
      · exact Or.inl (if_pos h)
      · exact Or.inr ⟨v, rfl, if_neg h⟩

/-! ## What snapshots lose -/

/-- The snapshot still sees in the chain what it sees on record. -/
def Keeps (ver : V → Nat) (s : Nat) (l past : List V) : Prop :=
  visible ver s l = visible ver s past

/-- A step that does not prune loses nothing, and pruning nothing down to a live snapshot. -/
theorem Keeps.change {prunes : Option Nat} (hk : Keeps ver s l past)
    (h : Recorded ver cur l past) (hc : Change ver cur prunes l l')
    (hprune : ∀ keep, prunes = some keep → keep ≠ 0 → keep ≤ s) (hzero : prunes ≠ some 0) :
    Keeps ver s l' (record ver past l'.head?) := by
  unfold Keeps at hk ⊢
  cases hc with
  | same => rw [h.record_self, hk]
  | load v hver =>
      have hp := h.past_nil
      subst hp
      rfl
  | install v hne hver hnew =>
      rw [List.head?_cons, h.record_newer hne hnew]
      by_cases hle : ver v ≤ s
      · rw [visible_cons_of_le hle, visible_cons_of_le hle]
      · rw [visible_cons_of_lt (Nat.lt_of_not_le hle), visible_cons_of_lt (Nat.lt_of_not_le hle), hk]
  | @prune keep _ _ hp hcut =>
      have hne : keep ≠ 0 := fun h0 => hzero (h0 ▸ hp)
      have hhead : l'.head? = l.head? := by
        obtain ⟨rest, hrest⟩ := hcut.first
        cases l' with
        | nil =>
            cases l with
            | nil => rfl
            | cons a l => exact absurd rfl (hcut.nonempty (by simp))
        | cons a l' =>
            rw [← hrest]
            rfl
      rw [hhead, h.record_self, ← hk]
      exact hcut.kept hne s (hprune keep hp hne)

/-- Pruning with no regard to snapshots loses nothing exactly for those that see the version
in front. -/
theorem keeps_zero_iff (hk : Keeps ver s l past) (h : Recorded ver cur l past) (hs : 1 ≤ s)
    (hcut : Cut ver 0 l l') :
    Keeps ver s l' (record ver past l'.head?) ↔ ∀ v, l.head? = some v → ver v ≤ s := by
  have hl' := hcut.zero rfl
  subst hl'
  have hhead : (l.take 1).head? = l.head? := by cases l <;> rfl
  rw [hhead, h.record_self]
  unfold Keeps at hk ⊢
  cases l with
  | nil => simpa using hk
  | cons a l =>
      rw [List.take_succ_cons, List.take_zero]
      constructor
      · rintro hvis v ⟨⟩
        by_contra hlt
        rw [visible_cons_of_lt (Nat.lt_of_not_le hlt)] at hvis
        have hne : past ≠ [] := by
          rintro rfl
          exact absurd h.first (by simp)
        -- the oldest version on record is visible to everyone
        have hlast := h.oldest _ (List.getLast?_eq_getLast_of_ne_nil hne)
        obtain ⟨w, hw, -⟩ := visible_newest h.sorted (List.getLast_mem hne)
          (hlast.le.trans hs)
        rw [hw] at hvis
        cases hvis
      · intro hle
        have ha := hle a rfl
        rw [visible_cons_of_le ha, ← hk, visible_cons_of_le ha]

end Versions

end MiniDbms
