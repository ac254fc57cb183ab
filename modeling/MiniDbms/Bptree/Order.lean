import MiniDbms.Bptree.Basic
import Mathlib.Data.List.TakeWhile
import Mathlib.Order.MinMax

/-!
# The search-tree order

Every node is responsible for a half-open interval of keys, its separators cut
that interval into those of its children, and leaf entries are sorted.  This file
states the invariant and proves that descending by `upperBound` reaches the one
leaf that can hold a key.
-/

namespace MiniDbms.Bptree

section Bisect

variable {α : Type}

/-- On a list whose left part is exactly where `right` holds, `bisect` finds the
border. -/
theorem bisect_eq {right : α → Bool} {keys : List α} {t : Nat}
    (hborder : ∀ i k, keys[i]? = some k → (right k = true ↔ i < t)) :
    ∀ fuel lo hi, lo ≤ t → t ≤ hi → hi ≤ keys.length → hi - lo ≤ fuel →
      bisect right keys fuel lo hi = t := by
  intro fuel
  induction fuel with
  | zero =>
      intro lo hi hlo hhi _ hfuel
      simp only [bisect]
      omega
  | succ fuel ih =>
      intro lo hi hlo hhi hlen hfuel
      simp only [bisect]
      by_cases hlt : lo < hi
      · have hmid : lo + (hi - lo) / 2 < keys.length := by omega
        rw [if_pos hlt, List.getElem?_eq_getElem hmid]
        have hb := hborder _ _ (List.getElem?_eq_getElem hmid)
        dsimp only
        split
        · rename_i hr
          have := hb.1 hr
          exact ih _ _ (by omega) hhi hlen (by omega)
        · rename_i hr
          have : ¬ lo + (hi - lo) / 2 < t := fun h => hr (hb.2 h)
          exact ih _ _ hlo (by omega) (by omega) (by omega)
      · rw [if_neg hlt]
        omega

theorem takeWhile_border {right : α → Bool} :
    ∀ {keys : List α}, keys.Pairwise (fun a b => right b = true → right a = true) →
      ∀ i k, keys[i]? = some k → (right k = true ↔ i < (keys.takeWhile right).length)
  | [], _, i, k, h => by simp at h
  | a :: keys, hp, i, k, h => by
      rw [List.pairwise_cons] at hp
      by_cases ha : right a = true
      · cases i with
        | zero =>
            simp only [List.getElem?_cons_zero, Option.some.injEq] at h
            subst h
            simp [ha]
        | succ i =>
            simp only [List.getElem?_cons_succ] at h
            rw [List.takeWhile_cons_of_pos ha, takeWhile_border hp.2 i k h]
            simp
      · rw [List.takeWhile_cons_of_neg ha]
        cases i with
        | zero =>
            simp only [List.getElem?_cons_zero, Option.some.injEq] at h
            subst h
            simpa using ha
        | succ i =>
            simp only [List.getElem?_cons_succ] at h
            have hk : k ∈ keys := List.mem_of_getElem? h
            simpa using fun hr => ha (hp.1 k hk hr)

theorem bisect_eq_takeWhile {right : α → Bool} {keys : List α}
    (hp : keys.Pairwise (fun a b => right b = true → right a = true)) :
    bisect right keys keys.length 0 keys.length = (keys.takeWhile right).length :=
  bisect_eq (takeWhile_border hp) _ _ _ (Nat.zero_le _)
    (List.takeWhile_sublist right).length_le (Nat.le_refl _) (by omega)

end Bisect

variable {α ν : Type} [LinearOrder α]

/-- Keys of a list of entries strictly increase. -/
def Sorted (entries : List (α × ν)) : Prop := entries.Pairwise fun a b => a.1 < b.1

theorem lowerBound_eq {keys : List α} (h : keys.Pairwise (· < ·)) (key : α) :
    lowerBound keys key = (keys.takeWhile fun k => decide (k < key)).length := by
  refine bisect_eq_takeWhile (h.imp ?_)
  intro a b hab hb
  exact decide_eq_true (hab.trans (of_decide_eq_true hb))

theorem upperBound_eq {keys : List α} (h : keys.Pairwise (· < ·)) (key : α) :
    upperBound keys key = (keys.takeWhile fun k => decide (k ≤ key)).length := by
  refine bisect_eq_takeWhile (h.imp ?_)
  intro a b hab hb
  exact decide_eq_true (hab.le.trans (of_decide_eq_true hb))

theorem lowerBound_cut {entries : List (α × ν)} (h : Sorted entries) (key : α) :
    entries.take (lowerBound (entries.map Prod.fst) key) =
        entries.takeWhile (fun e => decide (e.1 < key)) ∧
      entries.drop (lowerBound (entries.map Prod.fst) key) =
        entries.dropWhile (fun e => decide (e.1 < key)) := by
  have hkeys : (entries.map Prod.fst).Pairwise (· < ·) := List.pairwise_map.2 h
  have hlen : lowerBound (entries.map Prod.fst) key =
      (entries.takeWhile fun e => decide (e.1 < key)).length := by
    rw [lowerBound_eq hkeys, List.takeWhile_map, List.length_map]
    rfl
  rw [hlen]
  constructor
  · exact (List.prefix_iff_eq_take.1 (List.takeWhile_prefix _)).symm
  · have happ := List.takeWhile_append_dropWhile (p := fun e => decide (e.1 < key)) (l := entries)
    calc entries.drop (entries.takeWhile fun e => decide (e.1 < key)).length
        = (entries.takeWhile (fun e => decide (e.1 < key)) ++
            entries.dropWhile fun e => decide (e.1 < key)).drop
              (entries.takeWhile fun e => decide (e.1 < key)).length := by rw [happ]
      _ = _ := List.drop_left

/-! ## Intervals -/

def Above (lo : Option α) (k : α) : Prop := ∀ l ∈ lo, l ≤ k

def StrictlyAbove (lo : Option α) (k : α) : Prop := ∀ l ∈ lo, l < k

def Below (hi : Option α) (k : α) : Prop := ∀ u ∈ hi, k < u

@[simp] theorem above_some {l k : α} : Above (some l) k ↔ l ≤ k := by simp [Above]

@[simp] theorem strictlyAbove_some {l k : α} : StrictlyAbove (some l) k ↔ l < k := by
  simp [StrictlyAbove]

@[simp] theorem below_some {u k : α} : Below (some u) k ↔ k < u := by simp [Below]

@[simp] theorem above_none {k : α} : Above none k := by simp [Above]

@[simp] theorem strictlyAbove_none {k : α} : StrictlyAbove none k := by simp [StrictlyAbove]

@[simp] theorem below_none {k : α} : Below none k := by simp [Below]

theorem StrictlyAbove.above {lo : Option α} {k : α} (h : StrictlyAbove lo k) : Above lo k :=
  fun l hl => (h l hl).le

theorem StrictlyAbove.trans {lo : Option α} {k m : α} (h : StrictlyAbove lo k) (hkm : k < m) :
    StrictlyAbove lo m := fun l hl => (h l hl).trans hkm

theorem Above.mono {lo : Option α} {k m : α} (h : Above lo k) (hkm : k ≤ m) : Above lo m :=
  fun l hl => (h l hl).trans hkm

theorem Below.mono {hi : Option α} {k m : α} (h : Below hi m) (hkm : k ≤ m) : Below hi k :=
  fun u hu => lt_of_le_of_lt hkm (h u hu)

/-- The separators `ss` cut `[lo, hi)` into the intervals of the children `ns`. -/
def Chained {β : Type} (P : Option α → Option α → β → Prop) :
    Option α → Option α → List α → List β → Prop
  | lo, hi, [], [n] => P lo hi n
  | lo, hi, s :: ss, n :: ns =>
    StrictlyAbove lo s ∧ Below hi s ∧ P lo (some s) n ∧ Chained P (some s) hi ss ns
  | _, _, _, _ => False

namespace Chained

variable {β : Type} {P : Option α → Option α → β → Prop}

theorem keys_above : ∀ {lo hi : Option α} {ss : List α} {ns : List β},
    Chained P lo hi ss ns → ∀ s ∈ ss, StrictlyAbove lo s
  | _, _, [], _, _ => by simp
  | lo, hi, s :: ss, [], h => by simp [Chained] at h
  | lo, hi, s :: ss, n :: ns, h => by
      intro t ht
      rcases List.mem_cons.1 ht with rfl | ht
      · exact h.1
      · exact h.1.trans (strictlyAbove_some.1 (keys_above h.2.2.2 t ht))

theorem keys_sorted : ∀ {lo hi : Option α} {ss : List α} {ns : List β},
    Chained P lo hi ss ns → ss.Pairwise (· < ·)
  | _, _, [], _, _ => by simp
  | lo, hi, s :: ss, [], h => by simp [Chained] at h
  | lo, hi, s :: ss, n :: ns, h => by
      rw [List.pairwise_cons]
      exact ⟨fun t ht => strictlyAbove_some.1 (keys_above h.2.2.2 t ht), keys_sorted h.2.2.2⟩

theorem length_eq : ∀ {lo hi : Option α} {ss : List α} {ns : List β},
    Chained P lo hi ss ns → ns.length = ss.length + 1
  | _, _, [], [_], _ => rfl
  | _, _, [], [], h => by simp [Chained] at h
  | _, _, [], _ :: _ :: _, h => by simp [Chained] at h
  | _, _, _ :: _, [], h => by simp [Chained] at h
  | _, _, _ :: _, _ :: _, h => by simp [length_eq h.2.2.2]

theorem append : ∀ {lo hi : Option α} {m : α} {s₁ s₂ : List α} {c₁ c₂ : List β},
    Chained P lo (some m) s₁ c₁ → StrictlyAbove lo m → Below hi m →
      Chained P (some m) hi s₂ c₂ → Chained P lo hi (s₁ ++ m :: s₂) (c₁ ++ c₂)
  | _, _, _, [], _, [_], _, h₁, hlo, hhi, h₂ => ⟨hlo, hhi, h₁, h₂⟩
  | _, _, _, [], _, [], _, h₁, _, _, _ => by simp [Chained] at h₁
  | _, _, _, [], _, _ :: _ :: _, _, h₁, _, _, _ => by simp [Chained] at h₁
  | _, _, _, _ :: _, _, [], _, h₁, _, _, _ => by simp [Chained] at h₁
  | _, _, _, s :: s₁, _, _ :: _, _, h₁, _, hhi, h₂ => by
      have hsm : s < _ := below_some.1 h₁.2.1
      exact ⟨h₁.1, hhi.mono hsm.le, h₁.2.2.1,
        append h₁.2.2.2 (strictlyAbove_some.2 hsm) hhi h₂⟩

theorem cut : ∀ {lo hi : Option α} {m : α} {s₁ s₂ : List α} {cs : List β},
    Chained P lo hi (s₁ ++ m :: s₂) cs →
      Chained P lo (some m) s₁ (cs.take (s₁.length + 1)) ∧
      Chained P (some m) hi s₂ (cs.drop (s₁.length + 1)) ∧
      StrictlyAbove lo m ∧ Below hi m
  | _, _, _, [], _, [], h => by simp [Chained] at h
  | _, _, _, [], _, n :: ns, h => by
      simp only [List.nil_append] at h
      exact ⟨by simpa [Chained] using h.2.2.1, by simpa using h.2.2.2, h.1, h.2.1⟩
  | _, _, _, s :: s₁, _, [], h => by simp [Chained] at h
  | lo, hi, m, s :: s₁, s₂, n :: ns, h => by
      simp only [List.cons_append] at h
      obtain ⟨hleft, hright, hsm, hhi⟩ := cut h.2.2.2
      have hsm' : s < m := strictlyAbove_some.1 hsm
      refine ⟨?_, by simpa using hright, h.1.trans hsm', hhi⟩
      simp only [List.length_cons, List.take_succ_cons]
      exact ⟨h.1, below_some.2 hsm', h.2.2.1, hleft⟩

section

variable {γ : Type} {f : β → List (α × γ)}

theorem all_above (hP : ∀ lo hi n, P lo hi n → ∀ e ∈ f n, Above lo e.1 ∧ Below hi e.1) :
    ∀ {lo hi : Option α} {ss : List α} {ns : List β}, Chained P lo hi ss ns →
      ∀ n ∈ ns, ∀ e ∈ f n, Above lo e.1 ∧ Below hi e.1
  | _, _, [], [n], h => by
      intro n' hn' e he
      rw [List.mem_singleton] at hn'
      subst hn'
      exact hP _ _ _ h e he
  | _, _, [], [], h => by simp [Chained] at h
  | _, _, [], _ :: _ :: _, h => by simp [Chained] at h
  | _, _, _ :: _, [], h => by simp [Chained] at h
  | lo, hi, s :: ss, n :: ns, h => by
      intro n' hn' e he
      rcases List.mem_cons.1 hn' with rfl | hn'
      · obtain ⟨habove, hbelow⟩ := hP _ _ _ h.2.2.1 e he
        exact ⟨habove, h.2.1.mono (below_some.1 hbelow).le⟩
      · obtain ⟨habove, hbelow⟩ := all_above hP h.2.2.2 n' hn' e he
        exact ⟨h.1.above.mono (above_some.1 habove), hbelow⟩

/-- **Routing.** A key of the interval lies in the interval of one child `c`; what
stands left of `c` is smaller and what stands right of it is larger.  Any chain
over the interval of `c` may take its place. -/
theorem route (hP : ∀ lo hi n, P lo hi n → ∀ e ∈ f n, Above lo e.1 ∧ Below hi e.1) (x : α) :
    ∀ {lo hi : Option α} {ss : List α} {ns : List β}, Chained P lo hi ss ns →
      Above lo x → Below hi x →
      ∃ A c B a b, ns = A ++ c :: B ∧
        A.length = (ss.takeWhile fun k => decide (k ≤ x)).length ∧
        Above a x ∧ Below b x ∧ P a b c ∧
        (∀ n ∈ A, ∀ e ∈ f n, e.1 < x) ∧ (∀ n ∈ B, ∀ e ∈ f n, x < e.1) ∧
        ∀ ts ms, Chained P a b ts ms →
          Chained P lo hi (ss.take A.length ++ ts ++ ss.drop A.length) (A ++ ms ++ B)
  | lo, hi, [], [n], h, hlo, hhi =>
      ⟨[], n, [], lo, hi, rfl, by simp, hlo, hhi, h, by simp, by simp,
        fun ts ms hms => by simpa using hms⟩
  | _, _, [], [], h, _, _ => by simp [Chained] at h
  | _, _, [], _ :: _ :: _, h, _, _ => by simp [Chained] at h
  | _, _, _ :: _, [], h, _, _ => by simp [Chained] at h
  | lo, hi, s :: ss, n :: ns, h, hlo, hhi => by
      by_cases hsx : s ≤ x
      · obtain ⟨A, c, B, a, b, hns, hlen, ha, hb, hc, hA, hB, hctx⟩ :=
          route hP x h.2.2.2 (above_some.2 hsx) hhi
        refine ⟨n :: A, c, B, a, b, by simp [hns], ?_, ha, hb, hc, ?_, hB, ?_⟩
        · simp [hsx, hlen]
        · intro n' hn' e he
          rcases List.mem_cons.1 hn' with rfl | hn'
          · exact lt_of_lt_of_le (below_some.1 (hP _ _ _ h.2.2.1 e he).2) hsx
          · exact hA n' hn' e he
        · intro ts ms hms
          have := hctx ts ms hms
          simp only [List.length_cons, List.take_succ_cons, List.drop_succ_cons,
            List.cons_append]
          exact ⟨h.1, h.2.1, h.2.2.1, this⟩
      · have hxs : x < s := lt_of_not_ge hsx
        refine ⟨[], n, ns, lo, some s, rfl, by simp [hsx], hlo, below_some.2 hxs,
          h.2.2.1, by simp, ?_, ?_⟩
        · intro n' hn' e he
          exact lt_of_lt_of_le hxs (above_some.1 (all_above hP h.2.2.2 n' hn' e he).1)
        · intro ts ms hms
          simpa using append hms h.1 h.2.1 h.2.2.2

end

end Chained

/-! ## The invariant -/

/-- The entries below a node, from left to right. -/
def entries {α ν : Type} : (h : Nat) → Node α ν h → List (α × ν)
  | 0, leaf => Leaf.entries leaf
  | h + 1, node => (InnerNode.children node).flatMap (entries h)

/-- The order invariant of a node responsible for `[lo, hi)`. -/
def Ordered (maxKeys : Nat) : (h : Nat) → Option α → Option α → Node α ν h → Prop
  | 0, lo, hi, leaf =>
    Sorted (Leaf.entries leaf) ∧ (∀ e ∈ Leaf.entries leaf, Above lo e.1 ∧ Below hi e.1) ∧
      (Leaf.entries leaf).length ≤ maxKeys
  | h + 1, lo, hi, node =>
    (InnerNode.keys node).length ≤ maxKeys ∧
      Chained (Ordered maxKeys h) lo hi (InnerNode.keys node) (InnerNode.children node)

variable {maxKeys : Nat}

theorem Ordered.entries_bounds : ∀ (h : Nat) (lo hi : Option α) (node : Node α ν h),
    Ordered maxKeys h lo hi node → ∀ e ∈ entries h node, Above lo e.1 ∧ Below hi e.1
  | 0, _, _, _, hn => hn.2.1
  | h + 1, _, _, _, hn => by
      intro e he
      obtain ⟨c, hc, he⟩ := List.mem_flatMap.1 he
      exact Chained.all_above (Ordered.entries_bounds h) hn.2 c hc e he

theorem Ordered.sorted : ∀ (h : Nat) {lo hi : Option α} {node : Node α ν h},
    Ordered maxKeys h lo hi node → Sorted (entries h node)
  | 0, _, _, _, hn => hn.1
  | h + 1, lo, hi, node, hn => by
      obtain ⟨keys, children⟩ := node
      have hchain := hn.2
      change Chained (Ordered maxKeys h) lo hi keys children at hchain
      change Sorted (children.flatMap (entries h))
      clear hn
      induction keys generalizing lo children with
      | nil =>
          match children, hchain with
          | [c], hc => simpa using Ordered.sorted h hc
      | cons s ss ih =>
          match children, hchain with
          | c :: cs, hc =>
              rw [List.flatMap_cons]
              refine List.pairwise_append.2 ⟨Ordered.sorted h hc.2.2.1, ih _ cs hc.2.2.2, ?_⟩
              intro a ha b hb
              obtain ⟨d, hd, hb⟩ := List.mem_flatMap.1 hb
              have ha' := (Ordered.entries_bounds h _ _ _ hc.2.2.1 a ha).2
              have hb' := (Chained.all_above (Ordered.entries_bounds h) hc.2.2.2 d hd b hb).1
              exact lt_of_lt_of_le (below_some.1 ha') (above_some.1 hb')

theorem entries_eq_leaves {α ν : Type} : ∀ (h : Nat) (node : Node α ν h),
    entries h node = (leaves h node).flatMap Leaf.entries
  | 0, leaf => (List.flatMap_singleton Leaf.entries leaf).symm
  | h + 1, node => by
      simp only [entries, leaves, List.flatMap_assoc]
      congr 1
      funext c
      exact entries_eq_leaves h c

/-- The descent ends in a leaf that separates the smaller from the larger
entries. -/
theorem findLeaf_spec (key : α) : ∀ (h : Nat) {lo hi : Option α} {node : Node α ν h},
    Ordered maxKeys h lo hi node → Above lo key → Below hi key →
      ∃ A leaf B, findLeaf key h node = some leaf ∧ leaves h node = A ++ leaf :: B ∧
        (∀ l ∈ A, ∀ e ∈ l.entries, e.1 < key) ∧ (∀ l ∈ B, ∀ e ∈ l.entries, key < e.1) ∧
        Sorted leaf.entries
  | 0, _, _, leaf, hn, _, _ => ⟨[], leaf, [], rfl, rfl, by simp, by simp, hn.1⟩
  | h + 1, lo, hi, node, hn, hlo, hhi => by
      obtain ⟨A, c, B, a, b, hns, hlen, ha, hb, hc, hA, hB, -⟩ :=
        hn.2.route (Ordered.entries_bounds h) key hlo hhi
      obtain ⟨A', leaf, B', hfind, hleaves, hA', hB', hsorted⟩ := findLeaf_spec key h hc ha hb
      have hidx : (InnerNode.children node)[upperBound (InnerNode.keys node) key]? = some c := by
        rw [upperBound_eq hn.2.keys_sorted, ← hlen, hns]
        simp
      have side {C : List (Node α ν h)} {l : Leaf α ν} (hl : l ∈ C.flatMap (leaves h)) :
          ∃ n ∈ C, ∀ e ∈ l.entries, e ∈ entries h n := by
        obtain ⟨n, hn, hl⟩ := List.mem_flatMap.1 hl
        refine ⟨n, hn, fun e he => ?_⟩
        rw [entries_eq_leaves]
        exact List.mem_flatMap.2 ⟨l, hl, he⟩
      refine ⟨A.flatMap (leaves h) ++ A', leaf, B' ++ B.flatMap (leaves h), ?_, ?_, ?_, ?_,
        hsorted⟩
      · simp only [findLeaf, hidx]
        exact hfind
      · simp [leaves, hns, hleaves]
      · intro l hl e he
        rcases List.mem_append.1 hl with hl | hl
        · obtain ⟨n, hn, hsub⟩ := side hl
          exact hA n hn e (hsub e he)
        · exact hA' l hl e he
      · intro l hl e he
        rcases List.mem_append.1 hl with hl | hl
        · exact hB' l hl e he
        · obtain ⟨n, hn, hsub⟩ := side hl
          exact hB n hn e (hsub e he)

end MiniDbms.Bptree
