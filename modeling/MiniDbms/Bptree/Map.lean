import MiniDbms.Bptree.Build
import MiniDbms.Lib.Run

/-!
# Trees as ordered finite maps

A tree stands for the map that sends a key to its row.  This file says what that
means for a caller, and that every sequence of calls on the integer tree works on
the tree as it works on the map.
-/

namespace MiniDbms.Bptree

variable {α ν : Type} [LinearOrder α]

/-! ## Nodes -/

section Nodes

omit [LinearOrder α]

/-- How far below a node its leaves are. -/
def leafDepths : (h : Nat) → Node α ν h → List Nat
  | 0, _ => [0]
  | h + 1, node => (InnerNode.children node).flatMap fun child => (leafDepths h child).map (· + 1)

/-- The keys of every node, the leaves included. -/
def nodeKeys : (h : Nat) → Node α ν h → List (List α)
  | 0, leaf => [(Leaf.entries leaf).map Prod.fst]
  | h + 1, node => InnerNode.keys node :: (InnerNode.children node).flatMap (nodeKeys h)

theorem leafDepths_eq : ∀ (h : Nat) (node : Node α ν h), ∀ d ∈ leafDepths h node, d = h
  | 0, _, d, hd => by simpa [leafDepths] using hd
  | h + 1, node, d, hd => by
      obtain ⟨c, -, hd⟩ := List.mem_flatMap.1 hd
      obtain ⟨d', hd', rfl⟩ := List.mem_map.1 hd
      rw [leafDepths_eq h c d' hd']

end Nodes

theorem Chained.all {β : Type} {P : Option α → Option α → β → Prop} :
    ∀ {lo hi : Option α} {ss : List α} {ns : List β}, Chained P lo hi ss ns →
      ∀ n ∈ ns, ∃ a b, P a b n
  | lo, hi, [], [n], h, n', hn => by
      rw [List.mem_singleton] at hn
      exact ⟨lo, hi, hn ▸ h⟩
  | _, _, [], [], h, _, _ => by simp [Chained] at h
  | _, _, [], _ :: _ :: _, h, _, _ => by simp [Chained] at h
  | _, _, _ :: _, [], h, _, _ => by simp [Chained] at h
  | lo, _, s :: ss, n :: ns, h, n', hn => by
      rcases List.mem_cons.1 hn with rfl | hn
      · exact ⟨lo, some s, h.2.2.1⟩
      · exact h.2.2.2.all n' hn

theorem Ordered.nodeKeys {maxKeys : Nat} : ∀ (h : Nat) {lo hi : Option α} {node : Node α ν h},
    Ordered maxKeys h lo hi node → ∀ keys ∈ Bptree.nodeKeys h node,
      keys.Pairwise (· < ·) ∧ keys.length ≤ maxKeys
  | 0, _, _, leaf, hn, keys, hk => by
      have hkeys : keys = (Leaf.entries leaf).map Prod.fst := by simpa [Bptree.nodeKeys] using hk
      rw [hkeys, List.length_map]
      exact ⟨List.pairwise_map.2 hn.1, hn.2.2⟩
  | h + 1, _, _, node, hn, keys, hk => by
      rcases List.mem_cons.1 hk with rfl | hk
      · exact ⟨hn.2.keys_sorted, hn.1⟩
      · obtain ⟨c, hc, hk⟩ := List.mem_flatMap.1 hk
        obtain ⟨a, b, hord⟩ := hn.2.all c hc
        exact hord.nodeKeys h keys hk

theorem Ordered.leaf {maxKeys : Nat} : ∀ (h : Nat) {lo hi : Option α} {node : Node α ν h},
    Ordered maxKeys h lo hi node → ∀ leaf ∈ leaves h node,
      Sorted leaf.entries ∧ leaf.entries.length ≤ maxKeys
  | 0, _, _, leaf, hn, l, hl => by
      have hleaf : l = leaf := List.mem_singleton.1 hl
      exact hleaf ▸ ⟨hn.1, hn.2.2⟩
  | h + 1, _, _, node, hn, l, hl => by
      obtain ⟨c, hc, hl⟩ := List.mem_flatMap.1 hl
      obtain ⟨a, b, hord⟩ := hn.2.all c hc
      exact hord.leaf h l hl

/-- The key that a leaf split hands up is the first key of the new leaf. -/
theorem Leaf.insert_split {separator : Separator α ν} (hsep : SeparatorOk separator)
    {maxKeys fresh : Nat} (hmax : 2 ≤ maxKeys) {leaf left right : Leaf α ν} {key k : α} {v : ν}
    (hs : Sorted leaf.entries)
    (hins : leaf.insert separator maxKeys fresh key v = .split left k right) :
    firstKey 0 right = some k := by
  unfold Leaf.insert at hins
  dsimp only at hins
  set i := lowerBound (leaf.entries.map Prod.fst) key with hi
  have hile : i ≤ leaf.entries.length := by
    rw [hi, lowerBound_eq (List.pairwise_map.2 hs)]
    exact ((List.takeWhile_sublist _).length_le).trans (by simp)
  split_ifs at hins with hdup hfit
  obtain ⟨-, rfl, rfl⟩ := Inserted.split.inj hins
  have hlen : (leaf.entries.take i ++ (key, v) :: leaf.entries.drop i).length =
      leaf.entries.length + 1 := by
    simp
    omega
  change ((leaf.entries.take i ++ (key, v) :: leaf.entries.drop i).drop (maxKeys / 2)).head?.map
    Prod.fst = _
  rw [List.head?_drop]
  exact hsep leaf.entries i (maxKeys / 2) key v hile (by omega) (by omega)

/-! ## What a caller sees -/

/-- A visit hands the pairs of `P` to the visitor, in ascending order and once each,
until the visitor stops it. -/
def Visits (P : α → ν → Prop) (visit : {σ : Type} → (σ → α → ν → σ × Bool) → σ → σ × Bool) :
    Prop :=
  ∃ L : List (α × ν), Sorted L ∧ (∀ k v, (k, v) ∈ L ↔ P k v) ∧
    ∀ {σ : Type} (visitor : σ → α → ν → σ × Bool) (ctx : σ),
      visit visitor ctx = visitEntries visitor L ctx

/-- The tree is sound and its queries answer for the map. -/
structure IsMap (tree : BPlusTree α ν) (m : α → Option ν) : Prop where
  depth : ∀ d ∈ leafDepths tree.height tree.root, d = tree.height
  keys : ∀ keys ∈ nodeKeys tree.height tree.root,
    keys.Pairwise (· < ·) ∧ keys.length ≤ tree.treeOrder - 1
  intervals : Ordered tree.maxKeys tree.height none none tree.root
  chain : Linked (leaves tree.height tree.root) ∧
    ((leaves tree.height tree.root).map Leaf.addr).Nodup
  search : ∀ k, Bptree.search tree k = m k
  range : ∀ a b, Visits (fun k v => (a ≤ k ∧ k ≤ b) ∧ m k = some v) (rangeSearch tree a b)
  pairs : Visits (fun k v => m k = some v) (visitPairs tree)

/-- The map with another value at one key. -/
def put (m : α → Option ν) (k : α) (v : Option ν) : α → Option ν :=
  fun x => if x = k then v else m x

@[simp] theorem put_self (m : α → Option ν) (k : α) (v : Option ν) : put m k v k = v := if_pos rfl

theorem put_of_ne {m : α → Option ν} {k x : α} {v : Option ν} (h : x ≠ k) : put m k v x = m x :=
  if_neg h

theorem put_eq_self {m : α → Option ν} {k : α} {v : Option ν} (h : m k = v) : put m k v = m := by
  funext x
  by_cases hx : x = k
  · rw [hx, put_self, h]
  · exact put_of_ne hx

/-- The invariant of a tree together with the map it stands for. -/
structure Holds (tree : BPlusTree α ν) (m : α → Option ν) : Prop where
  ok : tree.Ok
  mem_iff : ∀ k v, (k, v) ∈ tree.toList ↔ m k = some v

namespace Holds

variable {tree tree' : BPlusTree α ν} {m : α → Option ν}

theorem search_eq (h : Holds tree m) (k : α) : search tree k = m k := by
  refine Option.ext fun v => ?_
  rw [Bptree.search_eq h.ok, h.mem_iff]

theorem isMap (h : Holds tree m) : IsMap tree m where
  depth := leafDepths_eq tree.height tree.root
  keys := h.ok.ordered.nodeKeys tree.height
  intervals := h.ok.ordered
  chain := ⟨h.ok.linked, h.ok.addrs⟩
  search := h.search_eq
  range := by
    intro a b
    refine ⟨between a b tree.toList, h.ok.sorted.filter _, ?_, ?_⟩
    · intro k v
      rw [between, List.mem_filter, h.mem_iff, and_comm]
      simp
    · exact fun visitor ctx => rangeSearch_run h.ok a b visitor ctx
  pairs :=
    ⟨tree.toList, h.ok.sorted, h.mem_iff, fun visitor ctx => visitPairs_run h.ok visitor ctx⟩

theorem of_toList_nil (hok : tree.Ok) (hnil : tree.toList = []) :
    Holds tree (fun _ => none) where
  ok := hok
  mem_iff := by simp [hnil]

/-- An insertion is refused when the key is there, and is an update otherwise. -/
theorem insertWith {separator : Separator α ν} (hsep : SeparatorOk separator) (h : Holds tree m)
    (k : α) (v : ν) :
    match Bptree.insertWith separator tree k v with
    | none => (m k).isSome
    | some tree' => m k = none ∧ Holds tree' (put m k (some v)) := by
  have hspec := insertWith_spec hsep h.ok k v
  cases hins : Bptree.insertWith separator tree k v with
  | none =>
      rw [hins] at hspec
      obtain ⟨u, hu⟩ := hspec
      simp [(h.mem_iff k u).1 hu]
  | some tree' =>
      rw [hins] at hspec
      obtain ⟨hok, hsplice⟩ := hspec
      have habsent : m k = none := by
        refine Option.eq_none_iff_forall_ne_some.2 fun u hu => ?_
        exact hsplice.not_mem u ((h.mem_iff k u).2 hu)
      refine ⟨habsent, hok, fun k' v' => ?_⟩
      rw [hsplice.mem_iff, h.mem_iff, Prod.mk.injEq]
      by_cases hk : k' = k
      · subst hk
        simp [habsent, eq_comm]
      · simp [hk, put_of_ne hk]

theorem delete (h : Holds tree m) (k : α) :
    match Bptree.delete tree k with
    | none => m k = none
    | some tree' => (m k).isSome ∧ Holds tree' (put m k none) := by
  have hspec := delete_spec h.ok k
  cases hdel : Bptree.delete tree k with
  | none =>
      rw [hdel] at hspec
      refine Option.eq_none_iff_forall_ne_some.2 fun u hu => ?_
      exact hspec u ((h.mem_iff k u).2 hu)
  | some tree' =>
      rw [hdel] at hspec
      obtain ⟨hok, v, hsplice⟩ := hspec
      have hpresent : m k = some v := (h.mem_iff k v).1 ((hsplice.mem_iff _).2 (Or.inl rfl))
      refine ⟨by simp [hpresent], hok, fun k' v' => ?_⟩
      by_cases hk : k' = k
      · subst hk
        simp [hsplice.not_mem]
      · rw [put_of_ne hk, ← h.mem_iff, hsplice.mem_iff, Prod.mk.injEq]
        simp [hk]

end Holds

/-- The map a list of pairs stands for. -/
def mapOf (pairs : List (α × ν)) : α → Option ν := fun k => pairs.lookup k

theorem mapOf_eq_some {pairs : List (α × ν)} (hs : Sorted pairs) (k : α) (v : ν) :
    mapOf pairs k = some v ↔ (k, v) ∈ pairs := by
  unfold mapOf
  induction pairs with
  | nil => simp
  | cons e pairs ih =>
      obtain ⟨k', v'⟩ := e
      obtain ⟨hlt, hs'⟩ := List.pairwise_cons.1 hs
      by_cases hk : k = k'
      · subst hk
        rw [List.lookup_cons_self, List.mem_cons, Prod.mk.injEq]
        constructor
        · exact fun h => Or.inl ⟨rfl, (Option.some.inj h).symm⟩
        · rintro (⟨-, rfl⟩ | hmem)
          · rfl
          · exact absurd (hlt _ hmem) (lt_irrefl _)
      · have hne : (k == k') = false := by simpa using hk
        rw [List.lookup_cons, hne, ih hs', List.mem_cons, Prod.mk.injEq]
        simp [hk]

theorem mapOf_eq_none {pairs : List (α × ν)} {k : α} (h : ∀ e ∈ pairs, e.1 ≠ k) :
    mapOf pairs k = none := by
  unfold mapOf
  rw [List.lookup_eq_none_iff]
  intro e he
  simpa using (h e he).symm

theorem Holds.build {separator : Option α → Option α} (hsep : KeepsKeys separator)
    (tree : BPlusTree α ν) (pairs : List (α × ν)) :
    match buildFromSorted separator tree pairs with
    | (tree', true) => Sorted pairs ∧ Holds tree' (mapOf pairs)
    | (_, false) => ¬ Sorted pairs := by
  have hspec := buildFromSorted_spec hsep tree pairs
  cases hbuild : buildFromSorted separator tree pairs with
  | mk tree' built =>
      rw [hbuild] at hspec
      cases built with
      | true =>
          obtain ⟨hs, hok, hlist, -⟩ := hspec
          refine ⟨hs, hok, fun k v => ?_⟩
          rw [hlist, mapOf_eq_some hs]
      | false => exact hspec.1

/-! ## Sequences of calls -/

/-- The calls that change a tree. -/
inductive Op (α ν : Type)
  | insert (key : α) (rowIndex : ν)
  | delete (key : α)
  | clear
  | build (pairs : List (α × ν))

/-- What a call does to the map.  Keys that the tree does not admit are refused. -/
def Op.onMap (admits : α → Bool) (m : α → Option ν) : Op α ν → α → Option ν
  | .insert k v => if admits k && (m k).isNone then put m k (some v) else m
  | .delete k => if admits k then put m k none else m
  | .clear => fun _ => none
  | .build pairs => mapOf pairs

end MiniDbms.Bptree

namespace MiniDbms

open Bptree

/-- A call on the integer tree: the tree behind it and the result, 0 for
`bptree_clear`, which has none. -/
def intCall (tree : BPlusTree Int Int) : Op Int Int → BPlusTree Int Int × Int
  | .insert k v =>
    match bptreeInsert tree k v with
    | some tree' => (tree', 1)
    | none => (tree, 0)
  | .delete k =>
    match bptreeDelete tree k with
    | some tree' => (tree', 1)
    | none => (tree, 0)
  | .clear => (clear tree, 0)
  | .build pairs =>
    match bptreeBuildFromSorted tree pairs with
    | (tree', true) => (tree', 1)
    | (tree', false) => (tree', 0)

/-- A call in a sequence whose builds succeed. -/
def intStep (tree : BPlusTree Int Int) (op : Op Int Int) : Except Unit (BPlusTree Int Int) :=
  match op, intCall tree op with
  | .build _, (_, 0) => .error ()
  | _, (tree', _) => .ok tree'

/-- Every integer key is admitted. -/
def intMap (ops : List (Op Int Int)) : Int → Option Int :=
  ops.foldl (Op.onMap fun _ => true) fun _ => none

/-! ### The integer tree -/

section IntTree

variable {tree tree' : BPlusTree Int Int} {m : Int → Option Int}

theorem Bptree.Holds.intInsert (h : Holds tree m) (k v : Int) :
    ((m k).isSome ∧ intCall tree (.insert k v) = (tree, 0)) ∨
      (m k = none ∧ (intCall tree (.insert k v)).2 = 1 ∧
        Holds (intCall tree (.insert k v)).1 (put m k (some v))) := by
  have hspec := h.insertWith firstOfRight_ok k v
  simp only [intCall, bptreeInsert]
  cases hins : Bptree.insertWith firstOfRight tree k v with
  | none =>
      rw [hins] at hspec
      exact Or.inl ⟨hspec, rfl⟩
  | some tree' =>
      rw [hins] at hspec
      exact Or.inr ⟨hspec.1, rfl, hspec.2⟩

theorem Bptree.Holds.intDelete (h : Holds tree m) (k : Int) :
    (m k = none ∧ intCall tree (.delete k) = (tree, 0)) ∨
      ((m k).isSome ∧ (intCall tree (.delete k)).2 = 1 ∧
        Holds (intCall tree (.delete k)).1 (put m k none)) := by
  have hspec := h.delete k
  simp only [intCall, bptreeDelete]
  cases hdel : Bptree.delete tree k with
  | none =>
      rw [hdel] at hspec
      exact Or.inl ⟨hspec, rfl⟩
  | some tree' =>
      rw [hdel] at hspec
      exact Or.inr ⟨hspec.1, rfl, hspec.2⟩

theorem intSeparator_keeps : KeepsKeys (fun first : Option Int => some (first.getD 0)) :=
  fun _ => rfl

theorem intStep_holds {op : Op Int Int} (h : Holds tree m) (hstep : intStep tree op = .ok tree') :
    Holds tree' (op.onMap (fun _ => true) m) := by
  cases op with
  | insert k v =>
      have hok : tree' = (intCall tree (.insert k v)).1 := by simpa [intStep, eq_comm] using hstep
      rw [hok]
      rcases h.intInsert k v with ⟨hsome, hcall⟩ | ⟨hnone, -, hnew⟩
      · obtain ⟨u, hu⟩ := Option.isSome_iff_exists.1 hsome
        simpa [Op.onMap, hu, hcall] using h
      · simpa [Op.onMap, hnone] using hnew
  | delete k =>
      have hok : tree' = (intCall tree (.delete k)).1 := by simpa [intStep, eq_comm] using hstep
      rw [hok]
      rcases h.intDelete k with ⟨hnone, hcall⟩ | ⟨-, -, hnew⟩
      · simpa [Op.onMap, put_eq_self hnone, hcall] using h
      · simpa [Op.onMap] using hnew
  | clear =>
      have hok : tree' = clear tree := by simpa [intStep, intCall, eq_comm] using hstep
      rw [hok]
      exact Holds.of_toList_nil (clear_ok tree) rfl
  | build pairs =>
      have hspec := Holds.build intSeparator_keeps tree pairs
      simp only [intStep, intCall, bptreeBuildFromSorted] at hstep
      cases hbuild : buildFromSorted (fun first => some (first.getD 0)) tree pairs with
      | mk built rc =>
          rw [hbuild] at hspec hstep
          cases rc with
          | true =>
              have hok : built = tree' := by simpa using hstep
              exact hok ▸ hspec.2
          | false => simp at hstep

/-- **The integer tree is an ordered finite map.** -/
theorem bptree_is_ordered_map {start : BPlusTree Int Int} {ops : List (Op Int Int)}
    (hstart : start = create Int Int ∨ ∃ order, start = createWithOrder Int Int order)
    (hrun : Run.exec intStep start ops = .ok tree) :
    IsMap tree (intMap ops) ∧
      (∀ k v, (intCall tree (.insert k v) = (tree, 0) ↔ (intMap ops k).isSome) ∧
        (intMap ops k = none → (intCall tree (.insert k v)).2 = 1 ∧
          IsMap (intCall tree (.insert k v)).1 (put (intMap ops) k (some v)))) ∧
      ∀ k, ((intCall tree (.delete k)).2 = 1 ↔ (intMap ops k).isSome) ∧
        IsMap (intCall tree (.delete k)).1 (put (intMap ops) k none) := by
  have hempty : Holds start fun _ => none := by
    rcases hstart with rfl | ⟨order, rfl⟩
    · exact Holds.of_toList_nil BPlusTree.create_ok rfl
    · exact Holds.of_toList_nil (createWithOrder_ok order) rfl
  have h : Holds tree (intMap ops) := Run.refines intStep_holds hempty hrun
  refine ⟨h.isMap, fun k v => ⟨?_, ?_⟩, fun k => ?_⟩
  · rcases h.intInsert k v with ⟨hsome, hcall⟩ | ⟨hnone, hone, -⟩
    · simp [hsome, hcall]
    · constructor
      · intro hcall
        rw [hcall] at hone
        exact absurd hone (by simp)
      · intro hsome
        rw [hnone] at hsome
        exact absurd hsome (by simp)
  · intro hnone
    rcases h.intInsert k v with ⟨hsome, -⟩ | ⟨-, hone, hnew⟩
    · rw [hnone] at hsome
      exact absurd hsome (by simp)
    · exact ⟨hone, hnew.isMap⟩
  · rcases h.intDelete k with ⟨hnone, hcall⟩ | ⟨hsome, hone, hnew⟩
    · refine ⟨by simp [hnone, hcall], ?_⟩
      rw [hcall, put_eq_self hnone]
      exact h.isMap
    · exact ⟨by simp [hsome, hone], hnew.isMap⟩

/-- A leaf split, a deletion, a bulk build and an insertion into the built tree. -/
theorem bptree_is_ordered_map_split_and_build :
    ∃ tree, Run.exec intStep (createWithOrder Int Int 3)
        [.insert 1 10, .insert 2 20, .insert 3 30, .insert 4 40, .insert 5 50, .insert 6 60,
          .insert 7 70, .insert 8 80, .delete 2, .build [(5, 1), (9, 2)], .insert 7 0] =
        .ok tree ∧
      IsMap tree (intMap
        [.insert 1 10, .insert 2 20, .insert 3 30, .insert 4 40, .insert 5 50, .insert 6 60,
          .insert 7 70, .insert 8 80, .delete 2, .build [(5, 1), (9, 2)], .insert 7 0]) := by
  refine ⟨_, rfl, ?_⟩
  exact (bptree_is_ordered_map (Or.inr ⟨3, rfl⟩) rfl).1

end IntTree

end MiniDbms
