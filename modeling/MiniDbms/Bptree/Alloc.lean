import MiniDbms.Bptree.Spec

/-!
# Insertion when memory runs out

The insertion of `Basic` with every allocation answered by an oracle: `ok n` tells
whether the `n`-th allocation of the call succeeds.  A leaf allocates everything it
needs before it moves an entry.  An inner node allocates its sibling only after the
child below it has been split, and the root its parent last of all, so a refusal
there leaves the right half of the child out of the tree.

The leaves of that half stay linked behind the left one; they are listed as `lost`.
-/

namespace MiniDbms.Bptree

/-- `count` allocations from the `used`-th of a call on, `none` when one is refused. -/
def allocate (ok : Nat → Bool) (used : Nat) : Nat → Option Nat
  | 0 => some used
  | count + 1 => if ok used then allocate ok (used + 1) count else none

theorem allocate_granted (used count : Nat) :
    allocate (fun _ => true) used count = some (used + count) := by
  induction count generalizing used with
  | zero => rfl
  | succ count ih =>
      simp only [allocate, if_true, ih, Option.some.injEq]
      omega

theorem exists_refused {ok : Nat → Bool} {used count : Nat} (h : allocate ok used count = none) :
    ∃ n, ok n = false := by
  induction count generalizing used with
  | zero => cases h
  | succ count ih =>
      cases hok : ok used with
      | false => exact ⟨used, hok⟩
      | true =>
          rw [allocate, if_pos hok] at h
          exact ih h

/-- The results of `insert_recursive`: 0, 1, 2 with the number of allocations made so
far, and -1 with the node as it is left behind.  A node that holds more keys than
the order allows is split without a new node. -/
inductive Tried (α ν β : Type)
  | duplicate
  | done (node : β)
  | split (left : β) (promoted : α) (right : β) (used : Nat)
  | failed (node : β) (lost : List (Leaf α ν))
  | overflow

section

variable {α ν : Type} [LinearOrder α]

/-- How many allocations a leaf makes before it moves an entry, by whether it is
full. -/
abbrev LeafAllocs := Bool → Nat

/-- `separator` and `allocs` are those of one of the two trees. -/
def Leaf.tryInsert (separator : Separator α ν) (allocs : LeafAllocs) (ok : Nat → Bool)
    (maxKeys fresh : Nat) (leaf : Leaf α ν) (key : α) (rowIndex : ν) : Tried α ν (Leaf α ν) :=
  match leaf.insert separator maxKeys fresh key rowIndex,
      allocate ok 0 (allocs (decide (leaf.entries.length = maxKeys))) with
  | .duplicate, _ => .duplicate
  | _, none => .failed leaf []
  | .done leaf', some _ => .done leaf'
  | .split left k right, some used =>
    if leaf.entries.length = maxKeys then .split left k right used else .overflow

/-- A full inner node allocates its sibling before it takes the split child back; when
it gets none, it still has the left half in its old place. -/
def InnerNode.tryAbsorb {β : Type} (ok : Nat → Bool) (maxKeys used : Nat)
    (lost : List (Leaf α ν)) (node : InnerNode α β) (i : Nat) (left : β) (promoted : α)
    (right : β) : Tried α ν (InnerNode α β) :=
  match allocate ok used (if node.keys.length = maxKeys then 1 else 0),
      node.absorb maxKeys i left promoted right with
  | none, _ => .failed ⟨node.keys, node.children.set i left⟩ lost
  | some _, .duplicate => .duplicate
  | some _, .done node' => .done node'
  | some used, .split l k r =>
    if node.keys.length = maxKeys then .split l k r used else .overflow

/-- `insert_recursive`, `string_insert_recursive`. -/
def tryInsertRecursive (separator : Separator α ν) (allocs : LeafAllocs) (ok : Nat → Bool)
    (maxKeys fresh : Nat) (key : α) (rowIndex : ν) :
    (h : Nat) → Node α ν h → Tried α ν (Node α ν h)
  | 0, leaf => Leaf.tryInsert separator allocs ok maxKeys fresh leaf key rowIndex
  | h + 1, node =>
    let i := upperBound (InnerNode.keys node) key
    match (InnerNode.children node)[i]? with
    | none => .duplicate
    | some child =>
      match tryInsertRecursive separator allocs ok maxKeys fresh key rowIndex h child with
      | .duplicate => .duplicate
      | .done child' => .done (⟨InnerNode.keys node,
          (InnerNode.children node).set i child'⟩ : InnerNode α (Node α ν h))
      | .split left k right used => InnerNode.tryAbsorb ok maxKeys used (leaves h right)
          (node : InnerNode α (Node α ν h)) i left k right
      | .failed child' lost => .failed (⟨InnerNode.keys node,
          (InnerNode.children node).set i child'⟩ : InnerNode α (Node α ν h)) lost
      | .overflow => .overflow

/-- The insertion with its result, the tree it leaves and the lost leaves; `none` when
it runs into a null pointer. -/
def tryInsertWith (separator : Separator α ν) (allocs : LeafAllocs) (ok : Nat → Bool)
    (tree : BPlusTree α ν) (key : α) (rowIndex : ν) :
    Option (Int × BPlusTree α ν × List (Leaf α ν)) :=
  match tryInsertRecursive separator allocs ok tree.maxKeys tree.fresh key rowIndex
      tree.height tree.root with
  | .duplicate => some (0, tree, [])
  | .done node => some (1, { tree with root := node, fresh := tree.fresh + 1 }, [])
  | .failed node lost =>
    some (-1, { tree with root := node, fresh := tree.fresh + 1 }, lost)
  | .overflow => none
  | .split left k right used =>
    if ok used then some (1,
      { height := tree.height + 1
        root := (⟨[k], [left, right]⟩ : InnerNode α (Node α ν tree.height))
        order := tree.order
        fresh := tree.fresh + 1 }, [])
    else some (-1, { tree with root := left, fresh := tree.fresh + 1 },
      leaves tree.height right)

/-- A range search in a tree behind whose leaves some `lost` ones are still linked. -/
def rangeSearchPast {σ : Type} (lost : List (Leaf α ν)) (tree : BPlusTree α ν) (lo hi : α)
    (visitor : σ → α → ν → σ × Bool) (ctx : σ) : σ × Bool :=
  if hi < lo then (ctx, true)
  else
    let all := leaves tree.height tree.root ++ lost
    visitFrom lo hi visitor all all.length (findLeaf lo tree.height tree.root) ctx

/-- What is expected of an insertion that reports -1. -/
structure Unharmed (tree : BPlusTree α ν) (key : α) (tree' : BPlusTree α ν)
    (lost : List (Leaf α ν)) : Prop where
  found : ∀ k rowIndex, search tree k = some rowIndex → search tree' k = some rowIndex
  visited : ∀ (σ : Type) (lo hi : α) (visitor : σ → α → ν → σ × Bool) (ctx : σ),
    rangeSearchPast lost tree' lo hi visitor ctx = rangeSearch tree lo hi visitor ctx
  absent : search tree' key = none

/-- One of the allocations for the leaf of a key is refused. -/
def LeafRefuses (allocs : LeafAllocs) (ok : Nat → Bool) (maxKeys : Nat) (key : α) (h : Nat)
    (node : Node α ν h) : Prop :=
  ∃ leaf, findLeaf key h node = some leaf ∧
    allocate ok 0 (allocs (decide (leaf.entries.length = maxKeys))) = none

end

/-! ## What an insertion leaves behind -/

section

variable {α ν : Type} [LinearOrder α] {maxKeys fresh : Nat} {rowIndex : ν} {key : α}

theorem Chained.widen {β : Type} {P : Option α → Option α → β → Prop} {hi : Option α} {k : α}
    (hk : Below hi k) (hP : ∀ lo n, P lo (some k) n → P lo hi n) :
    ∀ {lo : Option α} {ss : List α} {ns : List β}, Chained P lo (some k) ss ns →
      Chained P lo hi ss ns
  | _, [], [_], h => hP _ _ h
  | _, [], [], h => by simp [Chained] at h
  | _, [], _ :: _ :: _, h => by simp [Chained] at h
  | _, _ :: _, [], h => by simp [Chained] at h
  | _, _ :: _, _ :: _, h =>
      ⟨h.1, hk.mono (below_some.1 h.2.1).le, h.2.2.1, Chained.widen hk hP h.2.2.2⟩

theorem Ordered.widen {hi : Option α} {k : α} (hk : Below hi k) :
    ∀ (h : Nat) {lo : Option α} {node : Node α ν h}, Ordered maxKeys h lo (some k) node →
      Ordered maxKeys h lo hi node
  | 0, _, _, hn => by
      refine ⟨hn.1, fun e he => ?_, hn.2.2⟩
      obtain ⟨hlo, hhi⟩ := hn.2.1 e he
      exact ⟨hlo, hk.mono (below_some.1 hhi).le⟩
  | h + 1, _, _, hn => ⟨hn.1, Chained.widen hk (fun _ _ hc => Ordered.widen hk h hc) hn.2⟩

/-- The node left behind holds the new entry, or fewer entries than before. -/
def Mangled (key : α) (rowIndex : ν) (old new : List (α × ν)) : Prop :=
  (key, rowIndex) ∈ new ∨ new.length < old.length

omit [LinearOrder α] in
theorem Mangled.context {old new : List (α × ν)} (h : Mangled key rowIndex old new)
    (A B : List (α × ν)) : Mangled key rowIndex (A ++ old ++ B) (A ++ new ++ B) := by
  rcases h with h | h
  · left
    simp [h]
  · right
    simp only [List.length_append]
    omega

/-- The new entry lies in a leaf with another one. -/
def Accompanied (key : α) (rowIndex : ν) (ls : List (Leaf α ν)) : Prop :=
  ∃ l ∈ ls, (key, rowIndex) ∈ l.entries ∧ 2 ≤ l.entries.length

omit [LinearOrder α] in
theorem Accompanied.context {ls : List (Leaf α ν)} (h : Accompanied key rowIndex ls)
    (A B : List (Leaf α ν)) : Accompanied key rowIndex (A ++ ls ++ B) := by
  obtain ⟨l, hl, hmem, hlen⟩ := h
  exact ⟨l, by simp [hl], hmem, hlen⟩

theorem Splice.length {old new : List (α × ν)} (h : Splice key rowIndex old new) :
    new.length = old.length + 1 := by
  obtain ⟨a, b, rfl, rfl, -, -⟩ := h
  simp
  omega

/-- Losing the right half of a split loses an old entry, unless the new one stays. -/
theorem mangled_left {h : Nat} {old : List (α × ν)} {left right : Node α ν h}
    (hsplice : Splice key rowIndex old (entries h left ++ entries h right))
    (hleaf : Accompanied key rowIndex (leaves h left ++ leaves h right)) :
    Mangled key rowIndex old (entries h left) := by
  obtain ⟨l, hl, hmem, hlen⟩ := hleaf
  rcases List.mem_append.1 hl with hl | hl
  · left
    rw [entries_eq_leaves]
    exact List.mem_flatMap.2 ⟨l, hl, hmem⟩
  · right
    have hright : l.entries.length ≤ (entries h right).length := by
      obtain ⟨A, B, hsplit⟩ := List.append_of_mem hl
      rw [entries_eq_leaves, hsplit]
      simp
      omega
    have htotal := hsplice.length
    rw [List.length_append] at htotal
    omega

/-- What the results mean, next to those of an insertion that gets every node. -/
def TriedOk (allocs : LeafAllocs) (ok : Nat → Bool) (maxKeys : Nat) (rowIndex : ν) (key : α)
    (lo hi : Option α) (h : Nat) (node : Node α ν h) (inserted : Inserted (Node α ν h) α) :
    Tried α ν (Node α ν h) → Prop
  | .duplicate => inserted = .duplicate
  | .done node' => inserted = .done node'
  | .split left k right _ => inserted = .split left k right ∧
      ¬ LeafRefuses allocs ok maxKeys key h node ∧
      Accompanied key rowIndex (leaves h left ++ leaves h right)
  | .failed node' lost =>
    (LeafRefuses allocs ok maxKeys key h node ∧ node' = node ∧ lost = [] ∧
        ∀ v, (key, v) ∉ entries h node) ∨
      (¬ LeafRefuses allocs ok maxKeys key h node ∧ (∃ n, ok n = false) ∧
        Ordered maxKeys h lo hi node' ∧
        Mangled key rowIndex (entries h node) (entries h node'))
  | .overflow => False

omit [LinearOrder α] in
theorem accompanied_halves {E : List (α × ν)} {m : Nat} (hm : 2 ≤ m) (hE : m + 2 ≤ E.length)
    (hmem : (key, rowIndex) ∈ E) (a b : Nat) (na nb : Option Nat) :
    Accompanied key rowIndex
      ([⟨a, E.take m, na⟩] ++ [⟨b, E.drop m, nb⟩] : List (Leaf α ν)) := by
  rw [← List.take_append_drop m E] at hmem
  rcases List.mem_append.1 hmem with hmem | hmem
  · exact ⟨⟨a, E.take m, na⟩, by simp, hmem, by simp; omega⟩
  · exact ⟨⟨b, E.drop m, nb⟩, by simp, hmem, by simp; omega⟩

theorem Leaf.insert_split_full {separator : Separator α ν} {leaf left right : Leaf α ν} {k : α}
    (hmax : 4 ≤ maxKeys)
    (h : leaf.insert separator maxKeys fresh key rowIndex = .split left k right) :
    maxKeys ≤ leaf.entries.length ∧ Accompanied key rowIndex ([left] ++ [right]) := by
  unfold Leaf.insert at h
  set i := lowerBound (leaf.entries.map Prod.fst) key
  dsimp only at h
  split at h
  · cases h
  · split at h
    · cases h
    · rename_i hfull
      injection h with hleft hk hright
      subst hleft hright
      have hlen : (leaf.entries.take i ++ (key, rowIndex) :: leaf.entries.drop i).length =
          leaf.entries.length + 1 := by
        simp
        omega
      exact ⟨by omega, accompanied_halves (by omega) (by omega) (by simp) _ _ _ _⟩

theorem InsertedOk.not_mem {lo hi : Option α} {h : Nat} {node : Node α ν h}
    {inserted : Inserted (Node α ν h) α}
    (hok : InsertedOk maxKeys fresh rowIndex key lo hi h node inserted)
    (hnew : inserted ≠ .duplicate) (v : ν) : (key, v) ∉ entries h node := by
  cases inserted with
  | duplicate => exact absurd rfl hnew
  | done node' => exact hok.2.1.not_mem v
  | split left k right => exact hok.2.2.2.2.1.not_mem v

theorem Leaf.tryInsert_ok {separator : Separator α ν} (hsep : SeparatorOk separator)
    {allocs : LeafAllocs} {ok : Nat → Bool} (hmax : 4 ≤ maxKeys) {lo hi : Option α}
    {leaf : Leaf α ν} (hleaf : Ordered maxKeys 0 lo hi leaf) (hlo : Above lo key)
    (hhi : Below hi key) :
    TriedOk allocs ok maxKeys rowIndex key lo hi 0 leaf
      (leaf.insert separator maxKeys fresh key rowIndex)
      (leaf.tryInsert separator allocs ok maxKeys fresh key rowIndex) := by
  have hrefuses : LeafRefuses allocs ok maxKeys key 0 leaf ↔
      allocate ok 0 (allocs (decide (leaf.entries.length = maxKeys))) = none := by
    constructor
    · rintro ⟨leaf', hfind, hnone⟩
      obtain rfl : leaf = leaf' := Option.some.inj hfind
      exact hnone
    · exact fun hnone => ⟨leaf, rfl, hnone⟩
  have hspec : InsertedOk maxKeys fresh rowIndex key lo hi 0 leaf
      (leaf.insert separator maxKeys fresh key rowIndex) :=
    Leaf.insert_ok hsep (by omega) hleaf hlo hhi
  unfold Leaf.tryInsert
  cases hins : leaf.insert separator maxKeys fresh key rowIndex with
  | duplicate => rfl
  | done leaf' =>
      cases halloc : allocate ok 0 (allocs (decide (leaf.entries.length = maxKeys))) with
      | none => exact Or.inl ⟨hrefuses.2 halloc, rfl, rfl, hspec.not_mem fun h => nomatch hins.symm.trans h⟩
      | some used => rfl
  | split left k right =>
      obtain ⟨hfull, hleaves⟩ := Leaf.insert_split_full hmax hins
      have hlen : leaf.entries.length = maxKeys := Nat.le_antisymm hleaf.2.2 hfull
      cases halloc : allocate ok 0 (allocs (decide (leaf.entries.length = maxKeys))) with
      | none => exact Or.inl ⟨hrefuses.2 halloc, rfl, rfl, hspec.not_mem fun h => nomatch hins.symm.trans h⟩
      | some used =>
          dsimp only
          rw [if_pos hlen]
          refine ⟨rfl, fun hr => ?_, hleaves⟩
          rw [hrefuses.1 hr] at halloc
          cases halloc

theorem leafRefuses_succ {allocs : LeafAllocs} {ok : Nat → Bool} {h : Nat}
    {node : Node α ν (h + 1)} {c : Node α ν h}
    (hc : (InnerNode.children node)[upperBound (InnerNode.keys node) key]? = some c) :
    LeafRefuses allocs ok maxKeys key (h + 1) node ↔ LeafRefuses allocs ok maxKeys key h c := by
  simp only [LeafRefuses, findLeaf, hc]

omit [LinearOrder α] in
theorem InnerNode.absorb_split {β : Type} {node : InnerNode α β} {i : Nat} {left right : β}
    {k m : α} {l r : InnerNode α β} (hi : i ≤ node.keys.length)
    (h : node.absorb maxKeys i left k right = .split l m r) : maxKeys ≤ node.keys.length := by
  unfold InnerNode.absorb at h
  dsimp only at h
  split at h
  · cases h
  · rename_i hfull
    simp only [List.length_append, List.length_cons, List.length_take, List.length_drop] at hfull
    omega

theorem InnerNode.tryAbsorb_ok {allocs : LeafAllocs} {ok : Nat → Bool} {h used : Nat}
    (hmax : 2 ≤ maxKeys) {lo hi a b : Option α} {node : InnerNode α (Node α ν h)}
    {A B : List (Node α ν h)} {c left right : Node α ν h} {k : α} {lost : List (Leaf α ν)}
    (hlen : node.keys.length ≤ maxKeys)
    (hchildren : node.children = A ++ c :: B) (hA : A.length ≤ node.keys.length)
    (hleft : Ordered maxKeys h a (some k) left) (hright : Ordered maxKeys h (some k) b right)
    (ha : StrictlyAbove a k) (hb : Below b k)
    (hctx : ∀ ts ms, Chained (Ordered maxKeys h) a b ts ms →
      Chained (Ordered maxKeys h) lo hi
        (node.keys.take A.length ++ ts ++ node.keys.drop A.length) (A ++ ms ++ B))
    (hsplice : Splice key rowIndex (entries h c) (entries h left ++ entries h right))
    (hgranted : ¬ LeafRefuses allocs ok maxKeys key (h + 1) node)
    (hleaf : Accompanied key rowIndex (leaves h left ++ leaves h right)) :
    TriedOk allocs ok maxKeys rowIndex key lo hi (h + 1) node
      (node.absorb maxKeys A.length left k right)
      (node.tryAbsorb ok maxKeys used lost A.length left k right) := by
  unfold InnerNode.tryAbsorb
  cases halloc : allocate ok used (if node.keys.length = maxKeys then 1 else 0) with
  | none =>
      -- the left half alone takes the child's place
      have hset : node.children.set A.length left = A ++ [left] ++ B := by simp [hchildren]
      have hchain := hctx [] [left] (Ordered.widen hb h hleft)
      refine Or.inr ⟨hgranted, exists_refused halloc, ⟨hlen, ?_⟩, ?_⟩
      · change Chained _ lo hi node.keys (node.children.set A.length left)
        rw [hset]
        simpa using hchain
      · have hold : entries (h + 1) node =
            A.flatMap (entries h) ++ entries h c ++ B.flatMap (entries h) := by
          simp [entries, hchildren]
        have hnew : entries (h + 1) (⟨node.keys, node.children.set A.length left⟩ :
              InnerNode α (Node α ν h)) =
            A.flatMap (entries h) ++ entries h left ++ B.flatMap (entries h) := by
          rw [hset]
          simp [entries]
        rw [hold, hnew]
        exact (mangled_left hsplice hleaf).context _ _
  | some used' =>
      have habs := InnerNode.absorb_ok hmax hlen hchildren hA hleft hright ha hb hctx
      cases hab : node.absorb maxKeys A.length left k right with
      | duplicate => rfl
      | done node' => rfl
      | split l m r =>
          rw [hab] at habs
          obtain ⟨-, -, -, -, hcat⟩ := habs
          have hfull : node.keys.length = maxKeys :=
            Nat.le_antisymm hlen (InnerNode.absorb_split hA hab)
          have hleaves : leaves (h + 1) l ++ leaves (h + 1) r = A.flatMap (leaves h) ++
              (leaves h left ++ leaves h right) ++ B.flatMap (leaves h) := by
            change (InnerNode.children l).flatMap (leaves h) ++
              (InnerNode.children r).flatMap (leaves h) = _
            rw [← List.flatMap_append, hcat]
            simp
          dsimp only
          rw [if_pos hfull]
          refine ⟨rfl, hgranted, ?_⟩
          rw [hleaves]
          exact hleaf.context _ _

theorem tryInsertRecursive_ok {separator : Separator α ν} (hsep : SeparatorOk separator)
    {allocs : LeafAllocs} {ok : Nat → Bool} (hmax : 4 ≤ maxKeys) :
    ∀ (h : Nat) {lo hi : Option α} {node : Node α ν h},
      Ordered maxKeys h lo hi node → Above lo key → Below hi key →
        TriedOk allocs ok maxKeys rowIndex key lo hi h node
          (insertRecursive separator maxKeys fresh key rowIndex h node)
          (tryInsertRecursive separator allocs ok maxKeys fresh key rowIndex h node)
  | 0, _, _, _, hn, hlo, hhi => Leaf.tryInsert_ok hsep hmax hn hlo hhi
  | h + 1, lo, hi, node, hn, hlo, hhi => by
      obtain ⟨A, c, B, a, b, hns, hlen, ha, hb, hc, hA, hB, hctx⟩ :=
        hn.2.route (Ordered.entries_bounds h) key hlo hhi
      have hup : upperBound (InnerNode.keys node) key = A.length := by
        rw [upperBound_eq hn.2.keys_sorted, hlen]
      have hidx : (InnerNode.children node)[A.length]? = some c := by simp [hns]
      have hAlen : A.length ≤ (InnerNode.keys node).length := by
        rw [hlen]
        exact (List.takeWhile_sublist _).length_le
      have hrefuses : LeafRefuses allocs ok maxKeys key (h + 1) node ↔
          LeafRefuses allocs ok maxKeys key h c := leafRefuses_succ (by rw [hup, hidx])
      have hset (c' : Node α ν h) :
          (InnerNode.children node).set A.length c' = A ++ [c'] ++ B := by simp [hns]
      have ih : TriedOk allocs ok maxKeys rowIndex key a b h c
          (insertRecursive separator maxKeys fresh key rowIndex h c)
          (tryInsertRecursive separator allocs ok maxKeys fresh key rowIndex h c) :=
        tryInsertRecursive_ok hsep hmax h hc ha hb
      have hspec : InsertedOk maxKeys fresh rowIndex key a b h c
          (insertRecursive separator maxKeys fresh key rowIndex h c) :=
        insertRecursive_ok hsep (by omega) h hc ha hb
      simp only [insertRecursive, tryInsertRecursive, hup, hidx]
      cases htried : tryInsertRecursive separator allocs ok maxKeys fresh key rowIndex h c with
      | duplicate =>
          rw [htried] at ih
          rw [show insertRecursive separator maxKeys fresh key rowIndex h c = .duplicate from ih]
          rfl
      | done c' =>
          rw [htried] at ih
          rw [show insertRecursive separator maxKeys fresh key rowIndex h c = .done c' from ih]
          rfl
      | overflow =>
          rw [htried] at ih
          exact ih.elim
      | failed c' lost =>
          rw [htried] at ih
          have hold : entries (h + 1) node =
              A.flatMap (entries h) ++ entries h c ++ B.flatMap (entries h) := by
            simp [entries, hns]
          rcases ih with ⟨hr, rfl, rfl, habsent⟩ | ⟨hr, hrefused, hord, hmangled⟩
          · refine Or.inl ⟨hrefuses.2 hr, ?_, rfl, fun v hv => ?_⟩
            · rw [hset, List.append_assoc, List.singleton_append, ← hns]
              rfl
            · rw [hold, List.append_assoc, List.mem_append, List.mem_append] at hv
              rcases hv with hv | hv | hv
              · obtain ⟨n, hn, hv⟩ := List.mem_flatMap.1 hv
                exact lt_irrefl _ (hA n hn _ hv)
              · exact habsent v hv
              · obtain ⟨n, hn, hv⟩ := List.mem_flatMap.1 hv
                exact lt_irrefl _ (hB n hn _ hv)
          · refine Or.inr ⟨fun h' => hr (hrefuses.1 h'), hrefused, ⟨hn.1, ?_⟩, ?_⟩
            · rw [hset]
              simpa using hctx [] [c'] hord
            · have hnew : entries (h + 1) (⟨InnerNode.keys node,
                    (InnerNode.children node).set A.length c'⟩ : InnerNode α (Node α ν h)) =
                  A.flatMap (entries h) ++ entries h c' ++ B.flatMap (entries h) := by
                rw [hset]
                simp [entries]
              rw [hold, hnew]
              exact hmangled.context _ _
      | split left k right used =>
          rw [htried] at ih
          obtain ⟨hins, hr, hleaf⟩ := ih
          rw [hins] at hspec ⊢
          obtain ⟨hleft, hright, hak, hbk, hsplice, -⟩ := hspec
          exact InnerNode.tryAbsorb_ok (by omega) hn.1 hns hAlen hleft hright hak hbk hctx
            hsplice (fun h' => hr (hrefuses.1 h')) hleaf

open BPlusTree

omit [LinearOrder α] in
theorem BPlusTree.four_le_maxKeys (tree : BPlusTree α ν) : 4 ≤ tree.maxKeys := by
  unfold maxKeys normalizeOrder
  split_ifs <;> omega

theorem rangeSearchPast_nil {σ : Type} (tree : BPlusTree α ν) (lo hi : α)
    (visitor : σ → α → ν → σ × Bool) (ctx : σ) :
    rangeSearchPast [] tree lo hi visitor ctx = rangeSearch tree lo hi visitor ctx := by
  unfold rangeSearchPast rangeSearch
  rw [List.append_nil]

theorem not_unharmed {tree tree' : BPlusTree α ν} {lost : List (Leaf α ν)} (htree : tree.Ok)
    (htree' : Ordered maxKeys tree'.height none none tree'.root)
    (h : Mangled key rowIndex tree.toList tree'.toList) : ¬ Unharmed tree key tree' lost := by
  intro hkeeps
  rcases h with h | h
  · have hfound := (htree'.search_eq key rowIndex).2 h
    rw [hkeeps.absent] at hfound
    cases hfound
  · have hsub : tree.toList ⊆ tree'.toList := fun e he =>
      (htree'.search_eq e.1 e.2).1 (hkeeps.found e.1 e.2 ((search_eq htree e.1 e.2).2 he))
    have hnodup : tree.toList.Nodup :=
      htree.sorted.imp fun hlt heq => hlt.ne (congrArg Prod.fst heq)
    exact absurd (List.subperm_of_subset hnodup hsub).length_le (by omega)

/-- An insertion that reports -1 leaves the tree as it was if one of its leaf's own
allocations is refused, and only then. -/
theorem unharmed_iff_leafRefuses {separator : Separator α ν} (hsep : SeparatorOk separator)
    {allocs : LeafAllocs} {ok : Nat → Bool} {tree tree' : BPlusTree α ν}
    {lost : List (Leaf α ν)} (htree : tree.Ok)
    (h : tryInsertWith separator allocs ok tree key rowIndex = some (-1, tree', lost)) :
    Unharmed tree key tree' lost ↔
      LeafRefuses allocs ok tree.maxKeys key tree.height tree.root := by
  have hspec : TriedOk allocs ok tree.maxKeys rowIndex key none none tree.height tree.root
      (insertRecursive separator tree.maxKeys tree.fresh key rowIndex tree.height tree.root)
      (tryInsertRecursive separator allocs ok tree.maxKeys tree.fresh key rowIndex tree.height
        tree.root) :=
    tryInsertRecursive_ok hsep tree.four_le_maxKeys tree.height htree.ordered above_none
      below_none
  have hinserted : InsertedOk tree.maxKeys tree.fresh rowIndex key none none tree.height tree.root
      (insertRecursive separator tree.maxKeys tree.fresh key rowIndex tree.height tree.root) :=
    insertRecursive_ok hsep tree.two_le_maxKeys tree.height htree.ordered above_none below_none
  unfold tryInsertWith at h
  cases htried : tryInsertRecursive separator allocs ok tree.maxKeys tree.fresh key rowIndex
      tree.height tree.root with
  | duplicate => simp [htried] at h
  | done node => simp [htried] at h
  | overflow => simp [htried] at h
  | failed node lost' =>
      rw [htried] at hspec
      simp only [htried, Option.some.injEq, Prod.mk.injEq, true_and] at h
      obtain ⟨rfl, rfl⟩ := h
      rcases hspec with ⟨hr, rfl, rfl, habsent⟩ | ⟨hr, -, hord, hmangled⟩
      · refine ⟨fun _ => hr, fun _ => ⟨fun _ _ hfound => hfound, ?_, ?_⟩⟩
        · intro σ lo hi visitor ctx
          exact rangeSearchPast_nil _ lo hi visitor ctx
        · exact (search_eq_none htree key).2 habsent
      · exact ⟨fun hkeeps => absurd hkeeps (not_unharmed htree hord hmangled),
          fun hr' => absurd hr' hr⟩
  | split left k right used =>
      rw [htried] at hspec
      obtain ⟨hins, hr, hleaf⟩ := hspec
      rw [hins] at hinserted
      obtain ⟨hleft, -, -, -, hsplice, -⟩ := hinserted
      simp only [htried] at h
      split at h
      · simp at h
      · simp only [Option.some.injEq, Prod.mk.injEq, true_and] at h
        obtain ⟨rfl, rfl⟩ := h
        have hord : Ordered tree.maxKeys tree.height none none left :=
          Ordered.widen below_none tree.height hleft
        exact ⟨fun hkeeps => absurd hkeeps
            (not_unharmed htree hord (mangled_left hsplice hleaf)),
          fun hr' => absurd hr' hr⟩

theorem tryInsertWith_granted {separator : Separator α ν} (hsep : SeparatorOk separator)
    {allocs : LeafAllocs} {tree : BPlusTree α ν} (htree : tree.Ok) :
    tryInsertWith separator allocs (fun _ => true) tree key rowIndex =
      some (match insertWith separator tree key rowIndex with
        | none => (0, tree, [])
        | some tree' => (1, tree', [])) := by
  have hspec : TriedOk allocs (fun _ => true) tree.maxKeys rowIndex key none none tree.height
      tree.root
      (insertRecursive separator tree.maxKeys tree.fresh key rowIndex tree.height tree.root)
      (tryInsertRecursive separator allocs (fun _ => true) tree.maxKeys tree.fresh key rowIndex
        tree.height tree.root) :=
    tryInsertRecursive_ok hsep tree.four_le_maxKeys tree.height htree.ordered above_none
      below_none
  unfold tryInsertWith insertWith
  cases htried : tryInsertRecursive separator allocs (fun _ => true) tree.maxKeys tree.fresh key
      rowIndex tree.height tree.root with
  | duplicate =>
      rw [htried] at hspec
      rw [show insertRecursive separator tree.maxKeys tree.fresh key rowIndex tree.height
        tree.root = .duplicate from hspec]
  | done node =>
      rw [htried] at hspec
      rw [show insertRecursive separator tree.maxKeys tree.fresh key rowIndex tree.height
        tree.root = .done node from hspec]
  | split left k right used =>
      rw [htried] at hspec
      rw [hspec.1]
      rfl
  | failed node lost =>
      rw [htried] at hspec
      rcases hspec with ⟨⟨leaf, -, hnone⟩, -⟩ | ⟨-, ⟨n, hn⟩, -⟩
      · rw [allocate_granted] at hnone
        cases hnone
      · cases hn
  | overflow =>
      rw [htried] at hspec
      exact hspec.elim

end

end MiniDbms.Bptree

namespace MiniDbms

open Bptree

variable {ν : Type}

/-- A full leaf of the integer tree needs a sibling. -/
def leafAllocs : LeafAllocs := fun full => if full then 1 else 0

/-- A leaf of the string tree copies the key, a full one also needs a sibling and a
copy of the separator. -/
def stringLeafAllocs : LeafAllocs := fun full => if full then 3 else 1

/-- `bptree_insert`. -/
def bptreeTryInsert (ok : Nat → Bool) (tree : BPlusTree Int ν) (key : Int) (rowIndex : ν) :
    Option (Int × BPlusTree Int ν × List (Leaf Int ν)) :=
  tryInsertWith firstOfRight leafAllocs ok tree key rowIndex

/-- `bptree_string_insert`. -/
def bptreeStringTryInsert (ok : Nat → Bool) (tree : BPlusTree Bytes ν) (key : Bytes)
    (rowIndex : ν) : Option (Int × BPlusTree Bytes ν × List (Leaf Bytes ν)) :=
  if key = [] then some (-1, tree, [])
  else tryInsertWith chosenBeforeShift stringLeafAllocs ok tree key rowIndex

/-- **Running out of memory.** After an insertion that reports -1 the old keys are all
found and visited as before and the new one is absent exactly when the refused
allocation was one for the leaf.  An empty string key is refused without looking. -/
theorem insert_unharmed_iff :
    (∀ (ok : Nat → Bool) (tree tree' : BPlusTree Int ν) (key : Int) (rowIndex : ν)
      (lost : List (Leaf Int ν)), tree.Ok →
      bptreeTryInsert ok tree key rowIndex = some (-1, tree', lost) →
      (Unharmed tree key tree' lost ↔
        LeafRefuses leafAllocs ok tree.maxKeys key tree.height tree.root)) ∧
    ∀ (ok : Nat → Bool) (tree tree' : BPlusTree Bytes ν) (key : Bytes) (rowIndex : ν)
      (lost : List (Leaf Bytes ν)), tree.Ok →
      bptreeStringTryInsert ok tree key rowIndex = some (-1, tree', lost) →
      (Unharmed tree key tree' lost ↔
        if key = [] then search tree [] = none
        else LeafRefuses stringLeafAllocs ok tree.maxKeys key tree.height tree.root) := by
  constructor
  · intro ok tree tree' key rowIndex lost htree h
    exact unharmed_iff_leafRefuses firstOfRight_ok htree h
  · intro ok tree tree' key rowIndex lost htree h
    unfold bptreeStringTryInsert at h
    by_cases hempty : key = []
    · rw [if_pos hempty] at h ⊢
      simp only [Option.some.injEq, Prod.mk.injEq, true_and] at h
      obtain ⟨rfl, rfl⟩ := h
      subst hempty
      exact ⟨fun hkeeps => hkeeps.absent, fun habsent =>
        ⟨fun _ _ hfound => hfound, fun _ => rangeSearchPast_nil tree, habsent⟩⟩
    · rw [if_neg hempty] at h ⊢
      exact unharmed_iff_leafRefuses chosenBeforeShift_ok htree h

/-- A tree of order 8 whose only leaf is full. -/
def fullLeaf : BPlusTree Int where
  height := 0
  root := (⟨0, [(1, 1), (2, 2), (3, 3), (4, 4), (5, 5), (6, 6), (7, 7)], none⟩ : Leaf Int)
  order := 8
  fresh := 1

theorem fullLeaf_ok : fullLeaf.Ok where
  ordered := by
    refine ⟨?_, fun _ _ => ⟨above_none, below_none⟩, by decide⟩
    change ([(1, 1), (2, 2), (3, 3), (4, 4), (5, 5), (6, 6), (7, 7)] : List (Int × Nat)).Pairwise
      fun a b => a.1 < b.1
    decide
  linked := rfl
  addrs := by simp [fullLeaf, leaves]
  fresh := by simp [fullLeaf, leaves]

theorem insert_unharmed_no_memory :
    Unharmed fullLeaf 8 { fullLeaf with fresh := 2 } [] ∧
      Unharmed (create Bytes) [107] { create Bytes with fresh := 2 } [] :=
  ⟨(insert_unharmed_iff.1 (fun _ => false) fullLeaf _ 8 8 [] fullLeaf_ok rfl).2
      ⟨_, rfl, rfl⟩,
    (insert_unharmed_iff.2 (fun _ => false) (create Bytes) _ [107] 0 [] BPlusTree.create_ok rfl).2
      ⟨_, rfl, rfl⟩⟩

/-- The full leaf gets its sibling and the new root is refused: the upper half of the
keys is gone. -/
theorem root_refused_loses_keys :
    fullLeaf.Ok ∧ search fullLeaf 5 = some 5 ∧
      ∃ tree' lost, bptreeTryInsert (fun n => n == 0) fullLeaf 8 8 = some (-1, tree', lost) ∧
        search tree' 5 = none ∧ ¬ Unharmed fullLeaf 8 tree' lost := by
  have hold : search fullLeaf 5 = some 5 := by decide
  refine ⟨fullLeaf_ok, hold, _, _, rfl, by decide, fun hkeeps => ?_⟩
  have hfound := hkeeps.found 5 5 hold
  revert hfound
  decide

end MiniDbms
