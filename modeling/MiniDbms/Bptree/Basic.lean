import MiniDbms.Lib.CString
import MiniDbms.Lib.Lists
import Mathlib.Data.Int.Order.Basic

/-!
# B+ trees

`bptree.c` holds two copies of one tree, keyed by `long` and by strings.  The
node layout and the algorithms are the same up to the comparison of keys and the
way a leaf split chooses its separator, so they are stated once over an ordered
key type.

A node of height `h` owns its children, and every leaf of a tree is reached at
the same height, so the height is an index of the node type.  Leaves are also
linked by `next`; a link is the address of a leaf.  Allocation succeeds here.
-/

namespace MiniDbms.Bptree

structure Leaf (α : Type) (ν : Type := Nat) where
  addr : Nat
  entries : List (α × ν)
  next : Option Nat
deriving DecidableEq

structure InnerNode (α β : Type) where
  keys : List α
  children : List β
deriving DecidableEq

/-- A node whose leaves are `h` levels below it. -/
def Node (α ν : Type) : Nat → Type
  | 0 => Leaf α ν
  | h + 1 => InnerNode α (Node α ν h)

structure BPlusTree (α : Type) (ν : Type := Nat) where
  height : Nat
  root : Node α ν height
  order : Nat
  /-- the address of the next leaf to be allocated -/
  fresh : Nat

def normalizeOrder (order : Nat) : Nat :=
  if order ≤ 8 then 8 else if order ≤ 16 then 16 else if order ≤ 32 then 32 else 64

def BPlusTree.maxKeys {α ν : Type} (tree : BPlusTree α ν) : Nat := normalizeOrder tree.order - 1

/-- `bptree_create`. -/
def create (α : Type) (ν : Type := Nat) : BPlusTree α ν where
  height := 0
  root := (⟨0, [], none⟩ : Leaf α ν)
  order := 32
  fresh := 1

/-- `bptree_create_with_order`: an order below 8, negative ones included, becomes 8. -/
def createWithOrder (α ν : Type) (order : Int) : BPlusTree α ν :=
  { create α ν with order := normalizeOrder order.toNat }

/-- `bptree_order`. -/
def BPlusTree.treeOrder {α ν : Type} (tree : BPlusTree α ν) : Nat := normalizeOrder tree.order

/-! ## Binary search -/

/-- The loop shared by the lower and the upper bound: `right` tells whether the
wanted position lies behind a key. -/
def bisect {α : Type} (right : α → Bool) (keys : List α) : Nat → Nat → Nat → Nat
  | 0, lo, _ => lo
  | fuel + 1, lo, hi =>
    if lo < hi then
      let mid := lo + (hi - lo) / 2
      match keys[mid]? with
      | some k => if right k then bisect right keys fuel (mid + 1) hi
                  else bisect right keys fuel lo mid
      | none => lo
    else lo

section

variable {α : Type} [LinearOrder α]

/-- `lower_bound_long`, `lower_bound_string`. -/
def lowerBound (keys : List α) (key : α) : Nat :=
  bisect (fun k => decide (k < key)) keys keys.length 0 keys.length

/-- `upper_bound_long`, `upper_bound_string`. -/
def upperBound (keys : List α) (key : α) : Nat :=
  bisect (fun k => decide (k ≤ key)) keys keys.length 0 keys.length

/-! ## Search -/

variable {ν : Type}

/-- The leaf that is responsible for a key. -/
def findLeaf (key : α) : (h : Nat) → Node α ν h → Option (Leaf α ν)
  | 0, leaf => some leaf
  | h + 1, node =>
    match (InnerNode.children node)[upperBound (InnerNode.keys node) key]? with
    | some child => findLeaf key h child
    | none => none

def Leaf.search (leaf : Leaf α ν) (key : α) : Option ν :=
  match leaf.entries[lowerBound (leaf.entries.map Prod.fst) key]? with
  | some (k, rowIndex) => if k = key then some rowIndex else none
  | none => none

/-- `bptree_search`, `bptree_string_search`. -/
def search (tree : BPlusTree α ν) (key : α) : Option ν :=
  (findLeaf key tree.height tree.root).bind fun leaf => leaf.search key

/-! ## Range search -/

/-- All leaves from left to right. -/
def leaves {α ν : Type} : (h : Nat) → Node α ν h → List (Leaf α ν)
  | 0, leaf => [leaf]
  | h + 1, node => (InnerNode.children node).flatMap (leaves h)

/-- What a visitor loop came to: it ran off the end of a leaf, or the search
returns. -/
inductive Visit (σ : Type)
  | more (ctx : σ)
  | done (ctx : σ) (rc : Bool)

variable {σ : Type}

/-- The inner loop of a range search over one leaf. -/
def visitLeaf (lo hi : α) (visitor : σ → α → ν → σ × Bool) : List (α × ν) → σ → Visit σ
  | [], ctx => .more ctx
  | (k, rowIndex) :: rest, ctx =>
    if k < lo then visitLeaf lo hi visitor rest ctx
    else if hi < k then .done ctx true
    else
      match visitor ctx k rowIndex with
      | (ctx, true) => visitLeaf lo hi visitor rest ctx
      | (ctx, false) => .done ctx false

/-- The outer loop follows `next`; no chain is longer than the list of leaves. -/
def visitFrom (lo hi : α) (visitor : σ → α → ν → σ × Bool) (all : List (Leaf α ν)) :
    Nat → Option (Leaf α ν) → σ → σ × Bool
  | _, none, ctx => (ctx, true)
  | 0, some _, ctx => (ctx, true)
  | fuel + 1, some leaf, ctx =>
    match visitLeaf lo hi visitor leaf.entries ctx with
    | .done ctx rc => (ctx, rc)
    | .more ctx =>
      visitFrom lo hi visitor all fuel
        (leaf.next.bind fun a => all.find? fun l => l.addr == a) ctx

/-- `bptree_range_search`, `bptree_string_range_search`. -/
def rangeSearch (tree : BPlusTree α ν) (lo hi : α) (visitor : σ → α → ν → σ × Bool)
    (ctx : σ) : σ × Bool :=
  if hi < lo then (ctx, true)
  else
    let all := leaves tree.height tree.root
    visitFrom lo hi visitor all all.length (findLeaf lo tree.height tree.root) ctx

/-! ## Visiting all pairs -/

/-- The leftmost leaf. -/
def firstLeaf {α ν : Type} : (h : Nat) → Node α ν h → Option (Leaf α ν)
  | 0, leaf => some leaf
  | h + 1, node =>
    match InnerNode.children node with
    | child :: _ => firstLeaf h child
    | [] => none

/-- The inner loop of a visit; a visitor that answers `false` ends it. -/
def visitEntries {α ν : Type} (visitor : σ → α → ν → σ × Bool) : List (α × ν) → σ → σ × Bool
  | [], ctx => (ctx, true)
  | (k, rowIndex) :: rest, ctx =>
    match visitor ctx k rowIndex with
    | (ctx, true) => visitEntries visitor rest ctx
    | (ctx, false) => (ctx, false)

/-- The outer loop, as in a range search. -/
def visitChain {α ν : Type} (visitor : σ → α → ν → σ × Bool) (all : List (Leaf α ν)) :
    Nat → Option (Leaf α ν) → σ → σ × Bool
  | _, none, ctx => (ctx, true)
  | 0, some _, ctx => (ctx, true)
  | fuel + 1, some leaf, ctx =>
    match visitEntries visitor leaf.entries ctx with
    | (ctx, false) => (ctx, false)
    | (ctx, true) =>
      visitChain visitor all fuel (leaf.next.bind fun a => all.find? fun l => l.addr == a) ctx

/-- `bptree_visit_pairs`, `bptree_string_visit_pairs`. -/
def visitPairs {α ν : Type} (tree : BPlusTree α ν) (visitor : σ → α → ν → σ × Bool)
    (ctx : σ) : σ × Bool :=
  let all := leaves tree.height tree.root
  visitChain visitor all all.length (firstLeaf tree.height tree.root) ctx

/-! ## Insertion -/

/-- The results 0, 1 and 2 of `insert_recursive`. -/
inductive Inserted (β : Type) (α : Type)
  | duplicate
  | done (node : β)
  | split (left : β) (promoted : α) (right : β)

/-- Chooses the separator of a leaf split from the entries before the insertion,
the position of the new key, the size of the left half and the new key. -/
abbrev Separator (α ν : Type) := List (α × ν) → Nat → Nat → α → α

def Leaf.insert (separator : Separator α ν) (maxKeys fresh : Nat) (leaf : Leaf α ν)
    (key : α) (rowIndex : ν) : Inserted (Leaf α ν) α :=
  let i := lowerBound (leaf.entries.map Prod.fst) key
  if (leaf.entries[i]?).map Prod.fst = some key then .duplicate
  else
    let entries := leaf.entries.take i ++ (key, rowIndex) :: leaf.entries.drop i
    if entries.length ≤ maxKeys then .done { leaf with entries := entries }
    else
      let minLeafKeys := maxKeys / 2
      .split ⟨leaf.addr, entries.take minLeafKeys, some fresh⟩
        (separator leaf.entries i minLeafKeys key)
        ⟨fresh, entries.drop minLeafKeys, leaf.next⟩

/-- Puts the two halves of a split child back into their parent, and splits the
parent when it overflows. -/
def InnerNode.absorb {β : Type} (maxKeys : Nat) (node : InnerNode α β) (i : Nat)
    (left : β) (promoted : α) (right : β) : Inserted (InnerNode α β) α :=
  let keys := node.keys.take i ++ promoted :: node.keys.drop i
  let children := node.children.take i ++ left :: right :: node.children.drop (i + 1)
  if keys.length ≤ maxKeys then .done ⟨keys, children⟩
  else
    let split := keys.length / 2
    match keys[split]? with
    | some k => .split ⟨keys.take split, children.take (split + 1)⟩ k
        ⟨keys.drop (split + 1), children.drop (split + 1)⟩
    | none => .done ⟨keys, children⟩

/-- `insert_recursive`, `string_insert_recursive`. -/
def insertRecursive (separator : Separator α ν) (maxKeys fresh : Nat) (key : α)
    (rowIndex : ν) : (h : Nat) → Node α ν h → Inserted (Node α ν h) α
  | 0, leaf => Leaf.insert separator maxKeys fresh leaf key rowIndex
  | h + 1, node =>
    let i := upperBound (InnerNode.keys node) key
    match (InnerNode.children node)[i]? with
    | none => .duplicate
    | some child =>
      match insertRecursive separator maxKeys fresh key rowIndex h child with
      | .duplicate => .duplicate
      | .done child' => .done (⟨InnerNode.keys node,
          (InnerNode.children node).set i child'⟩ : InnerNode α (Node α ν h))
      | .split left k right =>
        InnerNode.absorb maxKeys (node : InnerNode α (Node α ν h)) i left k right

/-- The insertion with either choice of separator: the new tree, or `none` when
the key is already there and the C function returns 0. -/
def insertWith (separator : Separator α ν) (tree : BPlusTree α ν) (key : α) (rowIndex : ν) :
    Option (BPlusTree α ν) :=
  match insertRecursive separator tree.maxKeys tree.fresh key rowIndex tree.height tree.root with
  | .duplicate => none
  | .done node => some { tree with root := node, fresh := tree.fresh + 1 }
  | .split left k right => some
      { height := tree.height + 1
        root := (⟨[k], [left, right]⟩ : InnerNode α (Node α ν tree.height))
        order := tree.order
        fresh := tree.fresh + 1 }

/-- The integer tree promotes the first key of the new right leaf. -/
def firstOfRight : Separator α ν := fun entries i minLeafKeys key =>
  let keys := entries.map Prod.fst
  ((keys.take i ++ key :: keys.drop i)[minLeafKeys]?).getD key

/-- The string tree copies its separator before it shifts the keys. -/
def chosenBeforeShift : Separator α ν := fun entries i minLeafKeys key =>
  if i < minLeafKeys then ((entries[minLeafKeys - 1]?).map Prod.fst).getD key
  else if i = minLeafKeys then key
  else ((entries[minLeafKeys]?).map Prod.fst).getD key

/-! ## Deletion -/

def Leaf.delete (leaf : Leaf α ν) (key : α) : Option (Leaf α ν) :=
  let i := lowerBound (leaf.entries.map Prod.fst) key
  if (leaf.entries[i]?).map Prod.fst = some key then
    some { leaf with entries := leaf.entries.eraseIdx i }
  else none

def deleteBelow (key : α) : (h : Nat) → Node α ν h → Option (Node α ν h)
  | 0, leaf => Leaf.delete leaf key
  | h + 1, node =>
    let i := upperBound (InnerNode.keys node) key
    match (InnerNode.children node)[i]? with
    | none => none
    | some child => (deleteBelow key h child).map fun child' =>
        (⟨InnerNode.keys node, (InnerNode.children node).set i child'⟩ : InnerNode α (Node α ν h))

/-- The key is taken out of its leaf and nothing is rebalanced; `none` for the
result 0. -/
def delete (tree : BPlusTree α ν) (key : α) : Option (BPlusTree α ν) :=
  (deleteBelow key tree.height tree.root).map fun root => { tree with root := root }

/-- `bptree_clear`, `bptree_string_clear`: the order stays. -/
def clear {α ν : Type} (tree : BPlusTree α ν) : BPlusTree α ν where
  height := 0
  root := (⟨tree.fresh, [], none⟩ : Leaf α ν)
  order := tree.order
  fresh := tree.fresh + 1

/-! ## Bulk building -/

def chooseOrderForCount (count : Nat) : Nat :=
  if count < 4096 then 8 else if count < 65536 then 16 else if count < 262144 then 32 else 64

/-- The check that every key is smaller than its successor. -/
def increasing : List (α × ν) → Bool
  | a :: b :: rest => if b.1 ≤ a.1 then false else increasing (b :: rest)
  | _ => true

/-- `first_key`, `first_string_key`: `none` for an empty leaf. -/
def firstKey {α ν : Type} : (h : Nat) → Node α ν h → Option α
  | 0, leaf => (Leaf.entries leaf).head?.map Prod.fst
  | h + 1, node =>
    match InnerNode.children node with
    | child :: _ => firstKey h child
    | [] => none

/-- The leaves of a bulk-built tree: full ones from `addr` on, each linked to the
next. -/
def chainLeaves {α ν : Type} (addr : Nat) : List (List (α × ν)) → List (Leaf α ν)
  | [] => []
  | [entries] => [⟨addr, entries, none⟩]
  | entries :: rest => ⟨addr, entries, some (addr + 1)⟩ :: chainLeaves (addr + 1) rest

/-- A parent of some children.  `separator` says what becomes of a first key: an
empty child counts as 0 in the integer tree and fails the string tree's build. -/
def parentOf {α ν : Type} (separator : Option α → Option α) {h : Nat}
    (children : List (Node α ν h)) : Option (InnerNode α (Node α ν h)) := do
  let keys ← children.tail.mapM fun child => separator (firstKey h child)
  some ⟨keys, children⟩

/-- The loop over levels; every round makes the level shorter. -/
def buildLevels {α ν : Type} (separator : Option α → Option α) (order : Nat) :
    Nat → (h : Nat) → List (Node α ν h) → Option ((h : Nat) × Node α ν h)
  | _, h, [root] => some ⟨h, root⟩
  | 0, _, _ => none
  | fuel + 1, h, level => do
    let parents ← (chunks order level).mapM (parentOf separator)
    buildLevels separator order fuel (h + 1) parents

/-- `bptree_build_from_sorted`, `bptree_string_build_from_sorted` with `count` the
length of `pairs`: the tree and the result.  A refused build has already changed
the order. -/
def buildFromSorted (separator : Option α → Option α) (tree : BPlusTree α ν)
    (pairs : List (α × ν)) : BPlusTree α ν × Bool :=
  let tree := { tree with order := chooseOrderForCount pairs.length }
  if pairs = [] then (clear tree, true)
  else if increasing pairs = false then (tree, false)
  else
    let level := chainLeaves tree.fresh (chunks tree.maxKeys pairs)
    match buildLevels separator tree.treeOrder level.length 0 level with
    | none => (tree, false)
    | some ⟨height, root⟩ => (⟨height, root, tree.order, tree.fresh + level.length⟩, true)

end

end MiniDbms.Bptree

namespace MiniDbms

open Bptree

variable {ν : Type}

/-- `bptree_insert`: `none` for the result 0. -/
def bptreeInsert (tree : BPlusTree Int ν) (key : Int) (rowIndex : ν) : Option (BPlusTree Int ν) :=
  insertWith firstOfRight tree key rowIndex

/-- `bptree_string_insert`: the empty key is refused with -1, a present one with
0; the callers only tell 1 from the rest. -/
def bptreeStringInsert (tree : BPlusTree Bytes ν) (key : Bytes) (rowIndex : ν) :
    Option (BPlusTree Bytes ν) :=
  if key = [] then none else insertWith chosenBeforeShift tree key rowIndex

/-- `bptree_delete`: `none` for the result 0. -/
def bptreeDelete (tree : BPlusTree Int ν) (key : Int) : Option (BPlusTree Int ν) :=
  delete tree key

/-- `bptree_string_delete`: the empty key is refused. -/
def bptreeStringDelete (tree : BPlusTree Bytes ν) (key : Bytes) : Option (BPlusTree Bytes ν) :=
  if key = [] then none else delete tree key

/-- `bptree_build_from_sorted`. -/
def bptreeBuildFromSorted (tree : BPlusTree Int ν) (pairs : List (Int × ν)) :
    BPlusTree Int ν × Bool :=
  buildFromSorted (fun first => some (first.getD 0)) tree pairs

/-- `bptree_string_build_from_sorted`. -/
def bptreeStringBuildFromSorted (tree : BPlusTree Bytes ν) (pairs : List (Bytes × ν)) :
    BPlusTree Bytes ν × Bool :=
  buildFromSorted id tree pairs

end MiniDbms
