import MiniDbms.Bptree.Map
import MiniDbms.Lib.Ledger
import MiniDbms.Lib.Slots

/-!
# The string tree and its keys

The string tree owns its keys: a node holds pointers to blocks that `dup_key`
allocated, moves them between nodes by hand, and releases them when they go.  This
file embeds the tree at the level of the key slots.  A key never changes, so a
pointer carries the text it points to; whether its block is still allocated is the
ledger's matter.  A read of a NULL slot and a `free` of a block that is not
allocated are faults, and `none` stands for one.
-/

namespace MiniDbms.StringTree

open Bptree Slots

structure KeyPtr where
  addr : Nat
  text : Bytes
deriving DecidableEq

/-- `BPTREE_MAX_ORDER`, the number of key slots of a node. -/
def maxOrder : Nat := 64

/-- A `BPlusStringNode` that is a leaf; `values` lists the values in use. -/
structure StringLeaf where
  addr : Nat
  keyCount : Nat
  keys : List (Option KeyPtr)
  values : List Int
  next : Option Nat

structure StringInner (β : Type) where
  keyCount : Nat
  keys : List (Option KeyPtr)
  children : List β

def StringNode : Nat → Type
  | 0 => StringLeaf
  | h + 1 => StringInner (StringNode h)

structure BPlusStringTree where
  height : Nat
  root : StringNode height
  order : Nat
  fresh : Nat

def BPlusStringTree.maxKeys (tree : BPlusStringTree) : Nat := normalizeOrder tree.order - 1

/-- `create_string_node(1)`. -/
def createLeaf (addr : Nat) : StringLeaf := ⟨addr, 0, List.replicate maxOrder none, [], none⟩

/-- `bptree_string_create_with_order`; `bptree_string_create` has order 32. -/
def createWithOrder (order : Int) : BPlusStringTree where
  height := 0
  root := createLeaf 0
  order := normalizeOrder order.toNat
  fresh := 1

/-- `dup_key` of a string. -/
def dupKey (text : Bytes) (led : Ledger) : KeyPtr × Ledger := (⟨led.next, text⟩, led.alloc)

/-- The keys in use. -/
def liveKeys (keys : List (Option KeyPtr)) (keyCount : Nat) : Option (List KeyPtr) :=
  (keys.take keyCount).mapM id

/-! ## Insertion -/

/-- The text of the separator that a leaf split copies before it shifts the keys. -/
def separatorText (keys : List (Option KeyPtr)) (i minLeafKeys : Nat) (key : Bytes) :
    Option Bytes :=
  if i < minLeafKeys then ((keys[minLeafKeys - 1]?).join).map KeyPtr.text
  else if i = minLeafKeys then some key
  else ((keys[minLeafKeys]?).join).map KeyPtr.text

def StringLeaf.insert (maxKeys fresh : Nat) (leaf : StringLeaf) (key : Bytes) (rowIndex : Int)
    (led : Ledger) : Option (Inserted StringLeaf KeyPtr × Ledger) := do
  let live ← liveKeys leaf.keys leaf.keyCount
  let i := lowerBound (live.map KeyPtr.text) key
  if (live[i]?).map KeyPtr.text = some key then
    some (.duplicate, led)
  else
    let (keyCopy, led) := dupKey key led
    let keys := (memmove leaf.keys (i + 1) i (leaf.keyCount - i)).set i (some keyCopy)
    let values := leaf.values.take i ++ rowIndex :: leaf.values.drop i
    let count := leaf.keyCount + 1
    if leaf.keyCount = maxKeys then
      let minLeafKeys := maxKeys / 2
      let separator ← separatorText leaf.keys i minLeafKeys key
      let (separatorCopy, led) := dupKey separator led
      let rightCount := count - minLeafKeys
      some (.split
        ⟨leaf.addr, minLeafKeys, memzero keys minLeafKeys rightCount,
          values.take minLeafKeys, some fresh⟩
        separatorCopy
        ⟨fresh, rightCount, memcpyZeroed maxOrder keys minLeafKeys rightCount,
          values.drop minLeafKeys, leaf.next⟩, led)
    -- without a right node there must be room
    else if count ≤ maxKeys then
      some (.done ⟨leaf.addr, count, keys, values, leaf.next⟩, led)
    else none

/-- Puts the two halves of a split child back into their parent. -/
def StringInner.absorb {β : Type} (maxKeys : Nat) (node : StringInner β) (i : Nat)
    (left : β) (promoted : KeyPtr) (right : β) : Option (Inserted (StringInner β) KeyPtr) := do
  let keys := (memmove node.keys (i + 1) i (node.keyCount - i)).set i (some promoted)
  let children := node.children.take i ++ left :: right :: node.children.drop (i + 1)
  let count := node.keyCount + 1
  if node.keyCount = maxKeys then
    let split := count / 2
    let promoted ← (keys[split]?).join
    let rightKeys := count - split - 1
    some (.split ⟨split, memzero keys split (rightKeys + 1), children.take (split + 1)⟩ promoted
      ⟨rightKeys, memcpyZeroed maxOrder keys (split + 1) rightKeys, children.drop (split + 1)⟩)
  else if count ≤ maxKeys then some (.done ⟨count, keys, children⟩)
  else none

/-- `string_insert_recursive`. -/
def stringInsertRecursive (maxKeys fresh : Nat) (key : Bytes) (rowIndex : Int) :
    (h : Nat) → StringNode h → Ledger → Option (Inserted (StringNode h) KeyPtr × Ledger)
  | 0, leaf, led => StringLeaf.insert maxKeys fresh leaf key rowIndex led
  | h + 1, node, led => do
    let live ← liveKeys (StringInner.keys node) (StringInner.keyCount node)
    let i := upperBound (live.map KeyPtr.text) key
    let child ← (StringInner.children node)[i]?
    match ← stringInsertRecursive maxKeys fresh key rowIndex h child led with
    | (.duplicate, led) => some (.duplicate, led)
    | (.done child', led) =>
      some (.done ({ (node : StringInner (StringNode h)) with
        children := (StringInner.children node).set i child' } : StringInner (StringNode h)), led)
    | (.split left k right, led) => do
      let result ← StringInner.absorb maxKeys (node : StringInner (StringNode h)) i left k right
      some (result, led)

/-- `bptree_string_insert`. -/
def bptreeStringInsert (tree : BPlusStringTree) (key : Bytes) (rowIndex : Int) (led : Ledger) :
    Option (BPlusStringTree × Ledger × Int) :=
  if key = [] then some (tree, led, -1)
  else do
    match ← stringInsertRecursive tree.maxKeys tree.fresh key rowIndex tree.height tree.root led with
    | (.duplicate, led) => some (tree, led, 0)
    | (.done root, led) => some ({ tree with root := root, fresh := tree.fresh + 1 }, led, 1)
    | (.split left k right, led) =>
      some (
        { height := tree.height + 1
          root := (⟨1, (List.replicate maxOrder none).set 0 (some k), [left, right]⟩ :
            StringInner (StringNode tree.height))
          order := tree.order
          fresh := tree.fresh + 1 }, led, 1)

/-! ## Deletion -/

/-- The leaf without the key, whose block is released; `none` inside when the key is
not there. -/
def StringLeaf.delete (leaf : StringLeaf) (key : Bytes) (led : Ledger) :
    Option (Option StringLeaf × Ledger) := do
  let live ← liveKeys leaf.keys leaf.keyCount
  let i := lowerBound (live.map KeyPtr.text) key
  match live[i]? with
  | none => some (none, led)
  | some k =>
    if k.text = key then
      let led ← led.free k.addr
      let keys := (memmove leaf.keys i (i + 1) (leaf.keyCount - i - 1)).set (leaf.keyCount - 1) none
      some (some ⟨leaf.addr, leaf.keyCount - 1, keys, leaf.values.eraseIdx i, leaf.next⟩, led)
    else some (none, led)

def stringDeleteBelow (key : Bytes) :
    (h : Nat) → StringNode h → Ledger → Option (Option (StringNode h) × Ledger)
  | 0, leaf, led => StringLeaf.delete leaf key led
  | h + 1, node, led => do
    let live ← liveKeys (StringInner.keys node) (StringInner.keyCount node)
    let i := upperBound (live.map KeyPtr.text) key
    let child ← (StringInner.children node)[i]?
    match ← stringDeleteBelow key h child led with
    | (none, led) => some (none, led)
    | (some child', led) =>
      some (some ({ (node : StringInner (StringNode h)) with
        children := (StringInner.children node).set i child' } : StringInner (StringNode h)), led)

/-- `bptree_string_delete`. -/
def bptreeStringDelete (tree : BPlusStringTree) (key : Bytes) (led : Ledger) :
    Option (BPlusStringTree × Ledger × Int) :=
  if key = [] then some (tree, led, 0)
  else do
    match ← stringDeleteBelow key tree.height tree.root led with
    | (none, led) => some (tree, led, 0)
    | (some root, led) => some ({ tree with root := root }, led, 1)

/-! ## Clearing -/

def freeKeys : List KeyPtr → Ledger → Option Ledger
  | [], led => some led
  | k :: ks, led => do
    let led ← led.free k.addr
    freeKeys ks led

/-- `destroy_string_node`. -/
def destroyStringNode : (h : Nat) → StringNode h → Ledger → Option Ledger
  | 0, leaf, led => do
    let live ← liveKeys (StringLeaf.keys leaf) (StringLeaf.keyCount leaf)
    freeKeys live led
  | h + 1, node, led => do
    let live ← liveKeys (StringInner.keys node) (StringInner.keyCount node)
    let led ← freeKeys live led
    ((StringInner.children node).take (StringInner.keyCount node + 1)).foldlM
      (fun led child => destroyStringNode h child led) led

/-- `bptree_string_clear`. -/
def bptreeStringClear (tree : BPlusStringTree) (led : Ledger) :
    Option (BPlusStringTree × Ledger) := do
  let led ← destroyStringNode tree.height tree.root led
  some (⟨0, createLeaf tree.fresh, tree.order, tree.fresh + 1⟩, led)

/-! ## Bulk building -/

/-- `first_string_key`. -/
def firstStringKey : (h : Nat) → StringNode h → Option KeyPtr
  | 0, leaf => if 0 < StringLeaf.keyCount leaf then ((StringLeaf.keys leaf)[0]?).join else none
  | h + 1, node =>
    match StringInner.children node with
    | child :: _ => firstStringKey h child
    | [] => none

/-- The bottom level takes the caller's keys. -/
def chainStringLeaves (addr : Nat) : List (List (KeyPtr × Int)) → List StringLeaf
  | [] => []
  | [pairs] => [⟨addr, pairs.length, pad maxOrder (pairs.map Prod.fst), pairs.map Prod.snd, none⟩]
  | pairs :: rest =>
    ⟨addr, pairs.length, pad maxOrder (pairs.map Prod.fst), pairs.map Prod.snd, some (addr + 1)⟩ ::
      chainStringLeaves (addr + 1) rest

/-- Copies of the first keys of some nodes.  No leaf of a build is empty, so the
failure of the build on a missing key is a fault here. -/
def dupFirstKeys {h : Nat} : List (StringNode h) → Ledger → Option (List KeyPtr × Ledger)
  | [], led => some ([], led)
  | child :: rest, led => do
    let first ← firstStringKey h child
    let (copy, led) := dupKey first.text led
    let (copies, led) ← dupFirstKeys rest led
    some (copy :: copies, led)

def stringParents {h : Nat} : List (List (StringNode h)) → Ledger →
    Option (List (StringInner (StringNode h)) × Ledger)
  | [], led => some ([], led)
  | children :: rest, led => do
    let (keys, led) ← dupFirstKeys children.tail led
    let (parents, led) ← stringParents rest led
    some (⟨children.length - 1, pad maxOrder keys, children⟩ :: parents, led)

def stringBuildLevels (order : Nat) : Nat → (h : Nat) → List (StringNode h) → Ledger →
    Option (((h : Nat) × StringNode h) × Ledger)
  | _, h, [root], led => some (⟨h, root⟩, led)
  | 0, _, _, _ => none
  | fuel + 1, h, level, led => do
    let (parents, led) ← stringParents (chunks order level) led
    stringBuildLevels order fuel (h + 1) parents led

/-- `bptree_string_build_from_sorted`: a build that succeeds owns the keys of
`pairs` and has released those of the old tree. -/
def bptreeStringBuildFromSorted (tree : BPlusStringTree) (pairs : List (KeyPtr × Int))
    (led : Ledger) : Option (BPlusStringTree × Ledger × Int) :=
  let tree := { tree with order := chooseOrderForCount pairs.length }
  if pairs = [] then do
    let (tree, led) ← bptreeStringClear tree led
    some (tree, led, 1)
  else if increasing (pairs.map fun e => (e.1.text, e.2)) = false then some (tree, led, 0)
  else do
    let level := chainStringLeaves tree.fresh (chunks tree.maxKeys pairs)
    let (⟨height, root⟩, led) ←
      stringBuildLevels (normalizeOrder tree.order) level.length 0 level led
    let led ← destroyStringNode tree.height tree.root led
    some (⟨height, root, tree.order, tree.fresh + level.length⟩, led, 1)

/-! ## Reading -/

/-- What a reader of a node sees through its key pointers. -/
def readNode (led : Ledger) : (h : Nat) → StringNode h → Option (Node Bytes Int h)
  | 0, leaf => do
    let live ← liveKeys (StringLeaf.keys leaf) (StringLeaf.keyCount leaf)
    if live.all fun k => led.live.contains k.addr then
      some (⟨StringLeaf.addr leaf, (live.map KeyPtr.text).zip (StringLeaf.values leaf),
        StringLeaf.next leaf⟩ : Leaf Bytes Int)
    else none
  | h + 1, node => do
    let live ← liveKeys (StringInner.keys node) (StringInner.keyCount node)
    let children ← (StringInner.children node).mapM (readNode led h)
    if live.all fun k => led.live.contains k.addr then
      some (⟨live.map KeyPtr.text, children⟩ : InnerNode Bytes (Node Bytes Int h))
    else none

/-- `bptree_string_search`, `bptree_string_range_search` and
`bptree_string_visit_pairs` follow the key pointers and are otherwise the queries
of the integer tree. -/
def read (tree : BPlusStringTree) (led : Ledger) : Option (BPlusTree Bytes Int) := do
  let root ← readNode led tree.height tree.root
  some ⟨tree.height, root, tree.order, tree.fresh⟩

/-- The key pointers in all slots of the nodes, those behind `key_count` included. -/
def slotAddrs : (h : Nat) → StringNode h → List Nat
  | 0, leaf => (StringLeaf.keys leaf).filterMap fun k => k.map KeyPtr.addr
  | h + 1, node => ((StringInner.keys node).filterMap fun k => k.map KeyPtr.addr) ++
      (StringInner.children node).flatMap (slotAddrs h)

end MiniDbms.StringTree
