import MiniDbms.Bptree.Alloc
import MiniDbms.Bptree.Map

/-!
# A bulk build that fails

The bulk build of `Basic` with every allocation answered by an oracle.  The order of
the tree is chosen from the number of pairs before anything is checked, while the
nodes are exchanged only at the end; a build that reports 0 has changed the order
and nothing else.  What a tree is worth afterwards is seen in the calls that follow.
-/

namespace MiniDbms.Bptree

section

variable {α ν : Type} [LinearOrder α]

/-- The parents of one level, from the `used`-th allocation on: a node for each, and
`copies` copies of every separator. -/
def tryParents (separator : Option α → Option α) (copies : Nat) (ok : Nat → Bool) {h : Nat} :
    Nat → List (List (Node α ν h)) → Option (List (InnerNode α (Node α ν h)) × Nat)
  | used, [] => some ([], used)
  | used, children :: rest => do
    let used ← allocate ok used (1 + copies * (children.length - 1))
    let parent ← parentOf separator children
    let (parents, used) ← tryParents separator copies ok used rest
    some (parent :: parents, used)

/-- The loop over levels; each needs an array first. -/
def tryBuildLevels (separator : Option α → Option α) (copies : Nat) (ok : Nat → Bool)
    (order : Nat) : Nat → Nat → (h : Nat) → List (Node α ν h) → Option ((h : Nat) × Node α ν h)
  | _, _, h, [root] => some ⟨h, root⟩
  | 0, _, _, _ => none
  | fuel + 1, used, h, level => do
    let used ← allocate ok used 1
    let (parents, used) ← tryParents separator copies ok used (chunks order level)
    tryBuildLevels separator copies ok order fuel used (h + 1) parents

/-- The build with the tree it leaves and its result. -/
def tryBuildFromSorted (separator : Option α → Option α) (copies : Nat) (ok : Nat → Bool)
    (tree : BPlusTree α ν) (pairs : List (α × ν)) : BPlusTree α ν × Bool :=
  let tree := { tree with order := chooseOrderForCount pairs.length }
  if pairs = [] then
    if ok 0 then (clear tree, true) else (tree, false)
  else if increasing pairs = false then (tree, false)
  else
    let level := chainLeaves tree.fresh (chunks tree.maxKeys pairs)
    -- the array of leaves, and the leaves
    match allocate ok 0 (1 + level.length) with
    | none => (tree, false)
    | some used =>
      match tryBuildLevels separator copies ok tree.treeOrder level.length used 0 level with
      | none => (tree, false)
      | some ⟨height, root⟩ => (⟨height, root, tree.order, tree.fresh + level.length⟩, true)

omit [LinearOrder α] in
theorem tryParents_granted (separator : Option α → Option α) (copies : Nat) {h : Nat} :
    ∀ (pieces : List (List (Node α ν h))) (used : Nat),
      (tryParents separator copies (fun _ => true) used pieces).map Prod.fst =
        pieces.mapM (parentOf separator)
  | [], _ => rfl
  | children :: rest, used => by
      have ih := tryParents_granted separator copies rest
        (used + (1 + copies * (children.length - 1)))
      rw [tryParents, allocate_granted, List.mapM_cons, ← ih]
      cases parentOf separator children with
      | none => rfl
      | some parent =>
          simp only [Option.bind_eq_bind, Option.bind_some]
          cases tryParents separator copies (fun _ => true)
              (used + (1 + copies * (children.length - 1))) rest with
          | none => rfl
          | some result => rfl

omit [LinearOrder α] in
theorem tryBuildLevels_granted (separator : Option α → Option α) (copies order : Nat) :
    ∀ (fuel used h : Nat) (level : List (Node α ν h)),
      tryBuildLevels separator copies (fun _ => true) order fuel used h level =
        buildLevels separator order fuel h level := by
  intro fuel
  induction fuel with
  | zero =>
      intro used h level
      match level with
      | [] => rfl
      | [_] => rfl
      | _ :: _ :: _ => rfl
  | succ fuel ih =>
      have hstep (used h : Nat) (level : List (Node α ν h)) :
          ((allocate (fun _ => true) used 1).bind fun used =>
            (tryParents separator copies (fun _ => true) used (chunks order level)).bind
              fun (parents, used) =>
                tryBuildLevels separator copies (fun _ => true) order fuel used (h + 1) parents) =
            ((chunks order level).mapM (parentOf separator)).bind
              (buildLevels separator order fuel (h + 1)) := by
        rw [allocate_granted, Option.bind_some,
          ← tryParents_granted separator copies (chunks order level) (used + 1)]
        cases tryParents separator copies (fun _ => true) (used + 1) (chunks order level) with
        | none => rfl
        | some result => exact ih _ _ _
      intro used h level
      match level with
      | [] => exact hstep used h []
      | [_] => rfl
      | a :: b :: rest => exact hstep used h (a :: b :: rest)

/-- With memory to spare this is the build of `Basic`. -/
theorem tryBuildFromSorted_granted (separator : Option α → Option α) (copies : Nat)
    (tree : BPlusTree α ν) (pairs : List (α × ν)) :
    tryBuildFromSorted separator copies (fun _ => true) tree pairs =
      buildFromSorted separator tree pairs := by
  unfold tryBuildFromSorted buildFromSorted
  simp only [allocate_granted, if_true]
  have hlevels (order used : Nat) (level : List (Leaf α ν)) :
      tryBuildLevels separator copies (fun _ => true) order level.length used 0 level =
        buildLevels separator order level.length 0 level :=
    tryBuildLevels_granted separator copies order level.length used 0 level
  rewrite [hlevels]
  rfl

/-- A build that fails leaves every node alone. -/
theorem tryBuildFromSorted_failed {separator : Option α → Option α} {copies : Nat}
    {ok : Nat → Bool} {tree tree' : BPlusTree α ν} {pairs : List (α × ν)}
    (h : tryBuildFromSorted separator copies ok tree pairs = (tree', false)) :
    tree' = { tree with order := chooseOrderForCount pairs.length } := by
  unfold tryBuildFromSorted at h
  dsimp only at h
  split at h
  · split at h
    · cases h
    · exact (congrArg Prod.fst h).symm
  · split at h
    · exact (congrArg Prod.fst h).symm
    · split at h
      · exact (congrArg Prod.fst h).symm
      · split at h
        · exact (congrArg Prod.fst h).symm
        · cases h

/-! ## The order of a tree -/

theorem Chained.imp {β : Type} {P Q : Option α → Option α → β → Prop} :
    ∀ {lo hi : Option α} {ss : List α} {ns : List β}, Chained P lo hi ss ns →
      (∀ n ∈ ns, ∀ a b, P a b n → Q a b n) → Chained Q lo hi ss ns
  | lo, hi, [], [n], h, hPQ => hPQ n (by simp) lo hi h
  | _, _, [], [], h, _ => by simp [Chained] at h
  | _, _, [], _ :: _ :: _, h, _ => by simp [Chained] at h
  | _, _, _ :: _, [], h, _ => by simp [Chained] at h
  | lo, _, s :: _, n :: ns, h, hPQ =>
      ⟨h.1, h.2.1, hPQ n (by simp) lo (some s) h.2.2.1,
        Chained.imp h.2.2.2 fun m hm => hPQ m (List.mem_cons_of_mem _ hm)⟩

/-- Another bound on the keys of a node matters only for their number. -/
theorem Ordered.of_nodeKeys {maxKeys max' : Nat} : ∀ (h : Nat) {lo hi : Option α}
    {node : Node α ν h}, Ordered maxKeys h lo hi node →
      (∀ keys ∈ Bptree.nodeKeys h node, keys.length ≤ max') → Ordered max' h lo hi node
  | 0, _, _, leaf, hn, hkeys => by
      have hlen := hkeys ((Leaf.entries leaf).map Prod.fst) (by simp [Bptree.nodeKeys])
      rw [List.length_map] at hlen
      exact ⟨hn.1, hn.2.1, hlen⟩
  | h + 1, lo, hi, node, hn, hkeys => by
      refine ⟨hkeys _ (by simp [Bptree.nodeKeys]), hn.2.imp fun c hc a b hord => ?_⟩
      refine hord.of_nodeKeys h fun keys hk => hkeys keys ?_
      simp only [Bptree.nodeKeys, List.mem_cons, List.mem_flatMap]
      exact Or.inr ⟨c, hc, hk⟩

omit [LinearOrder α] in
theorem maxKeys_chooseOrder (tree : BPlusTree α ν) (count : Nat) :
    BPlusTree.maxKeys { tree with order := chooseOrderForCount count } + 1 =
      chooseOrderForCount count := by
  unfold BPlusTree.maxKeys chooseOrderForCount normalizeOrder
  dsimp only
  split_ifs <;> omega

/-- A tree keeps its invariant under the order for `count` pairs when no node holds
more keys than that order allows. -/
theorem ok_chooseOrder_iff {tree : BPlusTree α ν} (htree : tree.Ok) (count : Nat) :
    BPlusTree.Ok { tree with order := chooseOrderForCount count } ↔
      ∀ keys ∈ nodeKeys tree.height tree.root, keys.length < chooseOrderForCount count := by
  have hmax := maxKeys_chooseOrder tree count
  constructor
  · intro hok keys hkeys
    have hle := (hok.ordered.nodeKeys tree.height keys hkeys).2
    omega
  · intro hfit
    refine ⟨?_, htree.linked, htree.addrs, htree.fresh⟩
    refine htree.ordered.of_nodeKeys tree.height fun keys hkeys => ?_
    have hlt := hfit keys hkeys
    omega

end

/-! ## Later calls -/

/-- The calls that show what a tree holds. -/
inductive Call (α ν : Type)
  | insert (key : α) (rowIndex : ν)
  | delete (key : α)
  | search (key : α)

/-- A result code, or what a search finds. -/
inductive Answer (ν : Type)
  | code (rc : Int)
  | found (rowIndex : Option ν)
deriving DecidableEq

section

variable {α ν : Type}

/-- The answers to a sequence of calls; `none` when a call runs into a null pointer. -/
def answers {σ : Type} (perform : σ → Call α ν → Option (σ × Answer ν)) :
    σ → List (Call α ν) → Option (List (Answer ν))
  | _, [] => some []
  | s, call :: calls => do
    let (s, answer) ← perform s call
    let rest ← answers perform s calls
    some (answer :: rest)

variable [LinearOrder α]

/-- A call on the map that a tree stands for.  A key that is not admitted is neither
inserted nor deleted. -/
def Call.onMap (admits : α → Bool) (m : α → Option ν) : Call α ν → (α → Option ν) × Answer ν
  | .insert k v =>
    if admits k = false then (m, .code (-1))
    else if (m k).isSome then (m, .code 0) else (put m k (some v), .code 1)
  | .delete k =>
    if admits k = true ∧ (m k).isSome = true then (put m k none, .code 1) else (m, .code 0)
  | .search k => (m, .found (m k))

theorem answers_eq {admits : α → Bool}
    {perform : BPlusTree α ν → Call α ν → Option (BPlusTree α ν × Answer ν)}
    (hperform : ∀ {tree : BPlusTree α ν} {m : α → Option ν} (call : Call α ν), Holds tree m →
      ∃ tree', perform tree call = some (tree', (call.onMap admits m).2) ∧
        Holds tree' (call.onMap admits m).1) :
    ∀ {tree : BPlusTree α ν} {m : α → Option ν} (calls : List (Call α ν)), Holds tree m →
      answers perform tree calls = answers (fun m call => some (call.onMap admits m)) m calls
  | _, _, [], _ => rfl
  | tree, m, call :: calls, h => by
      obtain ⟨tree', hcall, h'⟩ := hperform call h
      have ih := answers_eq hperform calls h'
      simp only [answers, hcall, Option.bind_eq_bind, Option.bind_some, ih]

theorem Holds.tryInsertWith {separator : Separator α ν} (hsep : SeparatorOk separator)
    {allocs : LeafAllocs} {tree : BPlusTree α ν} {m : α → Option ν} (h : Holds tree m) (k : α)
    (v : ν) :
    ∃ tree', Bptree.tryInsertWith separator allocs (fun _ => true) tree k v =
        some (if (m k).isSome then 0 else 1, tree', []) ∧
      Holds tree' (if (m k).isSome then m else put m k (some v)) := by
  have hspec := h.insertWith hsep k v
  rw [tryInsertWith_granted hsep h.ok]
  cases hins : Bptree.insertWith separator tree k v with
  | none =>
      rw [hins] at hspec
      have hsome : (m k).isSome = true := hspec
      rw [if_pos hsome, if_pos hsome]
      exact ⟨tree, rfl, h⟩
  | some tree' =>
      rw [hins] at hspec
      have hnone : ¬ (m k).isSome = true := by simp [hspec.1]
      rw [if_neg hnone, if_neg hnone]
      exact ⟨tree', rfl, hspec.2⟩

/-- What is expected of a build that fails: no later call can tell. -/
structure Undisturbed (perform : BPlusTree α ν → Call α ν → Option (BPlusTree α ν × Answer ν))
    (tree tree' : BPlusTree α ν) : Prop where
  ok : tree'.Ok
  entries : tree'.toList = tree.toList
  later : ∀ calls, answers perform tree' calls = answers perform tree calls

theorem Holds.of_ok {tree : BPlusTree α ν} (h : tree.Ok) : Holds tree (mapOf tree.toList) where
  ok := h
  mem_iff := fun k v => (mapOf_eq_some h.sorted k v).symm

theorem undisturbed_iff {admits : α → Bool}
    {perform : BPlusTree α ν → Call α ν → Option (BPlusTree α ν × Answer ν)}
    (hperform : ∀ {tree : BPlusTree α ν} {m : α → Option ν} (call : Call α ν), Holds tree m →
      ∃ tree', perform tree call = some (tree', (call.onMap admits m).2) ∧
        Holds tree' (call.onMap admits m).1)
    {separator : Option α → Option α} {copies : Nat} {ok : Nat → Bool}
    {tree tree' : BPlusTree α ν} {pairs : List (α × ν)} (htree : tree.Ok)
    (h : tryBuildFromSorted separator copies ok tree pairs = (tree', false)) :
    Undisturbed perform tree tree' ↔
      ∀ keys ∈ nodeKeys tree.height tree.root,
        keys.length < chooseOrderForCount pairs.length := by
  obtain rfl := tryBuildFromSorted_failed h
  have hiff := ok_chooseOrder_iff htree pairs.length
  constructor
  · exact fun hsame => hiff.1 hsame.ok
  · intro hfit
    have hok := hiff.2 hfit
    refine ⟨hok, rfl, fun calls => ?_⟩
    have hholds' : Holds { tree with order := chooseOrderForCount pairs.length }
        (mapOf tree.toList) := Holds.of_ok hok
    rw [answers_eq hperform calls hholds', answers_eq hperform calls (Holds.of_ok htree)]

end

end MiniDbms.Bptree

namespace MiniDbms

open Bptree

variable {ν : Type}

/-- A call on the integer tree. -/
def bptreeCall (tree : BPlusTree Int ν) : Call Int ν → Option (BPlusTree Int ν × Answer ν)
  | .insert k v => (bptreeTryInsert (fun _ => true) tree k v).map fun r => (r.2.1, .code r.1)
  | .delete k =>
    match bptreeDelete tree k with
    | some tree' => some (tree', .code 1)
    | none => some (tree, .code 0)
  | .search k => some (tree, .found (search tree k))

/-- A call on the string tree. -/
def bptreeStringCall (tree : BPlusTree Bytes ν) :
    Call Bytes ν → Option (BPlusTree Bytes ν × Answer ν)
  | .insert k v =>
    (bptreeStringTryInsert (fun _ => true) tree k v).map fun r => (r.2.1, .code r.1)
  | .delete k =>
    match bptreeStringDelete tree k with
    | some tree' => some (tree', .code 1)
    | none => some (tree, .code 0)
  | .search k => some (tree, .found (search tree k))

/-- `bptree_build_from_sorted`. -/
def bptreeTryBuildFromSorted (ok : Nat → Bool) (tree : BPlusTree Int ν)
    (pairs : List (Int × ν)) : BPlusTree Int ν × Bool :=
  tryBuildFromSorted (fun first => some (first.getD 0)) 0 ok tree pairs

/-- `bptree_string_build_from_sorted`. -/
def bptreeStringTryBuildFromSorted (ok : Nat → Bool) (tree : BPlusTree Bytes ν)
    (pairs : List (Bytes × ν)) : BPlusTree Bytes ν × Bool :=
  tryBuildFromSorted id 1 ok tree pairs

theorem bptreeCall_holds {tree : BPlusTree Int ν} {m : Int → Option ν} (call : Call Int ν)
    (h : Holds tree m) :
    ∃ tree', bptreeCall tree call = some (tree', (call.onMap (fun _ => true) m).2) ∧
      Holds tree' (call.onMap (fun _ => true) m).1 := by
  cases call with
  | insert k v =>
      obtain ⟨tree', hins, h'⟩ := h.tryInsertWith firstOfRight_ok k v
      refine ⟨tree', ?_, ?_⟩
      · rw [bptreeCall, bptreeTryInsert, hins]
        simp only [Call.onMap, Bool.true_eq_false, if_false]
        split <;> rfl
      · simp only [Call.onMap, Bool.true_eq_false, if_false]
        split at h' <;> rename_i hk
        · rwa [if_pos hk]
        · rwa [if_neg hk]
  | delete k =>
      have hspec := h.delete k
      rw [bptreeCall, bptreeDelete]
      cases hdel : delete tree k with
      | none =>
          rw [hdel] at hspec
          have hnone : m k = none := hspec
          simp only [Call.onMap, hnone, Option.isSome_none, Bool.false_eq_true, and_false, if_false]
          exact ⟨tree, rfl, h⟩
      | some tree' =>
          rw [hdel] at hspec
          simp only [Call.onMap, hspec.1, and_self, if_true]
          exact ⟨tree', rfl, hspec.2⟩
  | search k =>
      refine ⟨tree, ?_, h⟩
      rw [bptreeCall, h.search_eq]
      rfl

/-- The empty string is no key for the string tree's updates. -/
theorem bptreeStringCall_holds {tree : BPlusTree Bytes ν} {m : Bytes → Option ν}
    (call : Call Bytes ν) (h : Holds tree m) :
    ∃ tree', bptreeStringCall tree call =
        some (tree', (call.onMap (fun k => !k.isEmpty) m).2) ∧
      Holds tree' (call.onMap (fun k => !k.isEmpty) m).1 := by
  cases call with
  | insert k v =>
      by_cases hk : k = []
      · subst hk
        exact ⟨tree, rfl, h⟩
      · have hadmits : ¬ (!k.isEmpty) = false := by simpa using hk
        obtain ⟨tree', hins, h'⟩ := h.tryInsertWith chosenBeforeShift_ok k v
        refine ⟨tree', ?_, ?_⟩
        · rw [bptreeStringCall, bptreeStringTryInsert, if_neg hk, hins]
          simp only [Call.onMap, if_neg hadmits]
          split <;> rfl
        · simp only [Call.onMap, if_neg hadmits]
          split at h' <;> rename_i hsome
          · rwa [if_pos hsome]
          · rwa [if_neg hsome]
  | delete k =>
      by_cases hk : k = []
      · subst hk
        exact ⟨tree, rfl, h⟩
      · have hadmits : (!k.isEmpty) = true := by simpa using hk
        have hspec := h.delete k
        rw [bptreeStringCall, bptreeStringDelete, if_neg hk]
        cases hdel : delete tree k with
        | none =>
            rw [hdel] at hspec
            have hnone : m k = none := hspec
            simp only [Call.onMap, hnone, Option.isSome_none, Bool.false_eq_true, and_false,
              if_false]
            exact ⟨tree, rfl, h⟩
        | some tree' =>
            rw [hdel] at hspec
            simp only [Call.onMap, hspec.1, hadmits, and_self, if_true]
            exact ⟨tree', rfl, hspec.2⟩
  | search k =>
      refine ⟨tree, ?_, h⟩
      rw [bptreeStringCall, h.search_eq]
      rfl

/-- **A failed build.** Since the order has changed, the tree stays what it was exactly
when none of its nodes holds more keys than the order chosen for the number of pairs
allows. -/
theorem failedBuild_undisturbed_iff :
    (∀ (ok : Nat → Bool) (tree tree' : BPlusTree Int ν) (pairs : List (Int × ν)), tree.Ok →
      bptreeTryBuildFromSorted ok tree pairs = (tree', false) →
      (Undisturbed bptreeCall tree tree' ↔
        ∀ keys ∈ nodeKeys tree.height tree.root,
          keys.length < chooseOrderForCount pairs.length)) ∧
    ∀ (ok : Nat → Bool) (tree tree' : BPlusTree Bytes ν) (pairs : List (Bytes × ν)), tree.Ok →
      bptreeStringTryBuildFromSorted ok tree pairs = (tree', false) →
      (Undisturbed bptreeStringCall tree tree' ↔
        ∀ keys ∈ nodeKeys tree.height tree.root,
          keys.length < chooseOrderForCount pairs.length) := by
  constructor
  · intro ok tree tree' pairs htree h
    exact undisturbed_iff bptreeCall_holds htree h
  · intro ok tree tree' pairs htree h
    exact undisturbed_iff bptreeStringCall_holds htree h

theorem failedBuild_undisturbed_small :
    Undisturbed bptreeCall fullLeaf { fullLeaf with order := 8 } ∧
      Undisturbed bptreeStringCall (create Bytes) { create Bytes with order := 8 } :=
  ⟨(failedBuild_undisturbed_iff.1 (fun _ => true) fullLeaf _ [(2, 0), (1, 0)] fullLeaf_ok
      rfl).2 (by decide),
    (failedBuild_undisturbed_iff.2 (fun _ => false) (create Bytes) _ [([107], 0)]
      BPlusTree.create_ok rfl).2 (by decide)⟩

/-- A tree of the default order with one key more than order 8 has room for. -/
def eightKeys : BPlusTree Int where
  height := 0
  root := (⟨0, [(1, 1), (2, 2), (3, 3), (4, 4), (5, 5), (6, 6), (7, 7), (8, 8)], none⟩ :
    Leaf Int)
  order := 32
  fresh := 1

/-- Two pairs out of order are refused, and the next insertion runs into a null
pointer. -/
theorem refused_build_breaks_insert :
    eightKeys.Ok ∧ ∃ tree', bptreeTryBuildFromSorted (fun _ => true) eightKeys
        [(2, 0), (1, 0)] = (tree', false) ∧
      answers bptreeCall eightKeys [.insert 9 9] = some [.code 1] ∧
      answers bptreeCall tree' [.insert 9 9] = none ∧ ¬ tree'.Ok ∧
      ¬ Undisturbed bptreeCall eightKeys tree' := by
  have hok : eightKeys.Ok := by
    refine ⟨⟨?_, fun _ _ => ⟨above_none, below_none⟩, by decide⟩, rfl, by decide, by decide⟩
    change ([(1, 1), (2, 2), (3, 3), (4, 4), (5, 5), (6, 6), (7, 7), (8, 8)] :
      List (Int × Nat)).Pairwise fun a b => a.1 < b.1
    decide
  have hbefore : answers bptreeCall eightKeys [.insert 9 9] = some [.code 1] := by decide
  have hafter : answers bptreeCall { eightKeys with order := 8 } [.insert 9 9] = none := by
    decide
  refine ⟨hok, _, rfl, hbefore, hafter, fun hok' => ?_, fun hsame => ?_⟩
  · exact absurd hok'.ordered.2.2 (by decide)
  · have hlater := hsame.later [.insert 9 9]
    rw [hbefore] at hlater
    exact absurd (hafter.symm.trans hlater) (by simp)

end MiniDbms
