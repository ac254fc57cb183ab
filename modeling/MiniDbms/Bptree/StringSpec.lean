import MiniDbms.Bptree.StringTree

/-!
# Keys of the string tree have one owner

A string tree is laid out from a tree of key pointers (`pack`), and reading it
through the pointers gives a tree of strings (`erase`).  Every update of the slots
is the update of the generic tree on the strings, and the pointers in the slots are
at all times exactly the allocated key blocks, each in one slot.
-/

namespace MiniDbms.StringTree

open Bptree Slots

/-- The slots of a tree of key pointers. -/
def pack : (h : Nat) → Node KeyPtr Int h → StringNode h
  | 0, leaf => (⟨Leaf.addr leaf, (Leaf.entries leaf).length,
      pad maxOrder ((Leaf.entries leaf).map Prod.fst), (Leaf.entries leaf).map Prod.snd,
      Leaf.next leaf⟩ : StringLeaf)
  | h + 1, node => (⟨(InnerNode.keys node).length, pad maxOrder (InnerNode.keys node),
      (InnerNode.children node).map (pack h)⟩ : StringInner (StringNode h))

/-- The strings of a tree of key pointers. -/
def erase : (h : Nat) → Node KeyPtr Int h → Node Bytes Int h
  | 0, leaf => (⟨Leaf.addr leaf, (Leaf.entries leaf).map fun e => (e.1.text, e.2),
      Leaf.next leaf⟩ : Leaf Bytes Int)
  | h + 1, node => (⟨(InnerNode.keys node).map KeyPtr.text, (InnerNode.children node).map (erase h)⟩ :
      InnerNode Bytes (Node Bytes Int h))

/-- The pointers of a tree. -/
def ptrs : (h : Nat) → Node KeyPtr Int h → List KeyPtr
  | 0, leaf => (Leaf.entries leaf).map Prod.fst
  | h + 1, node => InnerNode.keys node ++ (InnerNode.children node).flatMap (ptrs h)

/-! ## Slots -/

@[simp] theorem liveKeys_pad (l : List KeyPtr) : liveKeys (pad maxOrder l) l.length = some l := by
  have hid : l.mapM (id ∘ some) = some (l.map id) := mapM_of_forall fun _ _ => rfl
  rw [liveKeys, take_length_pad, List.mapM_map, hid, List.map_id]

theorem filterMap_addr_pad (l : List KeyPtr) :
    ((pad maxOrder l).filterMap fun k => k.map KeyPtr.addr) = l.map KeyPtr.addr := by
  simp [pad, List.filterMap_replicate_of_none]

/-- No pointer hides behind the keys in use. -/
theorem slotAddrs_pack : ∀ (h : Nat) (node : Node KeyPtr Int h),
    slotAddrs h (pack h node) = (ptrs h node).map KeyPtr.addr
  | 0, leaf => filterMap_addr_pad _
  | h + 1, node => by
      simp only [slotAddrs, pack, ptrs, filterMap_addr_pad, List.map_append, List.map_flatMap,
        List.flatMap_map]
      congr 2
      funext c
      exact slotAddrs_pack h c

theorem readNode_pack {led : Ledger} : ∀ (h : Nat) (node : Node KeyPtr Int h),
    (∀ p ∈ ptrs h node, p.addr ∈ led.live) → readNode led h (pack h node) = some (erase h node)
  | 0, leaf, hlive => by
      have hall : ((Leaf.entries leaf).map Prod.fst).all (fun k => led.live.contains k.addr) := by
        simpa [ptrs] using hlive
      have hkeys : liveKeys (pad maxOrder ((Leaf.entries leaf).map Prod.fst))
          (Leaf.entries leaf).length = some ((Leaf.entries leaf).map Prod.fst) := by
        simpa using liveKeys_pad ((Leaf.entries leaf).map Prod.fst)
      simp only [readNode, pack, hkeys, Option.bind_eq_bind, Option.bind_some, hall, if_true]
      simp [erase, List.map_map, List.zip_map', Function.comp_def]
  | h + 1, node, hlive => by
      have hall : (InnerNode.keys node).all (fun k => led.live.contains k.addr) := by
        simp only [List.all_eq_true, List.contains_iff_mem]
        exact fun k hk => hlive k (List.mem_append_left _ hk)
      have hchildren : ((InnerNode.children node).map (pack h)).mapM (readNode led h) =
          some ((InnerNode.children node).map (erase h)) := by
        rw [List.mapM_map]
        refine mapM_of_forall fun c hc => readNode_pack h c fun p hp => ?_
        exact hlive p (List.mem_append_right _ (List.mem_flatMap.2 ⟨c, hc, hp⟩))
      simp only [readNode, pack, liveKeys_pad, hchildren, Option.bind_eq_bind, Option.bind_some,
        hall, if_true]
      rfl

/-! ## Insertion -/

/-- `new` are the blocks allocated between two states of the ledger. -/
def Allocated (led : Ledger) (new : List KeyPtr) (led' : Ledger) : Prop :=
  led'.live.Perm (new.map KeyPtr.addr ++ led.live) ∧ (led.Ok → led'.Ok)

theorem dupKey_allocated (text : Bytes) (led : Ledger) :
    Allocated led [(dupKey text led).1] (dupKey text led).2 :=
  ⟨List.Perm.refl _, Ledger.Ok.alloc⟩

theorem Allocated.trans {led led' led'' : Ledger} {new new' : List KeyPtr}
    (h : Allocated led new led') (h' : Allocated led' new' led'') :
    Allocated led (new' ++ new) led'' := by
  refine ⟨?_, fun hok => h'.2 (h.2 hok)⟩
  rw [List.map_append, List.append_assoc]
  exact h'.1.trans (h.1.append_left _)

/-- The slots after an insertion stand for the strings after it, and hold the
pointers `P`. -/
def Packed (h : Nat) (P : List KeyPtr) :
    Inserted (StringNode h) KeyPtr → Inserted (Node Bytes Int h) Bytes → Prop
  | .done s, .done t => ∃ node, s = pack h node ∧ t = erase h node ∧ (ptrs h node).Perm P
  | .split sl p sr, .split tl k tr => ∃ left right, sl = pack h left ∧ sr = pack h right ∧
      tl = erase h left ∧ tr = erase h right ∧ p.text = k ∧
      (p :: (ptrs h left ++ ptrs h right)).Perm P
  | _, _ => False

theorem Packed.cases {h : Nat} {P : List KeyPtr} {r : Inserted (StringNode h) KeyPtr}
    {g : Inserted (Node Bytes Int h) Bytes} (hp : Packed h P r g) :
    (∃ node, r = .done (pack h node) ∧ g = .done (erase h node) ∧ (ptrs h node).Perm P) ∨
      ∃ left right p, r = .split (pack h left) p (pack h right) ∧
        g = .split (erase h left) p.text (erase h right) ∧
          (p :: (ptrs h left ++ ptrs h right)).Perm P := by
  unfold Packed at hp
  split at hp
  · obtain ⟨node, rfl, rfl, hperm⟩ := hp
    exact Or.inl ⟨node, rfl, rfl, hperm⟩
  · obtain ⟨left, right, rfl, rfl, rfl, rfl, rfl, hperm⟩ := hp
    exact Or.inr ⟨left, right, _, rfl, rfl, hperm⟩
  · exact hp.elim

theorem Packed.perm {h : Nat} {P Q : List KeyPtr} {r : Inserted (StringNode h) KeyPtr}
    {g : Inserted (Node Bytes Int h) Bytes} (hp : Packed h P r g) (hPQ : P.Perm Q) :
    Packed h Q r g := by
  obtain ⟨node, rfl, rfl, hperm⟩ | ⟨left, right, p, rfl, rfl, hperm⟩ := hp.cases
  · exact ⟨node, rfl, rfl, hperm.trans hPQ⟩
  · exact ⟨left, right, rfl, rfl, rfl, rfl, rfl, hperm.trans hPQ⟩

/-- An insertion into the slots is the insertion into the strings, and the pointers
are the old ones and those of the new blocks. -/
def InsertSim (led led' : Ledger) (h : Nat) (node : Node KeyPtr Int h)
    (r : Inserted (StringNode h) KeyPtr) (g : Inserted (Node Bytes Int h) Bytes) : Prop :=
  (r = .duplicate ∧ g = .duplicate ∧ led' = led) ∨
    ∃ new, Allocated led new led' ∧ Packed h (new ++ ptrs h node) r g

theorem join_getElem?_pad {l : List KeyPtr} {j : Nat} (hj : j < l.length) :
    ((pad maxOrder l)[j]?).join = l[j]? := by
  rw [getElem?_pad, if_pos hj]
  rfl

theorem separatorText_pad {entries : List (KeyPtr × Int)} {i minLeafKeys : Nat} {key : Bytes}
    (hpos : 0 < minLeafKeys) (hlen : minLeafKeys < entries.length) :
    separatorText (pad maxOrder (entries.map Prod.fst)) i minLeafKeys key =
      some (chosenBeforeShift (entries.map fun e => (e.1.text, e.2)) i minLeafKeys key) := by
  have hat : ∀ j < entries.length,
      (((pad maxOrder (entries.map Prod.fst))[j]?).join).map KeyPtr.text =
        some ((((entries.map fun e => (e.1.text, e.2))[j]?).map Prod.fst).getD key) := by
    intro j hj
    rw [join_getElem?_pad (by simpa using hj)]
    simp [List.getElem?_eq_getElem hj]
  unfold separatorText chosenBeforeShift
  split_ifs with h₁ h₂
  · exact hat _ (by omega)
  · rfl
  · exact hat _ hlen

theorem Leaf.insert_sim {maxKeys fresh : Nat} (hmax : 2 ≤ maxKeys) (hfit : maxKeys < maxOrder)
    {leaf : Leaf KeyPtr Int} (hlen : leaf.entries.length ≤ maxKeys)
    (hs : Sorted (leaf.entries.map fun e => (e.1.text, e.2))) (key : Bytes) (rowIndex : Int)
    (led : Ledger) :
    ∃ r led', StringLeaf.insert maxKeys fresh (pack 0 leaf) key rowIndex led = some (r, led') ∧
      InsertSim led led' 0 leaf r
        (Leaf.insert chosenBeforeShift maxKeys fresh (erase 0 leaf) key rowIndex) := by
  obtain ⟨addr, E, next⟩ := leaf
  dsimp only at hlen hs
  have hkeys : liveKeys (pad maxOrder (E.map Prod.fst)) E.length = some (E.map Prod.fst) := by
    simpa using liveKeys_pad (E.map Prod.fst)
  have htexts : (E.map fun e => (e.1.text, e.2)).map Prod.fst = (E.map Prod.fst).map KeyPtr.text := by
    simp
  unfold StringLeaf.insert Leaf.insert
  simp only [pack, erase, hkeys, htexts, Option.bind_eq_bind, Option.bind_some]
  set i := lowerBound ((E.map Prod.fst).map KeyPtr.text) key with hi
  have hile : i ≤ E.length := by
    rw [hi, ← htexts, lowerBound_eq (List.pairwise_map.2 hs)]
    exact ((List.takeWhile_sublist _).length_le).trans (by simp)
  have hat : ((E.map Prod.fst)[i]?).map KeyPtr.text =
      ((E.map fun e => (e.1.text, e.2))[i]?).map Prod.fst := by
    simp [Function.comp_def]
  rw [hat]
  by_cases hdup : ((E.map fun e => (e.1.text, e.2))[i]?).map Prod.fst = some key
  · rw [if_pos hdup, if_pos hdup]
    exact ⟨_, _, rfl, Or.inl ⟨rfl, rfl, rfl⟩⟩
  · rw [if_neg hdup, if_neg hdup]
    -- the entries with the copied key
    set E' := E.take i ++ ((dupKey key led).1, rowIndex) :: E.drop i with hE'
    have hE'len : E'.length = E.length + 1 := by
      rw [hE', List.length_append, List.length_cons, List.length_take, List.length_drop]
      omega
    have hptrs : (memmove (pad maxOrder (E.map Prod.fst)) (i + 1) i (E.length - i)).set i
        (some (dupKey key led).1) = pad maxOrder (E'.map Prod.fst) := by
      have hroom : (E.map Prod.fst).length < maxOrder := by
        rw [List.length_map]
        omega
      have hins := pad_insert (by simpa using hile) hroom (dupKey key led).1
      rw [List.length_map] at hins
      rw [hins, hE']
      simp [List.map_take, List.map_drop]
    have hvalues : (E.map Prod.snd).take i ++ rowIndex :: (E.map Prod.snd).drop i =
        E'.map Prod.snd := by
      simp [hE', List.map_take, List.map_drop]
    have hstrings : (E.map fun e => (e.1.text, e.2)).take i ++ (key, rowIndex) ::
        (E.map fun e => (e.1.text, e.2)).drop i = E'.map fun e => (e.1.text, e.2) := by
      simp [hE', List.map_take, List.map_drop, dupKey]
    have hperm : (E'.map Prod.fst).Perm ((dupKey key led).1 :: E.map Prod.fst) := by
      have hmiddle : E'.Perm (((dupKey key led).1, rowIndex) :: (E.take i ++ E.drop i)) := by
        rw [hE']
        exact List.perm_middle
      rw [List.take_append_drop] at hmiddle
      exact hmiddle.map Prod.fst
    simp only [hptrs, hvalues, hstrings, List.length_map, hE'len]
    by_cases hfull : E.length = maxKeys
    · have hover : ¬ E.length + 1 ≤ maxKeys := by omega
      rw [if_pos hfull, if_neg hover,
        separatorText_pad (by omega) (by omega : maxKeys / 2 < E.length)]
      set m := maxKeys / 2
      set separator := chosenBeforeShift (E.map fun e => (e.1.text, e.2)) i m key
      have hm : m ≤ (E'.map Prod.fst).length := by
        rw [List.length_map, hE'len]
        omega
      have hroom : (E'.map Prod.fst).length ≤ maxOrder := by
        rw [List.length_map, hE'len]
        omega
      have hleft := pad_take hm hroom
      have hright : memcpyZeroed maxOrder _ _ _ = _ := pad_drop hm
      rw [List.length_map, hE'len] at hleft hright
      refine ⟨_, _, rfl, Or.inr ⟨[(dupKey separator (dupKey key led).2).1, (dupKey key led).1],
        (dupKey_allocated key led).trans (dupKey_allocated separator _),
        (⟨addr, E'.take m, some fresh⟩ : Leaf KeyPtr Int),
        (⟨fresh, E'.drop m, next⟩ : Leaf KeyPtr Int), ?_, ?_, ?_, ?_, rfl, ?_⟩⟩
      · have hcount : (E'.take m).length = m := List.length_take_of_le (by simpa using hm)
        simp only [pack, hleft, hcount, List.map_take]
        rfl
      · have hcount : (E'.drop m).length = E.length + 1 - m := by rw [List.length_drop, hE'len]
        simp only [pack, hright, hcount, List.map_drop]
        rfl
      · simp only [erase, List.map_take]
        rfl
      · simp only [erase, List.map_drop]
        rfl
      · have hall : (E'.take m).map Prod.fst ++ (E'.drop m).map Prod.fst = E'.map Prod.fst := by
          rw [← List.map_append, List.take_append_drop]
        simp only [ptrs, hall]
        exact hperm.cons _
    · have hroom : E.length + 1 ≤ maxKeys := by omega
      rw [if_neg hfull, if_pos hroom, if_pos hroom]
      refine ⟨_, _, rfl, Or.inr ⟨[(dupKey key led).1], dupKey_allocated key led,
        (⟨addr, E', next⟩ : Leaf KeyPtr Int), ?_, rfl, hperm⟩⟩
      simp only [pack, hE'len]
      rfl

/-- Moving the halves of a split child into its parent moves the promoted pointer
with them, and into one node only. -/
theorem InnerNode.absorb_sim {maxKeys h : Nat} (hmax : 2 ≤ maxKeys) (hfit : maxKeys < maxOrder)
    {node : InnerNode KeyPtr (Node KeyPtr Int h)} (hlen : node.keys.length ≤ maxKeys) {i : Nat}
    (hi : i ≤ node.keys.length) (left right : Node KeyPtr Int h) (p : KeyPtr) :
    ∃ r, StringInner.absorb maxKeys (pack (h + 1) node) i (pack h left) p (pack h right) =
        some r ∧
      Packed (h + 1) (p :: (node.keys ++ (node.children.take i ++ left :: right ::
          node.children.drop (i + 1)).flatMap (ptrs h))) r
        (InnerNode.absorb maxKeys (erase (h + 1) node) i (erase h left) p.text (erase h right)) := by
  obtain ⟨keys, children⟩ := node
  dsimp only at hlen hi ⊢
  set K := keys.take i ++ p :: keys.drop i with hK
  set C := children.take i ++ left :: right :: children.drop (i + 1) with hC
  have hKlen : K.length = keys.length + 1 := by
    rw [hK, List.length_append, List.length_cons, List.length_take, List.length_drop]
    omega
  have hslots : (memmove (pad maxOrder keys) (i + 1) i (keys.length - i)).set i (some p) =
      pad maxOrder K := pad_insert hi (by omega) p
  have hpacked : (children.map (pack h)).take i ++ pack h left :: pack h right ::
      (children.map (pack h)).drop (i + 1) = C.map (pack h) := by
    simp [hC, List.map_take, List.map_drop]
  have hstrings : (keys.map KeyPtr.text).take i ++ p.text :: (keys.map KeyPtr.text).drop i =
      K.map KeyPtr.text := by
    simp [hK, List.map_take, List.map_drop]
  have herased : (children.map (erase h)).take i ++ erase h left :: erase h right ::
      (children.map (erase h)).drop (i + 1) = C.map (erase h) := by
    simp [hC, List.map_take, List.map_drop]
  have hperm : K.Perm (p :: keys) := by
    have hmiddle : K.Perm (p :: (keys.take i ++ keys.drop i)) := by
      rw [hK]
      exact List.perm_middle
    rwa [List.take_append_drop] at hmiddle
  unfold StringInner.absorb InnerNode.absorb
  simp only [pack, erase, hslots, hpacked, hstrings, herased, List.length_map, hKlen]
  by_cases hfull : keys.length = maxKeys
  · have hover : ¬ keys.length + 1 ≤ maxKeys := by omega
    rw [if_pos hfull, if_neg hover]
    set m := (keys.length + 1) / 2
    have hm : m < K.length := by omega
    have hget : ((pad maxOrder K)[m]?).join = some K[m] := by
      rw [join_getElem?_pad hm, List.getElem?_eq_getElem hm]
    have hget' : (K.map KeyPtr.text)[m]? = some K[m].text := by
      rw [List.getElem?_map, List.getElem?_eq_getElem hm]
      rfl
    have hleft : memzero (pad maxOrder K) m (K.length - m) = _ := pad_take hm.le (by omega)
    have hright : memcpyZeroed maxOrder _ _ _ = _ := pad_drop (Nat.succ_le_of_lt hm)
    rw [hKlen] at hleft hright
    have hcount : keys.length + 1 - m - 1 + 1 = keys.length + 1 - m := by omega
    have hcount' : keys.length + 1 - m - 1 = keys.length + 1 - (m + 1) := by omega
    simp only [hget, hget', Option.bind_eq_bind, Option.bind_some]
    refine ⟨_, rfl, (⟨K.take m, C.take (m + 1)⟩ : InnerNode KeyPtr (Node KeyPtr Int h)),
      (⟨K.drop (m + 1), C.drop (m + 1)⟩ : InnerNode KeyPtr (Node KeyPtr Int h)), ?_, ?_, ?_, ?_, rfl, ?_⟩
    · have hlenL : (K.take m).length = m := List.length_take_of_le hm.le
      rw [hcount, hleft]
      simp only [pack, hlenL, List.map_take]
      rfl
    · have hlenR : (K.drop (m + 1)).length = keys.length + 1 - m - 1 := by
        rw [List.length_drop, hKlen]
        omega
      rw [← hcount'] at hright
      simp only [pack, hlenR, List.map_drop, hright]
      rfl
    · simp only [erase, List.map_take]
      rfl
    · simp only [erase, List.map_drop]
      rfl
    · -- the promoted pointer is between the two halves
      have hcut : K = K.take m ++ K[m] :: K.drop (m + 1) := by
        rw [← List.drop_eq_getElem_cons hm, List.take_append_drop]
      have hchildren : C.flatMap (ptrs h) =
          (C.take (m + 1)).flatMap (ptrs h) ++ (C.drop (m + 1)).flatMap (ptrs h) := by
        rw [← List.flatMap_append, List.take_append_drop]
      rw [List.perm_iff_count]
      intro a
      have hcount := hperm.count_eq a
      rw [hcut] at hcount
      simp only [ptrs, hchildren, List.count_append, List.count_cons] at hcount ⊢
      omega
  · have hroom : keys.length + 1 ≤ maxKeys := by omega
    rw [if_neg hfull, if_pos hroom, if_pos hroom]
    refine ⟨_, rfl, (⟨K, C⟩ : InnerNode KeyPtr (Node KeyPtr Int h)), ?_, rfl, ?_⟩
    · simp only [pack, hKlen]
      rfl
    · exact hperm.append_right _

theorem child_of_ordered {maxKeys h : Nat} {lo hi : Option Bytes}
    {node : InnerNode KeyPtr (Node KeyPtr Int h)}
    (hn : Ordered maxKeys (h + 1) lo hi (erase (h + 1) node)) {key : Bytes} (hlo : Above lo key)
    (hhi : Below hi key) :
    ∃ A c B a b, node.children = A ++ c :: B ∧
      A.length = upperBound (node.keys.map KeyPtr.text) key ∧ A.length ≤ node.keys.length ∧
      Ordered maxKeys h a b (erase h c) ∧ Above a key ∧ Below b key := by
  obtain ⟨A, c, B, a, b, hns, hlen, ha, hb, hc, -, -, -⟩ :=
    hn.2.route (Ordered.entries_bounds h) key hlo hhi
  change node.children.map (erase h) = A ++ c :: B at hns
  have hup : upperBound (node.keys.map KeyPtr.text) key = A.length := by
    have hsorted : (node.keys.map KeyPtr.text).Pairwise (· < ·) := hn.2.keys_sorted
    rw [upperBound_eq hsorted, hlen]
    rfl
  have hlen' : A.length ≤ node.keys.length := by
    rw [hlen]
    exact (List.takeWhile_sublist _).length_le.trans (List.length_map _).le
  obtain ⟨A₀, C₀, hnode, rfl, hC₀⟩ := List.map_eq_append_iff.1 hns
  obtain ⟨c₀, B₀, rfl, rfl, rfl⟩ := List.map_eq_cons_iff.1 hC₀
  rw [List.length_map] at hup hlen'
  exact ⟨A₀, c₀, B₀, a, b, hnode, hup.symm, hlen', hc, ha, hb⟩

/-- **Insertion into the slots** is insertion into the strings. -/
theorem stringInsertRecursive_sim {maxKeys : Nat} (fresh : Nat) (hmax : 2 ≤ maxKeys)
    (hfit : maxKeys < maxOrder) (key : Bytes) (rowIndex : Int) :
    ∀ (h : Nat) {lo hi : Option Bytes} {node : Node KeyPtr Int h} (led : Ledger),
      Ordered maxKeys h lo hi (erase h node) → Above lo key → Below hi key →
      ∃ r led', stringInsertRecursive maxKeys fresh key rowIndex h (pack h node) led =
          some (r, led') ∧
        InsertSim led led' h node r
          (insertRecursive chosenBeforeShift maxKeys fresh key rowIndex h (erase h node))
  | 0, _, _, leaf, led, hn, _, _ => by
      have hlen := hn.2.2
      rw [show Leaf.entries (erase 0 leaf) = (Leaf.entries leaf).map fun e => (e.1.text, e.2)
        from rfl, List.length_map] at hlen
      exact Leaf.insert_sim hmax hfit hlen hn.1 key rowIndex led
  | h + 1, lo, hi, ⟨keys, children⟩, led, hn, hlo, hhi => by
      obtain ⟨A, c, B, a, b, hns, hidx, hA, hc, ha, hb⟩ := child_of_ordered hn hlo hhi
      dsimp only at hns hidx hA
      have hlen : keys.length ≤ maxKeys := by
        have := hn.1
        rwa [show InnerNode.keys (erase (h + 1) (⟨keys, children⟩ : InnerNode KeyPtr (Node KeyPtr Int h))) =
          keys.map KeyPtr.text from rfl, List.length_map] at this
      obtain ⟨r, led', hins, hsim⟩ :=
        stringInsertRecursive_sim fresh hmax hfit key rowIndex h led hc ha hb
      have hslot : (children.map (pack h))[A.length]? = some (pack h c) := by simp [hns]
      have hstring : (children.map (erase h))[A.length]? = some (erase h c) := by simp [hns]
      simp only [stringInsertRecursive, insertRecursive, pack, erase, liveKeys_pad,
        Option.bind_eq_bind, Option.bind_some, ← hidx, hslot, hstring, hins]
      rcases hsim with ⟨rfl, hg, rfl⟩ | ⟨new, halloc, hpacked⟩
      · rw [hg]
        exact ⟨_, _, rfl, Or.inl ⟨rfl, rfl, rfl⟩⟩
      · generalize hgen : insertRecursive chosenBeforeShift maxKeys fresh key rowIndex h
          (erase h c) = g at hpacked ⊢
        obtain ⟨c', rfl, rfl, hperm⟩ | ⟨left, right, p, rfl, rfl, hperm⟩ := hpacked.cases
        · have hset : (children.map (pack h)).set A.length (pack h c') =
              (A ++ c' :: B).map (pack h) := by simp [hns]
          have hset' : (children.map (erase h)).set A.length (erase h c') =
              (A ++ c' :: B).map (erase h) := by simp [hns]
          refine ⟨_, _, rfl, Or.inr ⟨new, halloc,
            (⟨keys, A ++ c' :: B⟩ : InnerNode KeyPtr (Node KeyPtr Int h)), ?_, ?_, ?_⟩⟩
          · rw [hset]
            rfl
          · rw [hset']
            rfl
          · rw [List.perm_iff_count]
            intro x
            have hcount := hperm.count_eq x
            simp only [ptrs, hns, List.flatMap_append, List.flatMap_cons, List.count_append]
              at hcount ⊢
            omega
        · obtain ⟨r', habs, hpacked'⟩ :=
            @InnerNode.absorb_sim _ h hmax hfit ⟨keys, children⟩ hlen _ hA left right p
          have hchildren : children.take A.length ++ left :: right ::
              children.drop (A.length + 1) = A ++ left :: right :: B := by simp [hns]
          refine ⟨r', led', ?_, Or.inr ⟨new, halloc, hpacked'.perm ?_⟩⟩
          · simp only [pack] at habs
            dsimp only
            rw [habs]
            rfl
          · dsimp only
            rw [hchildren, List.perm_iff_count]
            intro x
            have hcount := hperm.count_eq x
            simp only [ptrs, hns, List.flatMap_append, List.flatMap_cons, List.count_append,
              List.count_cons] at hcount ⊢
            omega

/-! ## Whole trees -/

/-- The slots of `tree` stand for `t`, and the allocated key blocks are exactly the
pointers of the tree and `rest`. -/
def Owns (tree : BPlusStringTree) (led : Ledger) (rest : List Nat) (t : BPlusTree Bytes Int) :
    Prop :=
  ∃ h root order fresh, tree = ⟨h, pack h root, order, fresh⟩ ∧
    t = ⟨h, erase h root, order, fresh⟩ ∧ led.Ok ∧
    led.live.Perm ((ptrs h root).map KeyPtr.addr ++ rest)

theorem maxKeys_lt (tree : BPlusTree Bytes Int) : tree.maxKeys < maxOrder := by
  unfold BPlusTree.maxKeys normalizeOrder maxOrder
  split_ifs <;> omega

theorem Allocated.live {led led' : Ledger} {R : List Nat} {Q new P : List KeyPtr}
    (halloc : Allocated led new led') (hlive : led.live.Perm (Q.map KeyPtr.addr ++ R))
    (hP : P.Perm (new ++ Q)) : led'.live.Perm (P.map KeyPtr.addr ++ R) := by
  have h₁ : led'.live.Perm (new.map KeyPtr.addr ++ (Q.map KeyPtr.addr ++ R)) :=
    halloc.1.trans (hlive.append_left _)
  have h₂ := (hP.map KeyPtr.addr).append_right R
  rw [List.map_append, List.append_assoc] at h₂
  exact h₁.trans h₂.symm

theorem bptreeStringInsert_sim {tree : BPlusStringTree} {led : Ledger} {R : List Nat}
    {t : BPlusTree Bytes Int} (hown : Owns tree led R t) (hok : t.Ok) (key : Bytes)
    (rowIndex : Int) :
    ∃ tree' led' rc, bptreeStringInsert tree key rowIndex led = some (tree', led', rc) ∧
      ((key = [] ∧ rc = -1 ∧ tree' = tree ∧ led' = led) ∨
        (key ≠ [] ∧ insertWith chosenBeforeShift t key rowIndex = none ∧ rc = 0 ∧
          tree' = tree ∧ led' = led) ∨
        (key ≠ [] ∧ ∃ t', insertWith chosenBeforeShift t key rowIndex = some t' ∧ rc = 1 ∧
          Owns tree' led' R t')) := by
  by_cases hkey : key = []
  · exact ⟨tree, led, -1, by rw [bptreeStringInsert, if_pos hkey],
      Or.inl ⟨hkey, rfl, rfl, rfl⟩⟩
  · obtain ⟨h, root, order, fresh, rfl, rfl, hled, hlive⟩ := hown
    obtain ⟨r, led', hins, hsim⟩ := stringInsertRecursive_sim fresh
      (BPlusTree.two_le_maxKeys _) (maxKeys_lt _) key rowIndex h led hok.ordered above_none
      below_none
    rw [bptreeStringInsert, if_neg hkey]
    change stringInsertRecursive (BPlusStringTree.maxKeys ⟨h, pack h root, order, fresh⟩) fresh key
      rowIndex h (pack h root) led = some (r, led') at hins
    simp only [hins, Option.bind_eq_bind, Option.bind_some, insertWith]
    rcases hsim with ⟨rfl, hg, rfl⟩ | ⟨new, halloc, hpacked⟩
    · rw [hg]
      exact ⟨_, _, _, rfl, Or.inr (Or.inl ⟨hkey, rfl, rfl, rfl, rfl⟩)⟩
    · revert hpacked
      generalize insertRecursive chosenBeforeShift _ fresh key rowIndex h (erase h root) = g
      intro hpacked
      obtain ⟨root', rfl, rfl, hperm⟩ | ⟨left, right, p, rfl, rfl, hperm⟩ := hpacked.cases
      · exact ⟨_, _, _, rfl, Or.inr (Or.inr ⟨hkey, _, rfl, rfl, h, root', order, fresh + 1, rfl,
          rfl, halloc.2 hled, halloc.live hlive hperm⟩)⟩
      · refine ⟨_, _, _, rfl, Or.inr (Or.inr ⟨hkey, _, rfl, rfl, h + 1,
          (⟨[p], [left, right]⟩ : InnerNode KeyPtr (Node KeyPtr Int h)), order, fresh + 1, rfl,
          rfl, halloc.2 hled, halloc.live hlive ?_⟩)⟩
        simpa [ptrs] using hperm

end MiniDbms.StringTree
