import MiniDbms.Bptree.StringSpec

/-!
# Keys that the string tree releases

A deletion releases one key block and destroying a node releases those below it.
The pointers of a tree are allocated, each held once, so no `free` goes wrong.
-/

namespace MiniDbms.StringTree

open Bptree Slots

/-! ## Deletion -/

/-- A deletion from the slots is the deletion from the strings, and the blocks left
are those of the pointers left. -/
def DeleteSim (R : List Nat) (led led' : Ledger) (h : Nat) :
    Option (StringNode h) → Option (Node Bytes Int h) → Prop
  | none, none => led' = led
  | some s, some t => ∃ node, s = pack h node ∧ t = erase h node ∧ led'.Ok ∧
      led'.live.Perm ((ptrs h node).map KeyPtr.addr ++ R)
  | _, _ => False

theorem Leaf.delete_sim {leaf : Leaf KeyPtr Int}
    (hlen : leaf.entries.length < maxOrder) (key : Bytes) {led : Ledger} (hled : led.Ok)
    {R : List Nat} (hlive : led.live.Perm ((ptrs 0 leaf).map KeyPtr.addr ++ R)) :
    ∃ r led', StringLeaf.delete (pack 0 leaf) key led = some (r, led') ∧
      DeleteSim R led led' 0 r (Leaf.delete (erase 0 leaf) key) := by
  obtain ⟨addr, E, next⟩ := leaf
  dsimp only at hlen
  have hkeys : liveKeys (pad maxOrder (E.map Prod.fst)) E.length = some (E.map Prod.fst) := by
    simpa using liveKeys_pad (E.map Prod.fst)
  have htexts : (E.map fun e => (e.1.text, e.2)).map Prod.fst =
      (E.map Prod.fst).map KeyPtr.text := by
    simp
  unfold StringLeaf.delete Leaf.delete
  simp only [pack, erase, hkeys, htexts, Option.bind_eq_bind, Option.bind_some]
  generalize lowerBound ((E.map Prod.fst).map KeyPtr.text) key = i
  cases hget : E[i]? with
  | none =>
      have hnone : (E.map Prod.fst)[i]? = none := by simp [List.getElem?_map, hget]
      have hnone' : ((E.map fun e => (e.1.text, e.2))[i]?).map Prod.fst ≠ some key := by
        simp [List.getElem?_map, hget]
      rw [hnone, if_neg hnone']
      exact ⟨_, _, rfl, rfl⟩
  | some e =>
      obtain ⟨k, v⟩ := e
      have hsome : (E.map Prod.fst)[i]? = some k := by simp [List.getElem?_map, hget]
      have hsome' : ((E.map fun e => (e.1.text, e.2))[i]?).map Prod.fst = some k.text := by
        simp [List.getElem?_map, hget]
      rw [hsome, hsome']
      dsimp only
      by_cases hkey : k.text = key
      · obtain ⟨A, B, rfl, rfl, -⟩ := split_at hget
        have hperm : led.live.Perm
            (k.addr :: (((A ++ B).map Prod.fst).map KeyPtr.addr ++ R)) := by
          refine hlive.trans ?_
          simp only [ptrs, List.map_append, List.map_cons, List.append_assoc, List.cons_append]
          exact List.perm_middle
        obtain ⟨led', hfree, hled', hlive'⟩ := Ledger.free_of_perm hled hperm
        have herase : (A ++ (k, v) :: B).eraseIdx A.length = A ++ B := by
          simp [List.eraseIdx_append_of_length_le]
        have hroom : ((A ++ (k, v) :: B).map Prod.fst).length ≤ maxOrder := by
          rw [List.length_map]
          exact hlen.le
        have hslots := pad_eraseIdx (i := A.length) (by simp) hroom
        rw [List.length_map, List.eraseIdx_map, herase] at hslots
        rw [if_pos hkey, if_pos (congrArg some hkey)]
        simp only [hfree, Option.bind_some]
        refine ⟨_, _, rfl, (⟨addr, A ++ B, next⟩ : Leaf KeyPtr Int), ?_, ?_, hled', hlive'⟩
        · have hcount : (A ++ B).length = (A ++ (k, v) :: B).length - 1 := by simp
          simp only [pack, hslots, List.eraseIdx_map, herase, hcount]
          rfl
        · simp only [erase, List.eraseIdx_map, herase]
          rfl
      · rw [if_neg hkey, if_neg fun h => hkey (Option.some.inj h)]
        exact ⟨_, _, rfl, rfl⟩

/-- **Deletion from the slots** is deletion from the strings. -/
theorem stringDeleteBelow_sim {maxKeys : Nat} (hfit : maxKeys < maxOrder) (key : Bytes) :
    ∀ (h : Nat) {lo hi : Option Bytes} {node : Node KeyPtr Int h} {led : Ledger} {R : List Nat},
      Ordered maxKeys h lo hi (erase h node) → Above lo key → Below hi key → led.Ok →
      led.live.Perm ((ptrs h node).map KeyPtr.addr ++ R) →
      ∃ r led', stringDeleteBelow key h (pack h node) led = some (r, led') ∧
        DeleteSim R led led' h r (deleteBelow key h (erase h node))
  | 0, _, _, leaf, led, R, hn, _, _, hled, hlive => by
      have hlen : (Leaf.entries leaf).length ≤ maxKeys := by
        have := hn.2.2
        rwa [show Leaf.entries (erase 0 leaf) = (Leaf.entries leaf).map fun e => (e.1.text, e.2)
          from rfl, List.length_map] at this
      exact Leaf.delete_sim (by omega) key hled hlive
  | h + 1, lo, hi, ⟨keys, children⟩, led, R, hn, hlo, hhi, hled, hlive => by
      obtain ⟨A, c, B, a, b, hns, hidx, -, hc, ha, hb⟩ := child_of_ordered hn hlo hhi
      dsimp only at hns hidx
      -- the pointers outside the child are the frame of the recursive call
      have hframe : led.live.Perm ((ptrs h c).map KeyPtr.addr ++
          ((keys ++ A.flatMap (ptrs h) ++ B.flatMap (ptrs h)).map KeyPtr.addr ++ R)) := by
        refine hlive.trans ?_
        rw [List.perm_iff_count]
        intro x
        simp only [ptrs, hns, List.map_append, List.flatMap_append, List.flatMap_cons,
          List.count_append]
        omega
      obtain ⟨r, led', hdel, hsim⟩ := stringDeleteBelow_sim hfit key h hc ha hb hled hframe
      have hslot : (children.map (pack h))[A.length]? = some (pack h c) := by simp [hns]
      have hstring : (children.map (erase h))[A.length]? = some (erase h c) := by simp [hns]
      simp only [stringDeleteBelow, deleteBelow, pack, erase, liveKeys_pad, Option.bind_eq_bind,
        Option.bind_some, ← hidx, hslot, hstring, hdel]
      revert hsim
      generalize deleteBelow key h (erase h c) = g
      intro hsim
      cases r with
      | none =>
          cases g with
          | none => exact ⟨_, _, rfl, hsim⟩
          | some t => exact hsim.elim
      | some s =>
          cases g with
          | none => exact hsim.elim
          | some t =>
              obtain ⟨c', hs, ht, hled', hlive'⟩ := hsim
              subst hs ht
              have hset : (children.map (pack h)).set A.length (pack h c') =
                  (A ++ c' :: B).map (pack h) := by simp [hns]
              have hset' : (children.map (erase h)).set A.length (erase h c') =
                  (A ++ c' :: B).map (erase h) := by simp [hns]
              refine ⟨_, _, rfl, (⟨keys, A ++ c' :: B⟩ : InnerNode KeyPtr (Node KeyPtr Int h)), ?_, ?_,
                hled', ?_⟩
              · rw [hset]
                rfl
              · dsimp only
                rw [hset']
                rfl
              · refine hlive'.trans ?_
                rw [List.perm_iff_count]
                intro x
                simp only [ptrs, List.map_append, List.flatMap_append, List.flatMap_cons,
                  List.count_append]
                omega

theorem bptreeStringDelete_sim {tree : BPlusStringTree} {led : Ledger} {R : List Nat}
    {t : BPlusTree Bytes Int} (hown : Owns tree led R t) (hok : t.Ok) (key : Bytes) :
    ∃ tree' led' rc, bptreeStringDelete tree key led = some (tree', led', rc) ∧
      (((key = [] ∨ delete t key = none) ∧ rc = 0 ∧ tree' = tree ∧ led' = led) ∨
        (key ≠ [] ∧ ∃ t', delete t key = some t' ∧ rc = 1 ∧ Owns tree' led' R t')) := by
  by_cases hkey : key = []
  · exact ⟨tree, led, 0, by rw [bptreeStringDelete, if_pos hkey],
      Or.inl ⟨Or.inl hkey, rfl, rfl, rfl⟩⟩
  · obtain ⟨h, root, order, fresh, rfl, rfl, hled, hlive⟩ := hown
    obtain ⟨r, led', hdel, hsim⟩ := stringDeleteBelow_sim (maxKeys_lt _) key h hok.ordered
      above_none below_none hled hlive
    rw [bptreeStringDelete, if_neg hkey]
    simp only [hdel, Option.bind_eq_bind, Option.bind_some, delete]
    revert hsim
    generalize deleteBelow key h (erase h root) = g
    intro hsim
    match r, g, hsim with
    | none, none, hsim =>
        exact ⟨_, _, _, rfl, Or.inl ⟨Or.inr rfl, rfl, rfl, hsim⟩⟩
    | some s, some u, ⟨root', hs, hu, hled', hlive'⟩ =>
        subst hs hu
        exact ⟨_, _, _, rfl, Or.inr ⟨hkey, _, rfl, rfl, h, root', order, fresh, rfl, rfl, hled',
          hlive'⟩⟩

/-! ## Destroying nodes -/

theorem freeKeys_spec : ∀ (keys : List KeyPtr) {led : Ledger} {R : List Nat}, led.Ok →
    led.live.Perm (keys.map KeyPtr.addr ++ R) →
      ∃ led', freeKeys keys led = some led' ∧ led'.Ok ∧ led'.live.Perm R
  | [], led, _, hled, hlive => ⟨led, rfl, hled, hlive⟩
  | k :: ks, led, R, hled, hlive => by
      obtain ⟨led₁, hfree, hled₁, hlive₁⟩ := Ledger.free_of_perm hled hlive
      obtain ⟨led', hrest, hled', hlive'⟩ := freeKeys_spec ks hled₁ hlive₁
      refine ⟨led', ?_, hled', hlive'⟩
      rw [freeKeys, hfree]
      exact hrest

/-- Destroying a node releases the pointers below it and nothing else. -/
theorem destroyStringNode_spec {maxKeys : Nat} :
    ∀ (h : Nat) {lo hi : Option Bytes} {node : Node KeyPtr Int h} {led : Ledger} {R : List Nat},
      Ordered maxKeys h lo hi (erase h node) → led.Ok →
      led.live.Perm ((ptrs h node).map KeyPtr.addr ++ R) →
      ∃ led', destroyStringNode h (pack h node) led = some led' ∧ led'.Ok ∧ led'.live.Perm R
  | 0, _, _, leaf, led, R, _, hled, hlive => by
      have hkeys : liveKeys (pad maxOrder ((Leaf.entries leaf).map Prod.fst))
          (Leaf.entries leaf).length = some ((Leaf.entries leaf).map Prod.fst) := by
        simpa using liveKeys_pad ((Leaf.entries leaf).map Prod.fst)
      simp only [destroyStringNode, pack, hkeys, Option.bind_eq_bind, Option.bind_some]
      exact freeKeys_spec _ hled hlive
  | h + 1, lo, hi, ⟨keys, children⟩, led, R, hn, hled, hlive => by
      have hchildren : children.length = keys.length + 1 := by
        have := hn.2.length_eq
        simpa [erase] using this
      simp only [ptrs, List.map_append, List.append_assoc] at hlive
      obtain ⟨led₁, hfree, hled₁, hlive₁⟩ := freeKeys_spec keys hled hlive
      have hall : (children.map (pack h)).take (keys.length + 1) = children.map (pack h) :=
        List.take_of_length_le (by simp [hchildren])
      simp only [destroyStringNode, pack, liveKeys_pad, Option.bind_eq_bind, Option.bind_some,
        hfree, hall]
      -- one child after the other
      have hord : ∀ c ∈ children, ∃ a b, Ordered maxKeys h a b (erase h c) := by
        intro c hc
        exact hn.2.all (erase h c) (List.mem_map_of_mem hc)
      clear hn hall hchildren hfree hlive
      induction children generalizing led₁ with
      | nil => exact ⟨led₁, rfl, hled₁, hlive₁⟩
      | cons c cs ih =>
          obtain ⟨a, b, hc⟩ := hord c List.mem_cons_self
          rw [List.flatMap_cons, List.map_append, List.append_assoc] at hlive₁
          obtain ⟨led₂, hdestroy, hled₂, hlive₂⟩ := destroyStringNode_spec h hc hled₁ hlive₁
          obtain ⟨led', hrest, hled', hlive'⟩ := ih led₂ hled₂ hlive₂ fun c' hc' =>
            hord c' (List.mem_cons_of_mem c hc')
          refine ⟨led', ?_, hled', hlive'⟩
          rw [List.map_cons, List.foldlM_cons, hdestroy]
          exact hrest

end MiniDbms.StringTree
