import MiniDbms.Bptree.Spec

/-!
# Deletion

A key is taken out of its leaf.  Nodes keep their separators, so a leaf may run
empty; the invariant of the tree does not ask for more.
-/

namespace MiniDbms.Bptree

variable {α ν : Type} [LinearOrder α] {maxKeys : Nat} {key : α}

omit [LinearOrder α] in
/-- One leaf has got other entries. -/
def Rewritten (old new : List (Leaf α ν)) : Prop :=
  ∃ A leaf B E, old = A ++ leaf :: B ∧ new = A ++ (⟨leaf.addr, E, leaf.next⟩ : Leaf α ν) :: B

section Rewritten

omit [LinearOrder α]

variable {old new : List (Leaf α ν)}

theorem Rewritten.context (h : Rewritten old new) (A B : List (Leaf α ν)) :
    Rewritten (A ++ old ++ B) (A ++ new ++ B) := by
  obtain ⟨A', leaf, B', E, rfl, rfl⟩ := h
  exact ⟨A ++ A', leaf, B' ++ B, E, by simp, by simp⟩

theorem Rewritten.addrs (h : Rewritten old new) : new.map Leaf.addr = old.map Leaf.addr := by
  obtain ⟨A, leaf, B, E, rfl, rfl⟩ := h
  simp

theorem Rewritten.linked (h : Rewritten old new) (hl : Linked old) : Linked new := by
  obtain ⟨A, leaf, B, E, rfl, rfl⟩ := h
  have hsuf : leaf.next = (B.head?).map Leaf.addr ∧ (B = [] ∨ Linked B) :=
    linked_cons_iff.1 (linked_suffix hl)
  have hnew : Linked ((⟨leaf.addr, E, leaf.next⟩ : Leaf α ν) :: B) := linked_cons_iff.2 hsuf
  exact linked_append_cons hl hnew rfl

end Rewritten

theorem Splice.mem_old {rowIndex : ν} {old new : List (α × ν)} (h : Splice key rowIndex old new) :
    ∀ e ∈ old, e ∈ new := fun e he => (h.mem_iff e).2 (Or.inr he)

theorem Splice.sublist {rowIndex : ν} {old new : List (α × ν)} (h : Splice key rowIndex old new) :
    old.Sublist new := by
  obtain ⟨a, b, rfl, rfl, -, -⟩ := h
  exact List.Sublist.append_left (List.sublist_cons_self _ _) a

/-- What the two results of a deletion below a node mean. -/
def DeletedOk (maxKeys : Nat) (key : α) (lo hi : Option α) (h : Nat) (node : Node α ν h) :
    Option (Node α ν h) → Prop
  | none => ∀ v, (key, v) ∉ entries h node
  | some node' =>
    Ordered maxKeys h lo hi node' ∧ (∃ v, Splice key v (entries h node') (entries h node)) ∧
      Rewritten (leaves h node) (leaves h node')

theorem splice_eraseIdx {E : List (α × ν)} (hs : Sorted E) {v : ν}
    (hat : E[lowerBound (E.map Prod.fst) key]? = some (key, v)) :
    Splice key v (E.eraseIdx (lowerBound (E.map Prod.fst) key)) E := by
  obtain ⟨htake, -⟩ := lowerBound_cut hs key
  obtain ⟨hlt, hget⟩ := List.getElem?_eq_some_iff.1 hat
  generalize hi : lowerBound (E.map Prod.fst) key = i at htake hlt hget
  have hcut : E = E.take i ++ (key, v) :: E.drop (i + 1) := by
    rw [← hget, ← List.drop_eq_getElem_cons hlt, List.take_append_drop]
  refine ⟨E.take i, E.drop (i + 1), ?_, hcut, ?_, ?_⟩
  · rw [List.eraseIdx_eq_take_drop_succ]
  · intro e he
    rw [htake] at he
    simpa using List.mem_takeWhile_imp he
  · rw [Sorted, hcut, List.pairwise_append, List.pairwise_cons] at hs
    exact hs.2.1.1

theorem Leaf.delete_ok {lo hi : Option α} {leaf : Leaf α ν}
    (hleaf : Ordered maxKeys 0 lo hi leaf) :
    DeletedOk maxKeys key lo hi 0 leaf (leaf.delete key) := by
  obtain ⟨hs, hbounds, hlen⟩ := hleaf
  unfold Leaf.delete
  dsimp only
  by_cases hat : (leaf.entries[lowerBound (leaf.entries.map Prod.fst) key]?).map Prod.fst =
      some key
  · rw [if_pos hat]
    obtain ⟨⟨k, v⟩, he, rfl⟩ := Option.map_eq_some_iff.1 hat
    have hsplice := splice_eraseIdx hs he
    refine ⟨⟨?_, ?_, ?_⟩, ⟨v, hsplice⟩, [], leaf, [], _, rfl, rfl⟩
    · exact hs.sublist hsplice.sublist
    · exact fun e he => hbounds e (hsplice.mem_old e he)
    · exact hsplice.sublist.length_le.trans hlen
  · rw [if_neg hat]
    intro v
    exact Splice.not_mem (splice_at_lowerBound hs hat : Splice key v leaf.entries _) v

theorem deleteBelow_ok : ∀ (h : Nat) {lo hi : Option α} {node : Node α ν h},
    Ordered maxKeys h lo hi node → Above lo key → Below hi key →
      DeletedOk maxKeys key lo hi h node (deleteBelow key h node)
  | 0, _, _, _, hn, _, _ => Leaf.delete_ok hn
  | h + 1, lo, hi, node, hn, hlo, hhi => by
      obtain ⟨A, c, B, a, b, hns, hlen, ha, hb, hc, hA, hB, hctx⟩ :=
        hn.2.route (Ordered.entries_bounds h) key hlo hhi
      have hup : upperBound (InnerNode.keys node) key = A.length := by
        rw [upperBound_eq hn.2.keys_sorted, hlen]
      have hidx : (InnerNode.children node)[A.length]? = some c := by simp [hns]
      have hA' : ∀ e ∈ A.flatMap (entries h), e.1 < key := by
        intro e he
        obtain ⟨n, hn, he⟩ := List.mem_flatMap.1 he
        exact hA n hn e he
      have hB' : ∀ e ∈ B.flatMap (entries h), key < e.1 := by
        intro e he
        obtain ⟨n, hn, he⟩ := List.mem_flatMap.1 he
        exact hB n hn e he
      have hentries : entries (h + 1) node =
          A.flatMap (entries h) ++ entries h c ++ B.flatMap (entries h) := by
        simp [entries, hns]
      have ih := deleteBelow_ok h hc ha hb
      simp only [deleteBelow, hup, hidx]
      cases hres : deleteBelow key h c with
      | none =>
          rw [hres] at ih
          intro v hv
          rw [hentries, List.mem_append, List.mem_append] at hv
          rcases hv with (hv | hv) | hv
          · exact lt_irrefl _ (hA' _ hv)
          · exact ih v hv
          · exact lt_irrefl _ (hB' _ hv)
      | some c' =>
          rw [hres] at ih
          obtain ⟨hord, ⟨v, hsplice⟩, hrew⟩ := ih
          have hset : (InnerNode.children node).set A.length c' = A ++ [c'] ++ B := by simp [hns]
          have hchain : Chained (Ordered maxKeys h) lo hi (InnerNode.keys node) (A ++ [c'] ++ B) := by
            simpa using hctx [] [c'] hord
          change DeletedOk maxKeys key lo hi (h + 1) node (some
            (⟨InnerNode.keys node, (InnerNode.children node).set A.length c'⟩ : InnerNode α (Node α ν h)))
          rw [hset]
          refine ⟨⟨hn.1, hchain⟩, ⟨v, ?_⟩, ?_⟩
          · rw [hentries]
            simpa [entries] using hsplice.context hA' hB'
          · have hctx' := hrew.context (A.flatMap (leaves h)) (B.flatMap (leaves h))
            simpa [leaves, hns] using hctx'

open BPlusTree

/-- **Deletion.** An absent key is reported; otherwise exactly its entry goes. -/
theorem delete_spec {tree : BPlusTree α ν} (htree : tree.Ok) (key : α) :
    match delete tree key with
    | none => ∀ v, (key, v) ∉ tree.toList
    | some tree' => tree'.Ok ∧ ∃ v, Splice key v tree'.toList tree.toList := by
  have hspec : DeletedOk tree.maxKeys key none none tree.height tree.root
      (deleteBelow key tree.height tree.root) :=
    deleteBelow_ok tree.height htree.ordered above_none below_none
  unfold delete
  cases hres : deleteBelow key tree.height tree.root with
  | none =>
      rw [hres] at hspec
      exact hspec
  | some root =>
      rw [hres] at hspec
      obtain ⟨hord, hsplice, hrew⟩ := hspec
      refine ⟨⟨hord, hrew.linked htree.linked, ?_, ?_⟩, hsplice⟩
      · change ((leaves tree.height root).map Leaf.addr).Nodup
        rw [hrew.addrs]
        exact htree.addrs
      · intro l hl
        have hmem : l.addr ∈ (leaves tree.height tree.root).map Leaf.addr := by
          rw [← hrew.addrs]
          exact List.mem_map_of_mem hl
        obtain ⟨l', hl', haddr⟩ := List.mem_map.1 hmem
        exact haddr ▸ htree.fresh l' hl'

/-! ## Empty trees -/

theorem createWithOrder_ok (order : Int) : (createWithOrder α ν order).Ok where
  ordered := ⟨by simp [createWithOrder, create, Sorted], by simp [createWithOrder, create],
    by simp [createWithOrder, create]⟩
  linked := rfl
  addrs := by simp [createWithOrder, create, leaves]
  fresh := by simp [createWithOrder, create, leaves]

omit [LinearOrder α] in
@[simp] theorem toList_clear (tree : BPlusTree α ν) : (clear tree).toList = [] := rfl

theorem clear_ok (tree : BPlusTree α ν) : (clear tree).Ok where
  ordered := ⟨by simp [clear, Sorted], by simp [clear], by simp [clear]⟩
  linked := rfl
  addrs := by simp [clear, leaves]
  fresh := by simp [clear, leaves]

end MiniDbms.Bptree
