import MiniDbms.Bptree.Order

/-!
# The tree is an ordered map

`BPlusTree.Ok` is the invariant of a whole tree: the order of its nodes, and leaves
linked from left to right.  Insertion keeps it and adds one entry, `search` looks
an entry up and `rangeSearch` visits those of an interval.
-/

namespace MiniDbms.Bptree

variable {α ν : Type} [LinearOrder α] {maxKeys fresh : Nat} {rowIndex : ν} {key : α}

/-! ## One entry more -/

/-- `new` is `old` with an entry for `key` at its place. -/
def Splice (key : α) (rowIndex : ν) (old new : List (α × ν)) : Prop :=
  ∃ a b, old = a ++ b ∧ new = a ++ (key, rowIndex) :: b ∧
    (∀ e ∈ a, e.1 < key) ∧ (∀ e ∈ b, key < e.1)

theorem Splice.mem_iff {old new : List (α × ν)} (h : Splice key rowIndex old new)
    (e : α × ν) : e ∈ new ↔ e = (key, rowIndex) ∨ e ∈ old := by
  obtain ⟨a, b, rfl, rfl, -, -⟩ := h
  simp only [List.mem_append, List.mem_cons]
  tauto

theorem Splice.not_mem {old new : List (α × ν)} (h : Splice key rowIndex old new) (v : ν) :
    (key, v) ∉ old := by
  obtain ⟨a, b, rfl, rfl, ha, hb⟩ := h
  intro hmem
  rcases List.mem_append.1 hmem with hv | hv
  · exact lt_irrefl _ (ha _ hv)
  · exact lt_irrefl _ (hb _ hv)

theorem Splice.sorted {old new : List (α × ν)} (h : Splice key rowIndex old new)
    (hs : Sorted old) : Sorted new := by
  obtain ⟨a, b, rfl, rfl, ha, hb⟩ := h
  obtain ⟨hsa, hsb, hab⟩ := List.pairwise_append.1 hs
  refine List.pairwise_append.2 ⟨hsa, List.pairwise_cons.2 ⟨hb, hsb⟩, ?_⟩
  intro x hx y hy
  rcases List.mem_cons.1 hy with rfl | hy
  · exact ha x hx
  · exact hab x hx y hy

theorem Splice.context {old new A B : List (α × ν)} (h : Splice key rowIndex old new)
    (hA : ∀ e ∈ A, e.1 < key) (hB : ∀ e ∈ B, key < e.1) :
    Splice key rowIndex (A ++ old ++ B) (A ++ new ++ B) := by
  obtain ⟨a, b, rfl, rfl, ha, hb⟩ := h
  refine ⟨A ++ a, b ++ B, by simp, by simp, ?_, ?_⟩
  · intro e he
    exact (List.mem_append.1 he).elim (hA e) (ha e)
  · intro e he
    exact (List.mem_append.1 he).elim (hb e) (hB e)

theorem splice_bounds {lo hi : Option α} {old new : List (α × ν)}
    (h : Splice key rowIndex old new) (hlo : Above lo key) (hhi : Below hi key)
    (hold : ∀ e ∈ old, Above lo e.1 ∧ Below hi e.1) :
    ∀ e ∈ new, Above lo e.1 ∧ Below hi e.1 := by
  intro e he
  rcases (h.mem_iff e).1 he with rfl | he
  · exact ⟨hlo, hhi⟩
  · exact hold e he

/-! ## What an insertion does to the leaves -/

/-- The leaf an insertion reaches is replaced by itself with other entries, or by
two leaves of which the second is new and linked behind the first. -/
def Pieces (fresh : Nat) (leaf : Leaf α ν) (pieces : List (Leaf α ν)) : Prop :=
  (∃ E, pieces = [⟨leaf.addr, E, leaf.next⟩]) ∨
    ∃ E₁ E₂, pieces = [⟨leaf.addr, E₁, some fresh⟩, ⟨fresh, E₂, leaf.next⟩]

def Grown (fresh : Nat) (old new : List (Leaf α ν)) : Prop :=
  ∃ A leaf B pieces, old = A ++ leaf :: B ∧ new = A ++ pieces ++ B ∧ Pieces fresh leaf pieces

omit [LinearOrder α] in
theorem Grown.context {old new : List (Leaf α ν)} (h : Grown fresh old new) (A B : List (Leaf α ν)) :
    Grown fresh (A ++ old ++ B) (A ++ new ++ B) := by
  obtain ⟨A', leaf, B', pieces, rfl, rfl, hp⟩ := h
  exact ⟨A ++ A', leaf, B' ++ B, pieces, by simp, by simp, hp⟩

/-! ## Insertion -/

/-- A separator is the first key of the right half of the split leaf. -/
def SeparatorOk (separator : Separator α ν) : Prop :=
  ∀ (entries : List (α × ν)) (i minLeafKeys : Nat) (key : α) (rowIndex : ν),
    i ≤ entries.length → 0 < minLeafKeys → minLeafKeys ≤ entries.length →
      ((entries.take i ++ (key, rowIndex) :: entries.drop i)[minLeafKeys]?).map Prod.fst =
        some (separator entries i minLeafKeys key)

omit [LinearOrder α] in
theorem firstOfRight_ok : SeparatorOk (firstOfRight : Separator α ν) := by
  intro entries i m key rowIndex hi _ hm
  have hget : ((entries.take i ++ (key, rowIndex) :: entries.drop i)[m]?).map Prod.fst =
      ((entries.map Prod.fst).take i ++ key :: (entries.map Prod.fst).drop i)[m]? := by
    rw [← List.getElem?_map]
    simp [List.map_take, List.map_drop]
  have hlt : m < ((entries.map Prod.fst).take i ++ key :: (entries.map Prod.fst).drop i).length := by
    simp
    omega
  rw [hget]
  simp only [firstOfRight, List.getElem?_eq_getElem hlt, Option.getD_some]

omit [LinearOrder α] in
theorem chosenBeforeShift_ok : SeparatorOk (chosenBeforeShift : Separator α ν) := by
  intro entries i m key rowIndex hi hpos hm
  unfold chosenBeforeShift
  have hlen : (entries.take i).length = i := List.length_take_of_le hi
  by_cases hlt : i < m
  · -- the right half starts with an old entry, shifted by one
    obtain ⟨n, rfl⟩ : ∃ n, m = n + 1 := ⟨m - 1, by omega⟩
    rw [if_pos hlt, List.getElem?_append_right (by omega), hlen,
      show n + 1 - i = (n - i) + 1 by omega, List.getElem?_cons_succ, List.getElem?_drop,
      show i + (n - i) = n by omega, Nat.add_sub_cancel,
      List.getElem?_eq_getElem (by omega : n < entries.length)]
    rfl
  · rw [if_neg hlt]
    by_cases heq : i = m
    · rw [if_pos heq, List.getElem?_append_right (by omega), hlen, heq, Nat.sub_self]
      rfl
    · rw [if_neg heq, List.getElem?_append_left (by omega),
        List.getElem?_take_of_lt (by omega),
        List.getElem?_eq_getElem (by omega : m < entries.length)]
      rfl

/-- What the three results of an insertion below a node responsible for `[lo, hi)`
mean. -/
def InsertedOk (maxKeys fresh : Nat) (rowIndex : ν) (key : α) (lo hi : Option α) (h : Nat)
    (node : Node α ν h) : Inserted (Node α ν h) α → Prop
  | .duplicate => ∃ v, (key, v) ∈ entries h node
  | .done node' =>
    Ordered maxKeys h lo hi node' ∧
      Splice key rowIndex (entries h node) (entries h node') ∧
      Grown fresh (leaves h node) (leaves h node')
  | .split left k right =>
    Ordered maxKeys h lo (some k) left ∧ Ordered maxKeys h (some k) hi right ∧
      StrictlyAbove lo k ∧ Below hi k ∧
      Splice key rowIndex (entries h node) (entries h left ++ entries h right) ∧
      Grown fresh (leaves h node) (leaves h left ++ leaves h right)

theorem not_lt_of_mem_dropWhile : ∀ {E : List (α × ν)}, Sorted E →
    ∀ e ∈ E.dropWhile (fun e => decide (e.1 < key)), key ≤ e.1
  | [], _, e, he => by simp at he
  | d :: E, hs, e, he => by
      rw [Sorted, List.pairwise_cons] at hs
      by_cases hd : d.1 < key
      · rw [List.dropWhile_cons_of_pos (by simpa using hd)] at he
        exact not_lt_of_mem_dropWhile hs.2 e he
      · rw [List.dropWhile_cons_of_neg (by simpa using hd)] at he
        rcases List.mem_cons.1 he with rfl | he
        · exact le_of_not_gt hd
        · exact (le_of_not_gt hd).trans (hs.1 e he).le

theorem splice_at_lowerBound {E : List (α × ν)} (hs : Sorted E)
    (hnew : (E[lowerBound (E.map Prod.fst) key]?).map Prod.fst ≠ some key) :
    Splice key rowIndex E
      (E.take (lowerBound (E.map Prod.fst) key) ++ (key, rowIndex) ::
        E.drop (lowerBound (E.map Prod.fst) key)) := by
  obtain ⟨htake, hdrop⟩ := lowerBound_cut hs key
  refine ⟨_, _, (List.take_append_drop _ E).symm, rfl, ?_, ?_⟩
  · intro e he
    rw [htake] at he
    simpa using List.mem_takeWhile_imp he
  · intro e he
    have hle : key ≤ e.1 := not_lt_of_mem_dropWhile hs e (hdrop ▸ he)
    refine lt_of_le_of_ne hle fun heq => ?_
    -- only the first entry from the place on could hold the key itself
    obtain ⟨j, hj⟩ := List.mem_iff_getElem?.1 he
    rw [List.getElem?_drop] at hj
    cases j with
    | zero =>
        apply hnew
        rw [Nat.add_zero] at hj
        rw [hj, heq]
        rfl
    | succ j =>
        have hlt : lowerBound (E.map Prod.fst) key < E.length := by
          have := (List.getElem?_eq_some_iff.1 hj).1
          omega
        have hfirst : E[lowerBound (E.map Prod.fst) key] ∈
            E.drop (lowerBound (E.map Prod.fst) key) := by
          rw [List.drop_eq_getElem_cons hlt]
          exact List.mem_cons_self
        have hge := not_lt_of_mem_dropWhile hs _ (hdrop ▸ hfirst)
        have hjlt := (List.getElem?_eq_some_iff.1 hj).1
        have hord := List.pairwise_iff_getElem.1 hs _ _ hlt hjlt (by omega)
        rw [(List.getElem?_eq_some_iff.1 hj).2, ← heq] at hord
        exact lt_irrefl _ (lt_of_le_of_lt hge hord)

theorem Leaf.insert_ok {separator : Separator α ν} (hsep : SeparatorOk separator)
    (hmax : 2 ≤ maxKeys) {lo hi : Option α} {leaf : Leaf α ν}
    (hleaf : Ordered maxKeys 0 lo hi leaf) (hlo : Above lo key) (hhi : Below hi key) :
    InsertedOk maxKeys fresh rowIndex key lo hi 0 leaf
      (leaf.insert separator maxKeys fresh key rowIndex) := by
  obtain ⟨hs, hbounds, hlen⟩ := hleaf
  unfold Leaf.insert
  set i := lowerBound (leaf.entries.map Prod.fst) key with hi'
  dsimp only
  by_cases hdup : (leaf.entries[i]?).map Prod.fst = some key
  · rw [if_pos hdup]
    cases he : leaf.entries[i]? with
    | none => simp [he] at hdup
    | some e =>
        obtain ⟨k, v⟩ := e
        simp only [he, Option.map_some, Option.some.injEq] at hdup
        subst hdup
        exact ⟨v, List.mem_of_getElem? he⟩
  · rw [if_neg hdup]
    have hsplice : Splice key rowIndex leaf.entries
        (leaf.entries.take i ++ (key, rowIndex) :: leaf.entries.drop i) :=
      splice_at_lowerBound hs hdup
    have hlen' : (leaf.entries.take i ++ (key, rowIndex) :: leaf.entries.drop i).length =
        leaf.entries.length + 1 := by
      simp
      omega
    set E := leaf.entries.take i ++ (key, rowIndex) :: leaf.entries.drop i with hE
    have hsE : Sorted E := hsplice.sorted hs
    have hbE := splice_bounds hsplice hlo hhi hbounds
    by_cases hfit : E.length ≤ maxKeys
    · rw [if_pos hfit]
      exact ⟨⟨hsE, hbE, hfit⟩, hsplice, [], leaf, [], _, rfl, rfl, Or.inl ⟨E, rfl⟩⟩
    · rw [if_neg hfit]
      have hi_le : i ≤ leaf.entries.length := by
        rw [hi', lowerBound_eq (List.pairwise_map.2 hs)]
        exact ((List.takeWhile_sublist _).length_le).trans (by simp)
      have hm : maxKeys / 2 < E.length := by omega
      have hk := hsep leaf.entries i (maxKeys / 2) key rowIndex hi_le (by omega) (by omega)
      rw [← hE, List.getElem?_eq_getElem hm] at hk
      simp only [Option.map_some, Option.some.injEq] at hk
      rw [← hk]
      -- the separator is an entry, so both halves lie on its sides
      have hsub : E.take (maxKeys / 2) ++ E.drop (maxKeys / 2) = E := List.take_append_drop _ _
      have hcut := List.pairwise_append.1 (hsub.symm ▸ hsE)
      have hdrop : E.drop (maxKeys / 2) = E[maxKeys / 2] :: E.drop (maxKeys / 2 + 1) :=
        List.drop_eq_getElem_cons hm
      have hkE : E[maxKeys / 2] ∈ E := List.getElem_mem hm
      have hfirst : E[0] ∈ E.take (maxKeys / 2) := by
        rw [List.mem_iff_getElem?]
        refine ⟨0, ?_⟩
        rw [List.getElem?_take_of_lt (by omega), List.getElem?_eq_getElem (by omega)]
      refine ⟨⟨hcut.1, ?_, ?_⟩, ⟨hcut.2.1, ?_, ?_⟩, ?_, (hbE _ hkE).2, ?_, ?_⟩
      · intro e he
        refine ⟨(hbE e (List.mem_of_mem_take he)).1, below_some.2 ?_⟩
        exact hcut.2.2 e he _ (by rw [hdrop]; exact List.mem_cons_self)
      · simp
        omega
      · intro e he
        refine ⟨above_some.2 ?_, (hbE e (List.mem_of_mem_drop he)).2⟩
        rw [hdrop] at he
        rcases List.mem_cons.1 he with rfl | he
        · exact le_refl _
        · have := hcut.2.1
          rw [hdrop, List.pairwise_cons] at this
          exact (this.1 e he).le
      · simp
        omega
      · intro l hl
        have h0 := (hbE _ (List.mem_of_mem_take hfirst)).1 l hl
        exact lt_of_le_of_lt h0 (hcut.2.2 _ hfirst _ (by rw [hdrop]; exact List.mem_cons_self))
      · change Splice key rowIndex leaf.entries (E.take (maxKeys / 2) ++ E.drop (maxKeys / 2))
        rw [hsub]
        exact hsplice
      · exact ⟨[], leaf, [], _, rfl, rfl, Or.inr ⟨_, _, rfl⟩⟩

/-- A split child is put back into its parent; `hctx` says what the parent accepts
in the place of the child. -/
theorem InnerNode.absorb_ok {h : Nat} (hmax : 2 ≤ maxKeys) {lo hi a b : Option α}
    {node : InnerNode α (Node α ν h)} {A B : List (Node α ν h)} {c left right : Node α ν h} {k : α}
    (hlen : node.keys.length ≤ maxKeys)
    (hchildren : node.children = A ++ c :: B) (hA : A.length ≤ node.keys.length)
    (hleft : Ordered maxKeys h a (some k) left) (hright : Ordered maxKeys h (some k) b right)
    (ha : StrictlyAbove a k) (hb : Below b k)
    (hctx : ∀ ts ms, Chained (Ordered maxKeys h) a b ts ms →
      Chained (Ordered maxKeys h) lo hi
        (node.keys.take A.length ++ ts ++ node.keys.drop A.length) (A ++ ms ++ B)) :
    match node.absorb maxKeys A.length left k right with
    | .duplicate => False
    | .done node' => Ordered maxKeys (h + 1) lo hi node' ∧
        node'.children = A ++ [left, right] ++ B
    | .split l m r => Ordered maxKeys (h + 1) lo (some m) l ∧
        Ordered maxKeys (h + 1) (some m) hi r ∧ StrictlyAbove lo m ∧ Below hi m ∧
        l.children ++ r.children = A ++ [left, right] ++ B := by
  have hchain := hctx [k] [left, right] ⟨ha, hb, hleft, hright⟩
  have hcs : node.children.take A.length ++ left :: right :: node.children.drop (A.length + 1) =
      A ++ [left, right] ++ B := by
    rw [hchildren]
    simp
  have hks : node.keys.take A.length ++ [k] ++ node.keys.drop A.length =
      node.keys.take A.length ++ k :: node.keys.drop A.length := by simp
  rw [hks] at hchain
  have hklen : (node.keys.take A.length ++ k :: node.keys.drop A.length).length =
      node.keys.length + 1 := by
    simp
    omega
  unfold InnerNode.absorb
  rw [hcs]
  set ks := node.keys.take A.length ++ k :: node.keys.drop A.length
  dsimp only
  by_cases hfit : ks.length ≤ maxKeys
  · rw [if_pos hfit]
    exact ⟨⟨hfit, hchain⟩, rfl⟩
  · rw [if_neg hfit]
    have hsplit : ks.length / 2 < ks.length := by omega
    rw [List.getElem?_eq_getElem hsplit]
    dsimp only
    have hdecomp : ks = ks.take (ks.length / 2) ++ ks[ks.length / 2] ::
        ks.drop (ks.length / 2 + 1) := by
      rw [← List.drop_eq_getElem_cons hsplit, List.take_append_drop]
    have htake : (ks.take (ks.length / 2)).length = ks.length / 2 :=
      List.length_take_of_le hsplit.le
    rw [hdecomp] at hchain
    obtain ⟨hl, hr, hlo, hhi⟩ := hchain.cut
    rw [htake] at hl hr
    refine ⟨⟨?_, hl⟩, ⟨?_, hr⟩, hlo, hhi, List.take_append_drop _ _⟩
    · rw [htake]
      omega
    · rw [List.length_drop]
      omega

theorem insertRecursive_ok {separator : Separator α ν} (hsep : SeparatorOk separator)
    (hmax : 2 ≤ maxKeys) : ∀ (h : Nat) {lo hi : Option α} {node : Node α ν h},
    Ordered maxKeys h lo hi node → Above lo key → Below hi key →
      InsertedOk maxKeys fresh rowIndex key lo hi h node
        (insertRecursive separator maxKeys fresh key rowIndex h node)
  | 0, _, _, _, hn, hlo, hhi => Leaf.insert_ok hsep hmax hn hlo hhi
  | h + 1, lo, hi, node, hn, hlo, hhi => by
      obtain ⟨A, c, B, a, b, hns, hlen, ha, hb, hc, hA, hB, hctx⟩ :=
        hn.2.route (Ordered.entries_bounds h) key hlo hhi
      have hup : upperBound (InnerNode.keys node) key = A.length := by
        rw [upperBound_eq hn.2.keys_sorted, hlen]
      have hidx : (InnerNode.children node)[A.length]? = some c := by simp [hns]
      have hAlen : A.length ≤ (InnerNode.keys node).length := by
        rw [hlen]
        exact (List.takeWhile_sublist _).length_le
      have hA' : ∀ e ∈ A.flatMap (entries h), e.1 < key := by
        intro e he
        obtain ⟨n, hn, he⟩ := List.mem_flatMap.1 he
        exact hA n hn e he
      have hB' : ∀ e ∈ B.flatMap (entries h), key < e.1 := by
        intro e he
        obtain ⟨n, hn, he⟩ := List.mem_flatMap.1 he
        exact hB n hn e he
      have hentries : entries (h + 1) node =
          A.flatMap (entries h) ++ entries h c ++ B.flatMap (entries h) := by
        simp [entries, hns]
      have hleaves : leaves (h + 1) node =
          A.flatMap (leaves h) ++ leaves h c ++ B.flatMap (leaves h) := by
        simp [leaves, hns]
      have ih := insertRecursive_ok hsep hmax h hc ha hb
      simp only [insertRecursive, hup, hidx]
      cases hres : insertRecursive separator maxKeys fresh key rowIndex h c with
      | duplicate =>
          rw [hres] at ih
          obtain ⟨v, hv⟩ := ih
          refine ⟨v, ?_⟩
          rw [hentries]
          simp [hv]
      | done c' =>
          rw [hres] at ih
          obtain ⟨hord, hsplice, hgrown⟩ := ih
          have hset : (InnerNode.children node).set A.length c' = A ++ [c'] ++ B := by simp [hns]
          have hchain : Chained (Ordered maxKeys h) lo hi (InnerNode.keys node) (A ++ [c'] ++ B) := by
            simpa using hctx [] [c'] hord
          refine ⟨⟨hn.1, ?_⟩, ?_, ?_⟩
          · rw [hset]
            exact hchain
          · have hnew : entries (h + 1) (⟨InnerNode.keys node, (InnerNode.children node).set A.length c'⟩ :
                InnerNode α (Node α ν h)) =
                A.flatMap (entries h) ++ entries h c' ++ B.flatMap (entries h) := by
              rw [hset]
              simp [entries]
            rw [hentries, hnew]
            exact hsplice.context hA' hB'
          · have hnew : leaves (h + 1) (⟨InnerNode.keys node, (InnerNode.children node).set A.length c'⟩ :
                InnerNode α (Node α ν h)) =
                A.flatMap (leaves h) ++ leaves h c' ++ B.flatMap (leaves h) := by
              rw [hset]
              simp [leaves]
            rw [hleaves, hnew]
            exact hgrown.context _ _
      | split left k right =>
          rw [hres] at ih
          obtain ⟨hleft, hright, hak, hbk, hsplice, hgrown⟩ := ih
          have habs := InnerNode.absorb_ok hmax hn.1 hns hAlen hleft hright hak hbk hctx
          have hsp := hsplice.context hA' hB'
          have hgr := hgrown.context (A.flatMap (leaves h)) (B.flatMap (leaves h))
          rw [← hentries] at hsp
          rw [← hleaves] at hgr
          dsimp only
          cases hab : InnerNode.absorb maxKeys (node : InnerNode α (Node α ν h)) A.length left k right with
          | duplicate => simp [hab] at habs
          | done node' =>
              rw [hab] at habs
              refine ⟨habs.1, ?_, ?_⟩
              · have : entries (h + 1) node' = A.flatMap (entries h) ++
                    (entries h left ++ entries h right) ++ B.flatMap (entries h) := by
                  change (InnerNode.children node').flatMap (entries h) = _
                  rw [habs.2]
                  simp
                rw [this]
                exact hsp
              · have : leaves (h + 1) node' = A.flatMap (leaves h) ++
                    (leaves h left ++ leaves h right) ++ B.flatMap (leaves h) := by
                  change (InnerNode.children node').flatMap (leaves h) = _
                  rw [habs.2]
                  simp
                rw [this]
                exact hgr
          | split l m r =>
              rw [hab] at habs
              obtain ⟨hl, hr, hlo', hhi', hcat⟩ := habs
              refine ⟨hl, hr, hlo', hhi', ?_, ?_⟩
              · have : entries (h + 1) l ++ entries (h + 1) r = A.flatMap (entries h) ++
                    (entries h left ++ entries h right) ++ B.flatMap (entries h) := by
                  change (InnerNode.children l).flatMap (entries h) ++
                    (InnerNode.children r).flatMap (entries h) = _
                  rw [← List.flatMap_append, hcat]
                  simp
                rw [this]
                exact hsp
              · have : leaves (h + 1) l ++ leaves (h + 1) r = A.flatMap (leaves h) ++
                    (leaves h left ++ leaves h right) ++ B.flatMap (leaves h) := by
                  change (InnerNode.children l).flatMap (leaves h) ++
                    (InnerNode.children r).flatMap (leaves h) = _
                  rw [← List.flatMap_append, hcat]
                  simp
                rw [this]
                exact hgr

/-! ## Linked leaves -/

/-- Every leaf points to the next one, and the last one to nothing. -/
def Linked {α ν : Type} : List (Leaf α ν) → Prop
  | [] => True
  | [l] => l.next = none
  | l :: l' :: ls => l.next = some l'.addr ∧ Linked (l' :: ls)

section Linked

variable {α ν : Type}

/-- Only the address of the first leaf matters to what stands in front of it. -/
theorem linked_append_cons {l l' : Leaf α ν} {B B' : List (Leaf α ν)} :
    ∀ {A : List (Leaf α ν)}, Linked (A ++ l :: B) → Linked (l' :: B') → l'.addr = l.addr →
      Linked (A ++ l' :: B')
  | [], _, h', _ => h'
  | [x], h, h', haddr => ⟨by rw [haddr]; exact h.1, h'⟩
  | x :: y :: A, h, h', haddr => ⟨h.1, linked_append_cons (A := y :: A) h.2 h' haddr⟩

theorem linked_suffix {l : Leaf α ν} {B : List (Leaf α ν)} :
    ∀ {A : List (Leaf α ν)}, Linked (A ++ l :: B) → Linked (l :: B)
  | [], h => h
  | [_], h => h.2
  | _ :: y :: A, h => linked_suffix (A := y :: A) h.2

theorem linked_cons_iff {l : Leaf α ν} {B : List (Leaf α ν)} :
    Linked (l :: B) ↔ l.next = (B.head?).map Leaf.addr ∧ (B = [] ∨ Linked B) := by
  cases B with
  | nil => simp [Linked]
  | cons l' B => simp [Linked]

theorem Grown.linked {fresh : Nat} {old new : List (Leaf α ν)} (h : Grown fresh old new)
    (hl : Linked old) : Linked new := by
  obtain ⟨A, leaf, B, pieces, rfl, rfl, hp⟩ := h
  have hsuf : leaf.next = (B.head?).map Leaf.addr ∧ (B = [] ∨ Linked B) :=
    linked_cons_iff.1 (linked_suffix hl)
  rw [List.append_assoc]
  rcases hp with ⟨E, rfl⟩ | ⟨E₁, E₂, rfl⟩
  · have hnew : Linked ((⟨leaf.addr, E, leaf.next⟩ : Leaf α ν) :: B) := linked_cons_iff.2 hsuf
    exact linked_append_cons hl hnew rfl
  · have hnew : Linked ((⟨fresh, E₂, leaf.next⟩ : Leaf α ν) :: B) := linked_cons_iff.2 hsuf
    have hpair : Linked ((⟨leaf.addr, E₁, some fresh⟩ : Leaf α ν) :: ⟨fresh, E₂, leaf.next⟩ :: B) :=
      ⟨rfl, hnew⟩
    exact linked_append_cons hl hpair rfl

theorem Grown.addrs {fresh : Nat} {old new : List (Leaf α ν)} (h : Grown fresh old new)
    (hnodup : (old.map Leaf.addr).Nodup) (hfresh : ∀ l ∈ old, l.addr < fresh) :
    (new.map Leaf.addr).Nodup ∧ ∀ l ∈ new, l.addr < fresh + 1 := by
  obtain ⟨A, leaf, B, pieces, rfl, rfl, hp⟩ := h
  have hlt : ∀ x ∈ (A ++ leaf :: B).map Leaf.addr, x < fresh := by
    intro x hx
    obtain ⟨l, hl, rfl⟩ := List.mem_map.1 hx
    exact hfresh l hl
  rcases hp with ⟨E, rfl⟩ | ⟨E₁, E₂, rfl⟩
  · constructor
    · simpa using hnodup
    · intro l hl
      have : l.addr ∈ (A ++ leaf :: B).map Leaf.addr := by
        simp only [List.mem_append, List.mem_singleton] at hl
        rcases hl with (hl | rfl) | hl
        · exact List.mem_map_of_mem (List.mem_append_left _ hl)
        · simp
        · exact List.mem_map_of_mem (List.mem_append_right _ (List.mem_cons_of_mem _ hl))
      exact (hlt _ this).trans (Nat.lt_succ_self _)
  · have hperm : ((A ++ [(⟨leaf.addr, E₁, some fresh⟩ : Leaf α ν), ⟨fresh, E₂, leaf.next⟩] ++ B).map
        Leaf.addr).Perm (fresh :: (A ++ leaf :: B).map Leaf.addr) := by
      simp only [List.map_append, List.map_cons, List.append_assoc]
      refine List.Perm.trans ?_ List.perm_middle
      exact List.Perm.append_left _ (List.Perm.swap _ _ _)
    constructor
    · rw [hperm.nodup_iff, List.nodup_cons]
      exact ⟨fun hmem => lt_irrefl _ (hlt _ hmem), hnodup⟩
    · intro l hl
      have hmem := hperm.mem_iff.1 (List.mem_map_of_mem hl)
      rcases List.mem_cons.1 hmem with hx | hx
      · omega
      · exact (hlt _ hx).trans (Nat.lt_succ_self _)

end Linked

/-! ## Whole trees -/

namespace BPlusTree

/-- The entries of a tree in key order. -/
def toList {α ν : Type} (tree : BPlusTree α ν) : List (α × ν) := entries tree.height tree.root

/-- The invariant of a tree. -/
structure Ok (tree : BPlusTree α ν) : Prop where
  ordered : Ordered tree.maxKeys tree.height none none tree.root
  linked : Linked (leaves tree.height tree.root)
  addrs : ((leaves tree.height tree.root).map Leaf.addr).Nodup
  fresh : ∀ l ∈ leaves tree.height tree.root, l.addr < tree.fresh

omit [LinearOrder α] in
theorem two_le_maxKeys (tree : BPlusTree α ν) : 2 ≤ tree.maxKeys := by
  unfold maxKeys normalizeOrder
  split_ifs <;> omega

theorem Ok.sorted {tree : BPlusTree α ν} (h : tree.Ok) : Sorted tree.toList := Ordered.sorted _ h.ordered

theorem create_ok : (create α ν).Ok where
  ordered := ⟨by simp [create, Sorted], by simp [create], by simp [create]⟩
  linked := rfl
  addrs := by simp [create, leaves]
  fresh := by simp [create, leaves]

omit [LinearOrder α] in
@[simp] theorem toList_create : (create α ν).toList = [] := rfl

end BPlusTree

open BPlusTree

/-- **Insertion.** A present key is refused; otherwise exactly one entry is added. -/
theorem insertWith_spec {separator : Separator α ν} (hsep : SeparatorOk separator) {tree : BPlusTree α ν}
    (htree : tree.Ok) (key : α) (rowIndex : ν) :
    match insertWith separator tree key rowIndex with
    | none => ∃ v, (key, v) ∈ tree.toList
    | some tree' => tree'.Ok ∧ Splice key rowIndex tree.toList tree'.toList := by
  have hspec : InsertedOk tree.maxKeys tree.fresh rowIndex key none none tree.height tree.root
      (insertRecursive separator tree.maxKeys tree.fresh key rowIndex tree.height tree.root) :=
    insertRecursive_ok hsep tree.two_le_maxKeys tree.height htree.ordered above_none below_none
  unfold insertWith
  cases hres : insertRecursive separator tree.maxKeys tree.fresh key rowIndex tree.height
      tree.root with
  | duplicate =>
      rw [hres] at hspec
      exact hspec
  | done node =>
      rw [hres] at hspec
      obtain ⟨hord, hsplice, hgrown⟩ := hspec
      have haddrs := hgrown.addrs htree.addrs htree.fresh
      exact ⟨⟨hord, hgrown.linked htree.linked, haddrs.1, haddrs.2⟩, hsplice⟩
  | split left k right =>
      rw [hres] at hspec
      obtain ⟨hleft, hright, -, -, hsplice, hgrown⟩ := hspec
      have haddrs := hgrown.addrs htree.addrs htree.fresh
      have hleaves : leaves (tree.height + 1)
          (⟨[k], [left, right]⟩ : InnerNode α (Node α ν tree.height)) =
          leaves tree.height left ++ leaves tree.height right := by simp [leaves]
      have hentries : entries (tree.height + 1)
          (⟨[k], [left, right]⟩ : InnerNode α (Node α ν tree.height)) =
          entries tree.height left ++ entries tree.height right := by simp [entries]
      refine ⟨⟨⟨?_, ?_⟩, ?_, ?_, ?_⟩, ?_⟩
      · have := tree.two_le_maxKeys
        exact Nat.le_trans (by simp) this
      · exact ⟨strictlyAbove_none, below_none, hleft, hright⟩
      · exact hleaves ▸ hgrown.linked htree.linked
      · exact hleaves ▸ haddrs.1
      · exact hleaves ▸ haddrs.2
      · unfold toList
        rw [hentries]
        exact hsplice

/-! ## Lookup -/

theorem Leaf.search_eq {leaf : Leaf α ν} (hs : Sorted leaf.entries) (key : α) (v : ν) :
    leaf.search key = some v ↔ (key, v) ∈ leaf.entries := by
  unfold Leaf.search
  set i := lowerBound (leaf.entries.map Prod.fst) key with hi
  constructor
  · intro h
    cases he : leaf.entries[i]? with
    | none => simp [he] at h
    | some e =>
        obtain ⟨k, r⟩ := e
        simp only [he, Option.ite_none_right_eq_some, Option.some.injEq] at h
        obtain ⟨rfl, rfl⟩ := h
        exact List.mem_of_getElem? he
  · intro hmem
    by_cases hnew : (leaf.entries[i]?).map Prod.fst = some key
    · cases he : leaf.entries[i]? with
      | none => simp [he] at hnew
      | some e =>
          obtain ⟨k, r⟩ := e
          simp only [he, Option.map_some, Option.some.injEq] at hnew
          subst hnew
          have hmem' : (k, r) ∈ leaf.entries := List.mem_of_getElem? he
          have : r = v := by
            by_contra hne
            have hinj := List.Pairwise.forall_of_forall_of_flip
              (R := fun a b : α × ν => a.1 = b.1 → a = b) (l := leaf.entries)
              (by simp) (hs.imp fun hab heq => absurd heq hab.ne)
              (hs.imp fun hab heq => absurd heq.symm hab.ne)
            exact hne (congrArg Prod.snd (hinj hmem' hmem rfl))
          simp [this]
    · have hsp : Splice key v leaf.entries _ := splice_at_lowerBound hs hnew
      exact absurd hmem (hsp.not_mem v)

/-- Search relies on the order alone, not on the links between leaves. -/
theorem Ordered.search_eq {tree : BPlusTree α ν}
    (htree : Ordered maxKeys tree.height none none tree.root) (key : α) (v : ν) :
    search tree key = some v ↔ (key, v) ∈ tree.toList := by
  obtain ⟨A, leaf, B, hfind, hleaves, hA, hB, hs⟩ :=
    findLeaf_spec key tree.height htree above_none below_none
  have hlist : tree.toList = A.flatMap Leaf.entries ++ (leaf.entries ++ B.flatMap Leaf.entries) := by
    unfold toList
    rw [entries_eq_leaves, hleaves, List.flatMap_append, List.flatMap_cons]
  unfold search
  rw [hfind, Option.bind_some, Leaf.search_eq hs, hlist]
  simp only [List.mem_append]
  constructor
  · exact fun h => Or.inr (Or.inl h)
  · rintro (h | h | h)
    · obtain ⟨l, hl, h⟩ := List.mem_flatMap.1 h
      exact absurd (hA l hl _ h) (lt_irrefl _)
    · exact h
    · obtain ⟨l, hl, h⟩ := List.mem_flatMap.1 h
      exact absurd (hB l hl _ h) (lt_irrefl _)

/-- **Search** finds exactly the entries of the tree. -/
theorem search_eq {tree : BPlusTree α ν} (htree : tree.Ok) (key : α) (v : ν) :
    search tree key = some v ↔ (key, v) ∈ tree.toList := htree.ordered.search_eq key v

theorem search_eq_none {tree : BPlusTree α ν} (htree : tree.Ok) (key : α) :
    search tree key = none ↔ ∀ v, (key, v) ∉ tree.toList := by
  constructor
  · intro h v hv
    rw [(search_eq htree key v).2 hv] at h
    exact absurd h (by simp)
  · intro h
    cases hv : search tree key with
    | none => rfl
    | some v => exact absurd ((search_eq htree key v).1 hv) (h v)

/-! ## Visits -/

section Visits

variable {σ : Type} {visitor : σ → α → ν → σ × Bool}

omit [LinearOrder α] in
theorem visitEntries_append (A B : List (α × ν)) (ctx : σ) :
    visitEntries visitor (A ++ B) ctx =
      match visitEntries visitor A ctx with
      | (ctx, true) => visitEntries visitor B ctx
      | (ctx, false) => (ctx, false) := by
  induction A generalizing ctx with
  | nil => rfl
  | cons e A ih =>
      obtain ⟨k, i⟩ := e
      simp only [List.cons_append, visitEntries]
      rcases visitor ctx k i with ⟨ctx', go⟩
      cases go with
      | true => exact ih ctx'
      | false => rfl

omit [LinearOrder α] in
theorem visitEntries_fold (f : σ → α → ν → σ) (L : List (α × ν)) (ctx : σ) :
    visitEntries (fun s k i => (f s k i, true)) L ctx =
      (L.foldl (fun s e => f s e.1 e.2) ctx, true) := by
  induction L generalizing ctx with
  | nil => rfl
  | cons e L ih => exact ih (f ctx e.1 e.2)

omit [LinearOrder α] in
theorem next_eq {all A ls : List (Leaf α ν)} {l : Leaf α ν} (hall : all = A ++ l :: ls)
    (haddrs : (all.map Leaf.addr).Nodup) (hl : Linked (l :: ls)) :
    (l.next.bind fun a => all.find? fun x => x.addr == a) = ls.head? := by
  rw [(linked_cons_iff.1 hl).1]
  cases ls with
  | nil => rfl
  | cons l' ls =>
      simp only [List.head?_cons, Option.map_some, Option.bind_some]
      rw [List.find?_eq_some_iff_append]
      refine ⟨by simp, A ++ [l], ls, by simp [hall], ?_⟩
      intro x hx
      -- another leaf of the same address would be a duplicate
      have hsplit : all.map Leaf.addr =
          (A ++ [l]).map Leaf.addr ++ l'.addr :: ls.map Leaf.addr := by simp [hall]
      rw [hsplit] at haddrs
      have := (List.nodup_append.1 haddrs).2.2 x.addr (List.mem_map_of_mem hx) l'.addr (by simp)
      simpa using this

omit [LinearOrder α] in
theorem visitChain_spec {all : List (Leaf α ν)} (haddrs : (all.map Leaf.addr).Nodup) :
    ∀ (fuel : Nat) (ls A : List (Leaf α ν)), all = A ++ ls → ls.length ≤ fuel →
      (ls = [] ∨ Linked ls) → ∀ ctx,
      visitChain visitor all fuel ls.head? ctx =
        visitEntries visitor (ls.flatMap Leaf.entries) ctx := by
  intro fuel
  induction fuel with
  | zero =>
      intro ls A _ hlen _ ctx
      have : ls = [] := List.length_eq_zero_iff.1 (Nat.le_zero.1 hlen)
      subst this
      rfl
  | succ fuel ih =>
      intro ls A hall hlen hlinked ctx
      cases ls with
      | nil => rfl
      | cons l ls =>
          have hl : Linked (l :: ls) := hlinked.resolve_left (by simp)
          rw [List.flatMap_cons, visitEntries_append]
          simp only [List.head?_cons, visitChain, next_eq hall haddrs hl]
          rcases visitEntries visitor l.entries ctx with ⟨ctx', go⟩
          cases go with
          | true =>
              exact ih ls (A ++ [l]) (by simp [hall]) (by simpa using hlen)
                (linked_cons_iff.1 hl).2 ctx'
          | false => rfl

variable (lo hi : α)

/-- The entries of an interval. -/
def between (L : List (α × ν)) : List (α × ν) :=
  L.filter fun e => decide (lo ≤ e.1) && decide (e.1 ≤ hi)

theorem between_of_above {L : List (α × ν)} (h : ∀ e ∈ L, hi < e.1) : between lo hi L = [] := by
  unfold between
  rw [List.filter_eq_nil_iff]
  intro e he
  simp [h e he]

theorem between_of_below {L : List (α × ν)} (h : ∀ e ∈ L, e.1 < lo) : between lo hi L = [] := by
  unfold between
  rw [List.filter_eq_nil_iff]
  intro e he
  simp [h e he]

theorem between_append (L M : List (α × ν)) :
    between lo hi (L ++ M) = between lo hi L ++ between lo hi M :=
  List.filter_append L M

/-- A leaf is visited, and if the loop stops there, either the visitor stopped it or
nothing behind it lies in the interval. -/
theorem visitLeaf_spec : ∀ (E M : List (α × ν)), Sorted (E ++ M) → ∀ ctx,
    match visitLeaf lo hi visitor E ctx with
    | .more ctx' => visitEntries visitor (between lo hi (E ++ M)) ctx =
        visitEntries visitor (between lo hi M) ctx'
    | .done ctx' rc => visitEntries visitor (between lo hi (E ++ M)) ctx = (ctx', rc)
  | [], M, _, ctx => rfl
  | (k, i) :: E, M, hs, ctx => by
      rw [List.cons_append] at hs
      have hs' := List.pairwise_cons.1 hs
      simp only [visitLeaf]
      by_cases hlo : k < lo
      · have hskip : between lo hi ((k, i) :: E ++ M) = between lo hi (E ++ M) := by
          exact List.filter_cons_of_neg (by simp [hlo])
        rw [if_pos hlo, hskip]
        exact visitLeaf_spec E M hs'.2 ctx
      · rw [if_neg hlo]
        by_cases hhi : hi < k
        · rw [if_pos hhi]
          have hnone : between lo hi ((k, i) :: E ++ M) = [] := by
            apply between_of_above
            intro e he
            rcases List.mem_cons.1 he with rfl | he
            · exact hhi
            · exact hhi.trans (hs'.1 e he)
          rw [hnone]
          rfl
        · rw [if_neg hhi]
          have hkeep : between lo hi ((k, i) :: E ++ M) = (k, i) :: between lo hi (E ++ M) :=
            List.filter_cons_of_pos (by simp [le_of_not_gt hlo, le_of_not_gt hhi])
          rw [hkeep, visitEntries]
          rcases visitor ctx k i with ⟨ctx', go⟩
          cases go with
          | true => exact visitLeaf_spec E M hs'.2 ctx'
          | false => rfl

theorem visitFrom_spec {all : List (Leaf α ν)} (haddrs : (all.map Leaf.addr).Nodup) :
    ∀ (fuel : Nat) (ls A : List (Leaf α ν)), all = A ++ ls → ls.length ≤ fuel →
      (ls = [] ∨ Linked ls) → Sorted (ls.flatMap Leaf.entries) → ∀ ctx,
      visitFrom lo hi visitor all fuel ls.head? ctx =
        visitEntries visitor (between lo hi (ls.flatMap Leaf.entries)) ctx := by
  intro fuel
  induction fuel with
  | zero =>
      intro ls A _ hlen _ _ ctx
      have : ls = [] := List.length_eq_zero_iff.1 (Nat.le_zero.1 hlen)
      subst this
      rfl
  | succ fuel ih =>
      intro ls A hall hlen hlinked hs ctx
      cases ls with
      | nil => rfl
      | cons l ls =>
          have hl : Linked (l :: ls) := hlinked.resolve_left (by simp)
          rw [List.flatMap_cons] at hs ⊢
          have hleaf := @visitLeaf_spec _ _ _ _ visitor lo hi l.entries _ hs ctx
          simp only [List.head?_cons, visitFrom, next_eq hall haddrs hl]
          cases hv : visitLeaf lo hi visitor l.entries ctx with
          | done ctx' rc =>
              rw [hv] at hleaf
              exact hleaf.symm
          | more ctx' =>
              rw [hv] at hleaf
              refine Eq.trans ?_ hleaf.symm
              exact ih ls (A ++ [l]) (by simp [hall]) (by simpa using hlen)
                (linked_cons_iff.1 hl).2 (List.pairwise_append.1 hs).2.1 ctx'

end Visits

/-- **Range search** hands the entries of the interval to the visitor in key order,
until it stops. -/
theorem rangeSearch_run {σ : Type} {tree : BPlusTree α ν} (htree : tree.Ok) (lo hi : α)
    (visitor : σ → α → ν → σ × Bool) (ctx : σ) :
    rangeSearch tree lo hi visitor ctx =
      visitEntries visitor (between lo hi tree.toList) ctx := by
  unfold rangeSearch
  by_cases hempty : hi < lo
  · have hnone : between lo hi tree.toList = [] := by
      refine List.filter_eq_nil_iff.2 fun e _ => ?_
      simp only [Bool.and_eq_true, decide_eq_true_eq, not_and, not_le]
      exact fun h => lt_of_lt_of_le hempty h
    rw [if_pos hempty, hnone]
    rfl
  · rw [if_neg hempty]
    obtain ⟨A, leaf, B, hfind, hleaves, hA, -, -⟩ :=
      findLeaf_spec lo tree.height htree.ordered above_none below_none
    have hsorted := htree.sorted
    have hlist : tree.toList = A.flatMap Leaf.entries ++ (leaf :: B).flatMap Leaf.entries := by
      unfold toList
      rw [entries_eq_leaves, hleaves, List.flatMap_append]
    have hlinked : Linked (leaf :: B) := linked_suffix (hleaves ▸ htree.linked)
    have hbefore : between lo hi (A.flatMap Leaf.entries) = [] := by
      apply between_of_below
      intro e he
      obtain ⟨l, hl, he⟩ := List.mem_flatMap.1 he
      exact hA l hl e he
    rw [hlist] at hsorted
    rw [hlist, between_append, hbefore, List.nil_append]
    dsimp only
    rw [hfind]
    exact visitFrom_spec lo hi htree.addrs _ (leaf :: B) A hleaves (by simp [hleaves])
      (Or.inr hlinked) (List.pairwise_append.1 hsorted).2.1 ctx

/-- What a search over `[lo, hi]` leaves in its context. -/
def visited {σ : Type} (lo hi : α) (f : σ → α → ν → σ) (L : List (α × ν)) (ctx : σ) : σ :=
  (L.filter fun e => decide (lo ≤ e.1) && decide (e.1 ≤ hi)).foldl (fun s e => f s e.1 e.2) ctx

theorem rangeSearch_eq {σ : Type} {tree : BPlusTree α ν} (htree : tree.Ok) (lo hi : α)
    (f : σ → α → ν → σ) (ctx : σ) :
    rangeSearch tree lo hi (fun s k i => (f s k i, true)) ctx =
      (visited lo hi f tree.toList ctx, true) := by
  rw [rangeSearch_run htree, visitEntries_fold]
  rfl

theorem Ordered.firstLeaf : ∀ (h : Nat) {lo hi : Option α} {node : Node α ν h},
    Ordered maxKeys h lo hi node → Bptree.firstLeaf h node = (leaves h node).head? ∧
      leaves h node ≠ []
  | 0, _, _, _, _ => ⟨rfl, by simp [leaves]⟩
  | h + 1, _, _, ⟨[], [c]⟩, hn => by
      have ih := Ordered.firstLeaf h hn.2
      simpa [Bptree.firstLeaf, leaves] using ih
  | h + 1, _, _, ⟨s :: ss, c :: cs⟩, hn => by
      have ih := Ordered.firstLeaf h hn.2.2.2.1
      constructor
      · simp only [Bptree.firstLeaf, leaves, List.flatMap_cons]
        rw [ih.1, List.head?_append_of_ne_nil _ ih.2]
      · simp [leaves, ih.2]

/-- **Visiting pairs** hands all entries to the visitor in key order, until it stops. -/
theorem visitPairs_run {σ : Type} {tree : BPlusTree α ν} (htree : tree.Ok)
    (visitor : σ → α → ν → σ × Bool) (ctx : σ) :
    visitPairs tree visitor ctx = visitEntries visitor tree.toList ctx := by
  unfold visitPairs toList
  dsimp only
  rw [(htree.ordered.firstLeaf _).1, entries_eq_leaves]
  exact visitChain_spec htree.addrs _ _ [] rfl (Nat.le_refl _) (Or.inr htree.linked) ctx

/-- A search does not look at the context it hands to the visitor. -/
theorem rangeSearch_map {σ τ : Type} (g : σ → τ) (f : σ → α → ν → σ) (f' : τ → α → ν → τ)
    (hf : ∀ s k i, f' (g s) k i = g (f s k i)) (tree : BPlusTree α ν) (lo hi : α) (ctx : σ) :
    rangeSearch tree lo hi (fun s k i => (f' s k i, true)) (g ctx) =
      (g (rangeSearch tree lo hi (fun s k i => (f s k i, true)) ctx).1,
        (rangeSearch tree lo hi (fun s k i => (f s k i, true)) ctx).2) := by
  have hleaf : ∀ (L : List (α × ν)) (ctx : σ),
      visitLeaf lo hi (fun s k i => (f' s k i, true)) L (g ctx) =
        match visitLeaf lo hi (fun s k i => (f s k i, true)) L ctx with
        | .more c => .more (g c)
        | .done c rc => .done (g c) rc := by
    intro L
    induction L with
    | nil => exact fun _ => rfl
    | cons e L ih =>
        intro ctx
        obtain ⟨k, i⟩ := e
        simp only [visitLeaf, hf]
        split
        · exact ih ctx
        · split
          · rfl
          · exact ih _
  have hfrom : ∀ (fuel : Nat) (all : List (Leaf α ν)) (leaf : Option (Leaf α ν)) (ctx : σ),
      visitFrom lo hi (fun s k i => (f' s k i, true)) all fuel leaf (g ctx) =
        (g (visitFrom lo hi (fun s k i => (f s k i, true)) all fuel leaf ctx).1,
          (visitFrom lo hi (fun s k i => (f s k i, true)) all fuel leaf ctx).2) := by
    intro fuel
    induction fuel with
    | zero =>
        intro all leaf ctx
        cases leaf <;> rfl
    | succ fuel ih =>
        intro all leaf ctx
        cases leaf with
        | none => rfl
        | some leaf =>
            rw [visitFrom, visitFrom, hleaf]
            cases visitLeaf lo hi (fun s k i => (f s k i, true)) leaf.entries ctx with
            | done c rc => rfl
            | more c => exact ih _ _ c
  unfold rangeSearch
  split
  · rfl
  · exact hfrom _ _ _ ctx

/-! ## Rows filed under keys -/

/-- The tree files row `i` under `k` exactly when `key i = some k`. -/
structure Indexes (tree : BPlusTree α) (key : Nat → Option α) : Prop where
  ok : tree.Ok
  mem_iff : ∀ k i, (k, i) ∈ tree.toList ↔ key i = some k

/-- What filing row `n` under `k` comes to: the key is taken, or the tree holds one
row more. -/
def Filed (key : Nat → Option α) (n : Nat) (k : α) : Option (BPlusTree α) → Prop
  | none => ∃ i, key i = some k
  | some tree => (∀ i, key i ≠ some k) ∧ Indexes tree fun i => if i = n then some k else key i

namespace Indexes

variable {tree : BPlusTree α} {rowKey : Nat → Option α}

theorem search_eq_some (h : Indexes tree rowKey) (k : α) (i : Nat) :
    search tree k = some i ↔ rowKey i = some k := by
  rw [search_eq h.ok, h.mem_iff]

theorem search_eq_none (h : Indexes tree rowKey) (k : α) :
    search tree k = none ↔ ∀ i, rowKey i ≠ some k := by
  rw [Bptree.search_eq_none h.ok]
  simp only [h.mem_iff, ne_eq]

theorem injective (h : Indexes tree rowKey) {i j : Nat} {k : α} (hi : rowKey i = some k)
    (hj : rowKey j = some k) : i = j := by
  have hi' := (h.search_eq_some k i).2 hi
  have hj' := (h.search_eq_some k j).2 hj
  rw [hi'] at hj'
  exact Option.some.inj hj'

theorem nodup_rows (h : Indexes tree rowKey) : (tree.toList.map Prod.snd).Nodup := by
  rw [List.Nodup, List.pairwise_map]
  refine h.ok.sorted.imp_of_mem ?_
  intro a b ha hb hlt heq
  have ha' := (h.mem_iff a.1 a.2).1 ha
  have hb' := (h.mem_iff b.1 b.2).1 hb
  rw [heq, hb'] at ha'
  exact hlt.ne (Option.some.inj ha').symm

theorem create_none : Indexes (create α) (fun _ => none) where
  ok := create_ok
  mem_iff := by simp

theorem insertWith {separator : Separator α Nat} (hsep : SeparatorOk separator)
    (h : Indexes tree rowKey) {n : Nat} (hn : rowKey n = none) (k : α) :
    Filed rowKey n k (Bptree.insertWith separator tree k n) := by
  have hspec := insertWith_spec hsep h.ok k n
  cases hins : Bptree.insertWith separator tree k n with
  | none =>
      rw [hins] at hspec
      obtain ⟨i, hi⟩ := hspec
      exact ⟨i, (h.mem_iff k i).1 hi⟩
  | some tree' =>
      rw [hins] at hspec
      obtain ⟨hok, hsplice⟩ := hspec
      refine ⟨fun i hi => hsplice.not_mem i ((h.mem_iff k i).2 hi), hok, fun k' i => ?_⟩
      rw [hsplice.mem_iff, h.mem_iff, Prod.mk.injEq]
      by_cases hin : i = n
      · subst hin
        simp [hn, eq_comm]
      · simp [hin]

/-! ### Two trees for the same rows -/

variable {tree' : BPlusTree α}

theorem search_congr (h : Indexes tree rowKey) (h' : Indexes tree' rowKey) (k : α) :
    search tree' k = search tree k := by
  refine Option.ext fun i => ?_
  rw [h.search_eq_some, h'.search_eq_some]

/-- The entries are determined by the rows. -/
theorem toList_congr (h : Indexes tree rowKey) (h' : Indexes tree' rowKey) :
    tree'.toList = tree.toList := by
  have hnodup : ∀ {t : BPlusTree α}, t.Ok → t.toList.Nodup := fun ht =>
    ht.sorted.imp fun hlt heq => hlt.ne (congrArg Prod.fst heq)
  have hperm : tree'.toList.Perm tree.toList := by
    rw [List.perm_ext_iff_of_nodup (hnodup h'.ok) (hnodup h.ok)]
    rintro ⟨k, i⟩
    rw [h.mem_iff, h'.mem_iff]
  refine hperm.eq_of_pairwise (fun a b _ _ hab hba => ?_) h'.ok.sorted h.ok.sorted
  exact absurd (lt_trans hab hba) (lt_irrefl _)

theorem rangeSearch_congr {σ : Type} (h : Indexes tree rowKey) (h' : Indexes tree' rowKey)
    (lo hi : α) (f : σ → α → Nat → σ) (ctx : σ) :
    rangeSearch tree' lo hi (fun s k i => (f s k i, true)) ctx =
      rangeSearch tree lo hi (fun s k i => (f s k i, true)) ctx := by
  rw [rangeSearch_eq h.ok, rangeSearch_eq h'.ok, h.toList_congr h']

end Indexes

end MiniDbms.Bptree
