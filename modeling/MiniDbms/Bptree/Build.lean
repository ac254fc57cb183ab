import MiniDbms.Bptree.Delete

/-!
# Bulk building

The bottom level holds the pairs in full leaves, and every round of the loop puts
parents over the pieces of a level.  A level is a chain of nodes cut at their first
keys; a level of one node is a tree.
-/

namespace MiniDbms.Bptree

variable {α ν : Type} [LinearOrder α] {maxKeys : Nat}

theorem increasing_iff : ∀ {pairs : List (α × ν)}, increasing pairs = true ↔ Sorted pairs
  | [] => by simp [increasing, Sorted]
  | [a] => by simp [increasing, Sorted]
  | a :: b :: rest => by
      rw [increasing, Sorted, List.pairwise_cons]
      by_cases hle : b.1 ≤ a.1
      · rw [if_pos hle]
        constructor
        · exact fun h => absurd h (by simp)
        · exact fun h => absurd (h.1 b List.mem_cons_self) (not_lt_of_ge hle)
      · have hlt : a.1 < b.1 := lt_of_not_ge hle
        rw [if_neg hle, increasing_iff]
        constructor
        · intro hs
          refine ⟨?_, hs⟩
          intro e he
          rcases List.mem_cons.1 he with rfl | he
          · exact hlt
          · exact hlt.trans ((List.pairwise_cons.1 hs).1 e he)
        · exact fun h => h.2

/-! ## Levels -/

/-- The nodes of a level cut `[lo, hi)` at their first keys. -/
def Level (maxKeys h : Nat) (lo hi : Option α) (level : List (Node α ν h)) : Prop :=
  ∃ keys, level.tail.map (firstKey h) = keys.map some ∧
    Chained (Ordered maxKeys h) lo hi keys level

/-- What the builds make of a first key: a present one is kept. -/
def KeepsKeys (separator : Option α → Option α) : Prop := ∀ k, separator (some k) = some k

section Parents

variable {h : Nat} {separator : Option α → Option α}

omit [LinearOrder α] in
theorem mapM_separator (hsep : KeepsKeys separator) {children : List (Node α ν h)}
    {keys : List α} (hk : children.map (firstKey h) = keys.map some) :
    children.mapM (fun child => separator (firstKey h child)) = some keys := by
  rw [mapM_eq_some]
  calc children.map (fun child => separator (firstKey h child))
      = (children.map (firstKey h)).map separator := by rw [List.map_map]; rfl
    _ = keys.map some := by
        rw [hk, List.map_map]
        exact List.map_congr_left fun k _ => hsep k

omit [LinearOrder α] in
theorem parentOf_eq (hsep : KeepsKeys separator) {children : List (Node α ν h)} {keys : List α}
    (hk : children.tail.map (firstKey h) = keys.map some) :
    parentOf separator children = some ⟨keys, children⟩ := by
  rw [parentOf, mapM_separator hsep hk]
  rfl

theorem Level.cut {lo hi : Option α} {c d : List (Node α ν h)}
    (hl : Level maxKeys h lo hi (c ++ d)) (hc : c ≠ []) (hd : d ≠ []) :
    ∃ m, (d.head?).bind (firstKey h) = some m ∧ StrictlyAbove lo m ∧ Below hi m ∧
      Level maxKeys h lo (some m) c ∧ Level maxKeys h (some m) hi d := by
  obtain ⟨keys, hkeys, hchain⟩ := hl
  obtain ⟨d₀, dt, rfl⟩ := List.exists_cons_of_ne_nil hd
  rw [List.tail_append_of_ne_nil hc, List.map_append, List.map_cons] at hkeys
  obtain ⟨K₁, K₂', rfl, hK₁, hK₂'⟩ := List.map_eq_append_iff.1 hkeys.symm
  obtain ⟨m, K₂, rfl, hm, hK₂⟩ := List.map_eq_cons_iff.1 hK₂'
  have hlen : K₁.length + 1 = c.length := by
    have hpos : 0 < c.length := List.length_pos_iff.2 hc
    have := congrArg List.length hK₁
    simp only [List.length_map, List.length_tail] at this
    omega
  obtain ⟨hleft, hright, hlo, hhi⟩ := hchain.cut
  rw [hlen, List.take_left] at hleft
  rw [hlen, List.drop_left] at hright
  exact ⟨m, hm.symm, hlo, hhi, ⟨K₁, hK₁.symm, hleft⟩, ⟨K₂, hK₂.symm, hright⟩⟩

theorem Level.parent (hsep : KeepsKeys separator) {lo hi : Option α} {c : List (Node α ν h)}
    (hl : Level maxKeys h lo hi c) (hfit : c.length ≤ maxKeys + 1) :
    ∃ keys, parentOf separator c = some ⟨keys, c⟩ ∧
      Ordered maxKeys (h + 1) lo hi (⟨keys, c⟩ : InnerNode α (Node α ν h)) := by
  obtain ⟨keys, hkeys, hchain⟩ := hl
  refine ⟨keys, parentOf_eq hsep hkeys, ?_, hchain⟩
  have := hchain.length_eq
  change keys.length ≤ maxKeys
  omega

omit [LinearOrder α] in
theorem firstKey_inner (keys : List α) (c : List (Node α ν h)) :
    firstKey (h + 1) (⟨keys, c⟩ : InnerNode α (Node α ν h)) = (c.head?).bind (firstKey h) := by
  cases c <;> rfl

theorem Level.parents (hsep : KeepsKeys separator) {order : Nat} (hpos : 0 < order)
    (horder : order ≤ maxKeys + 1) {hi : Option α} (level : List (Node α ν h)) :
    ∀ {lo : Option α}, Level maxKeys h lo hi level → level ≠ [] →
      ∃ parents : List (InnerNode α (Node α ν h)),
        (chunks order level).mapM (parentOf separator) = some parents ∧
        Level maxKeys (h + 1) lo hi parents ∧ parents.flatMap InnerNode.children = level ∧
        (parents.head?).bind (firstKey (h + 1)) = (level.head?).bind (firstKey h) ∧
        parents.length = (chunks order level).length := by
  induction level using chunks_induction hpos with
  | nil => exact fun _ hne => absurd rfl hne
  | step level hne ih =>
      intro lo hl _
      have htake : level.take order ≠ [] := by
        rw [Ne, List.take_eq_nil_iff]
        simp only [hne, or_false]
        omega
      have hfit : (level.take order).length ≤ maxKeys + 1 :=
        (List.length_take_le order level).trans horder
      have hhead : (level.take order).head? = level.head? := by
        rw [List.head?_take, if_neg (by omega)]
      rw [chunks_of_ne_nil hpos hne, List.mapM_cons]
      by_cases hd : level.drop order = []
      · -- the last piece is the whole level
        have hall : level.take order = level := by
          rw [← List.take_append_drop order level, hd]
          simp
        rw [hall] at hfit ⊢
        obtain ⟨keys, hparent, hord⟩ := hl.parent hsep hfit
        refine ⟨[⟨keys, level⟩], ?_, ⟨[], rfl, hord⟩, by simp, ?_, ?_⟩
        · rw [hparent, hd, chunks_nil hpos]
          rfl
        · exact firstKey_inner keys level
        · rw [hd, chunks_nil hpos]
          rfl
      · rw [← List.take_append_drop order level] at hl
        obtain ⟨m, hm, hlo, hhi, hleft, hright⟩ := hl.cut htake hd
        obtain ⟨keys, hparent, hord⟩ := hleft.parent hsep hfit
        obtain ⟨ps, hps, ⟨K, hK, hchain⟩, hflat, hfirst, hcount⟩ := ih hright hd
        have hpsne : ps ≠ [] := by
          rintro rfl
          exact hd (by simpa using hflat.symm)
        obtain ⟨p, pt, rfl⟩ := List.exists_cons_of_ne_nil hpsne
        refine ⟨⟨keys, level.take order⟩ :: p :: pt, ?_, ⟨m :: K, ?_, ?_⟩, ?_, ?_, ?_⟩
        · rw [hparent, hps]
          rfl
        · exact congrArg₂ List.cons (hfirst.trans hm) hK
        · exact ⟨hlo, hhi, hord, hchain⟩
        · rw [List.flatMap_cons, hflat]
          exact List.take_append_drop order level
        · rw [← hhead]
          exact firstKey_inner keys _
        · rw [List.length_cons, hcount, List.length_cons]

end Parents

/-! ## The bottom level -/

theorem chainLeaves_level {hi : Option α} : ∀ (pieces : List (List (α × ν))) (addr : Nat)
    {lo : Option α}, pieces ≠ [] → (∀ p ∈ pieces, p ≠ [] ∧ p.length ≤ maxKeys) →
      Sorted pieces.flatten → (∀ e ∈ pieces.flatten, Above lo e.1 ∧ Below hi e.1) →
      Level maxKeys 0 lo hi (chainLeaves addr pieces)
  | [], _, _, hne, _, _, _ => absurd rfl hne
  | [p], addr, _, _, hp, hs, hb => by
      refine ⟨[], rfl, ?_, ?_, (hp p (by simp)).2⟩
      · simpa using hs
      · simpa using hb
  | p :: q :: rest, addr, lo, _, hp, hs, hb => by
      obtain ⟨e, p', rfl⟩ := List.exists_cons_of_ne_nil (hp p (by simp)).1
      obtain ⟨⟨m, v⟩, q', rfl⟩ := List.exists_cons_of_ne_nil (hp q (by simp)).1
      rw [List.flatten_cons] at hs hb
      obtain ⟨hsp, hsq, hpq⟩ := List.pairwise_append.1 hs
      have hm : (m, v) ∈ (((m, v) :: q') :: rest).flatten := by simp
      have hbelow : ∀ x ∈ e :: p', x.1 < m := fun x hx => hpq x hx (m, v) hm
      have hfrom : ∀ x ∈ (((m, v) :: q') :: rest).flatten, m ≤ x.1 := by
        intro x hx
        rw [List.flatten_cons, List.cons_append] at hx hsq
        rcases List.mem_cons.1 hx with rfl | hx
        · exact le_refl _
        · exact ((List.pairwise_cons.1 hsq).1 x hx).le
      have ih : Level maxKeys 0 (some m) hi (chainLeaves (addr + 1) (((m, v) :: q') :: rest)) :=
        chainLeaves_level _ (addr + 1) (by simp) (fun x hx => hp x (List.mem_cons_of_mem _ hx))
          hsq (fun x hx => ⟨above_some.2 (hfrom x hx), (hb x (List.mem_append_right _ hx)).2⟩)
      obtain ⟨K, hK, hchain⟩ := ih
      refine ⟨m :: K, ?_, ?_, ?_, ⟨hsp, ?_, (hp _ (by simp)).2⟩, hchain⟩
      · cases rest with
        | nil => exact congrArg (List.cons (some m)) hK
        | cons r rest => exact congrArg (List.cons (some m)) hK
      · intro l hl
        exact lt_of_le_of_lt ((hb e (by simp)).1 l hl) (hbelow e (by simp))
      · exact (hb (m, v) (List.mem_append_right _ hm)).2
      · intro x hx
        exact ⟨(hb x (List.mem_append_left _ hx)).1, below_some.2 (hbelow x hx)⟩

section Chain

omit [LinearOrder α]

theorem chainLeaves_cons_cons (p q : List (α × ν)) (rest : List (List (α × ν))) (addr : Nat) :
    chainLeaves addr (p :: q :: rest) =
      ⟨addr, p, some (addr + 1)⟩ :: chainLeaves (addr + 1) (q :: rest) := rfl

theorem chainLeaves_entries : ∀ (pieces : List (List (α × ν))) (addr : Nat),
    (chainLeaves addr pieces).flatMap Leaf.entries = pieces.flatten
  | [], _ => rfl
  | [p], _ => by simp [chainLeaves]
  | p :: q :: rest, addr => by
      rw [chainLeaves_cons_cons, List.flatMap_cons, chainLeaves_entries (q :: rest)]
      rfl

theorem chainLeaves_addrs : ∀ (pieces : List (List (α × ν))) (addr : Nat),
    (chainLeaves addr pieces).map Leaf.addr = List.range' addr pieces.length
  | [], _ => rfl
  | [p], _ => rfl
  | p :: q :: rest, addr => by
      rw [chainLeaves_cons_cons, List.map_cons, chainLeaves_addrs (q :: rest)]
      rfl

theorem chainLeaves_linked : ∀ (pieces : List (List (α × ν))) (addr : Nat),
    Linked (chainLeaves addr pieces)
  | [], _ => trivial
  | [_], _ => rfl
  | [_, _], _ => ⟨rfl, rfl⟩
  | _ :: q :: r :: rest, addr => ⟨rfl, chainLeaves_linked (q :: r :: rest) (addr + 1)⟩

theorem length_chainLeaves (pieces : List (List (α × ν))) (addr : Nat) :
    (chainLeaves addr pieces).length = pieces.length := by
  have := congrArg List.length (chainLeaves_addrs pieces addr)
  simpa using this

end Chain

/-! ## The loop over levels -/

theorem buildLevels_spec {separator : Option α → Option α} (hsep : KeepsKeys separator)
    {order : Nat} (hpos : 2 ≤ order) (horder : order ≤ maxKeys + 1) :
    ∀ (fuel h : Nat) (level : List (Node α ν h)), level ≠ [] → level.length ≤ fuel →
      Level maxKeys h none none level →
      ∃ height root, buildLevels separator order fuel h level = some ⟨height, root⟩ ∧
        Ordered maxKeys height none none root ∧
        leaves height root = level.flatMap (leaves h) := by
  intro fuel
  induction fuel with
  | zero =>
      intro h level hne hlen _
      exact absurd (List.length_eq_zero_iff.1 (Nat.le_zero.1 hlen)) hne
  | succ fuel ih =>
      intro h level hne hlen hl
      match level, hne, hlen, hl with
      | [root], _, _, hl =>
          obtain ⟨keys, hkeys, hchain⟩ := hl
          have hnil : keys = [] := by simpa using hkeys.symm
          subst hnil
          exact ⟨h, root, rfl, hchain, by simp⟩
      | n₁ :: n₂ :: rest, hne, hlen, hl =>
          obtain ⟨parents, hparents, hlevel, hflat, -, hcount⟩ :=
            Level.parents hsep (by omega) horder _ hl hne
          have hshort : parents.length < (n₁ :: n₂ :: rest).length := by
            rw [hcount]
            exact length_chunks_lt hpos (by simp)
          have hne' : parents ≠ [] := by
            rintro rfl
            simp at hflat
          obtain ⟨height, root, hbuild, hord, hleaves⟩ :=
            ih (h + 1) parents hne' (Nat.le_of_lt_succ (hshort.trans_le hlen)) hlevel
          refine ⟨height, root, ?_, hord, ?_⟩
          · rw [buildLevels, hparents]
            · exact hbuild
            · exact fun _ h => by simp at h
          · rw [hleaves, ← hflat, List.flatMap_assoc]
            rfl

open BPlusTree

omit [LinearOrder α] in
theorem treeOrder_eq (tree : BPlusTree α ν) : tree.treeOrder = tree.maxKeys + 1 := by
  unfold treeOrder maxKeys normalizeOrder
  split_ifs <;> omega

/-- **Bulk building** succeeds exactly on strictly increasing pairs, and the tree then
holds these pairs.  A refused build leaves everything but the order. -/
theorem buildFromSorted_spec {separator : Option α → Option α} (hsep : KeepsKeys separator)
    (tree : BPlusTree α ν) (pairs : List (α × ν)) :
    match buildFromSorted separator tree pairs with
    | (tree', true) => Sorted pairs ∧ tree'.Ok ∧ tree'.toList = pairs ∧
        tree'.order = chooseOrderForCount pairs.length
    | (tree', false) => ¬ Sorted pairs ∧
        tree' = { tree with order := chooseOrderForCount pairs.length } := by
  unfold buildFromSorted
  dsimp only
  set tree₁ : BPlusTree α ν := { tree with order := chooseOrderForCount pairs.length } with htree₁
  by_cases hnil : pairs = []
  · rw [if_pos hnil]
    subst hnil
    exact ⟨List.Pairwise.nil, clear_ok tree₁, rfl, rfl⟩
  · rw [if_neg hnil]
    by_cases hinc : increasing pairs = false
    · rw [if_pos hinc]
      refine ⟨fun hs => ?_, rfl⟩
      rw [increasing_iff.2 hs] at hinc
      exact absurd hinc (by simp)
    · rw [if_neg hinc]
      have hs : Sorted pairs := increasing_iff.1 (by simpa using hinc)
      have hmax := tree₁.two_le_maxKeys
      have horder : 2 ≤ tree₁.treeOrder := by
        rw [treeOrder_eq]
        omega
      have hflat : (chunks tree₁.maxKeys pairs).flatten = pairs := flatten_chunks (by omega) pairs
      have hpieces : chunks tree₁.maxKeys pairs ≠ [] := by
        intro hempty
        rw [hempty] at hflat
        exact hnil hflat.symm
      have hlevel : Level tree₁.maxKeys 0 none none
          (chainLeaves tree₁.fresh (chunks tree₁.maxKeys pairs)) := by
        apply chainLeaves_level _ _ hpieces (mem_chunks (by omega) pairs)
        · rw [hflat]
          exact hs
        · simp
      have hne : chainLeaves tree₁.fresh (chunks tree₁.maxKeys pairs) ≠ [] := by
        rw [← List.length_pos_iff, length_chainLeaves, List.length_pos_iff]
        exact hpieces
      obtain ⟨height, root, hbuild, hord, hleaves⟩ :=
        buildLevels_spec hsep horder (treeOrder_eq tree₁).le _ 0 _ hne (Nat.le_refl _) hlevel
      have hleaves' : leaves height root =
          chainLeaves tree₁.fresh (chunks tree₁.maxKeys pairs) := by
        rw [hleaves]
        exact List.flatMap_singleton' _
      change buildLevels separator tree₁.treeOrder
        (chainLeaves tree.fresh (chunks tree₁.maxKeys pairs)).length 0
        (chainLeaves tree.fresh (chunks tree₁.maxKeys pairs)) = _ at hbuild
      rw [hbuild]
      refine ⟨hs, ⟨hord, ?_, ?_, ?_⟩, ?_, rfl⟩
      · change Linked (leaves height root)
        rw [hleaves']
        exact chainLeaves_linked _ _
      · change ((leaves height root).map Leaf.addr).Nodup
        rw [hleaves', chainLeaves_addrs]
        exact List.nodup_range'
      · intro l hl
        change l ∈ leaves height root at hl
        rw [hleaves'] at hl
        have hmem : l.addr ∈ (chainLeaves tree₁.fresh (chunks tree₁.maxKeys pairs)).map
            Leaf.addr := List.mem_map_of_mem hl
        rw [chainLeaves_addrs, List.mem_range'_1] at hmem
        rw [length_chainLeaves]
        exact hmem.2
      · change entries height root = pairs
        rw [entries_eq_leaves, hleaves', chainLeaves_entries, hflat]

end MiniDbms.Bptree
