import MiniDbms.Bptree.StringFree

/-!
# The string tree is an ordered finite map

Bulk building takes over the caller's keys and copies first keys for the upper
levels.  With it every call on the slots is the call of the generic tree on the
strings, so every sequence of calls works on the map the tree stands for, and no key
block is ever lost, released twice or held by two slots.
-/

namespace MiniDbms.StringTree

open Bptree Slots

/-! ## Bulk building -/

theorem firstStringKey_pack : ∀ (h : Nat) (node : Node KeyPtr Int h),
    (firstStringKey h (pack h node)).map KeyPtr.text = firstKey h (erase h node)
  | 0, ⟨_, [], _⟩ => rfl
  | 0, ⟨_, _ :: _, _⟩ => rfl
  | _ + 1, ⟨_, []⟩ => rfl
  | h + 1, ⟨_, c :: _⟩ => firstStringKey_pack h c

theorem dupFirstKeys_sim {h : Nat} : ∀ {children : List (Node KeyPtr Int h)} {texts : List Bytes}
    (led : Ledger), (children.map (erase h)).map (firstKey h) = texts.map some →
      ∃ copies led', dupFirstKeys (children.map (pack h)) led = some (copies, led') ∧
        copies.map KeyPtr.text = texts ∧ Allocated led copies led'
  | [], [], led, _ => ⟨[], led, rfl, rfl, List.Perm.refl _, id⟩
  | [], _ :: _, _, hk => by simp at hk
  | _ :: _, [], _, hk => by simp at hk
  | c :: cs, text :: texts, led, hk => by
      simp only [List.map_cons, List.cons.injEq] at hk
      obtain ⟨first, hfirst, htext⟩ := Option.map_eq_some_iff.1
        ((firstStringKey_pack h c).trans hk.1)
      obtain ⟨copies, led', hrest, htexts, halloc⟩ :=
        dupFirstKeys_sim (dupKey first.text led).2 hk.2
      refine ⟨(dupKey first.text led).1 :: copies, led', ?_, ?_, ?_⟩
      · simp only [List.map_cons, dupFirstKeys, hfirst, hrest, Option.bind_eq_bind,
          Option.bind_some]
      · rw [List.map_cons, htexts]
        exact congrArg (· :: texts) htext
      · have hboth := (dupKey_allocated first.text led).trans halloc
        refine ⟨hboth.1.trans ?_, hboth.2⟩
        exact ((List.perm_append_comm.map KeyPtr.addr).append_right _)

theorem stringParents_sim {h : Nat} : ∀ (pieces : List (List (Node KeyPtr Int h)))
    {parents : List (InnerNode Bytes (Node Bytes Int h))} (led : Ledger),
      (pieces.map (List.map (erase h))).mapM (parentOf id) = some parents →
      (∀ piece ∈ pieces, piece ≠ []) →
      ∃ (ps : List (Node KeyPtr Int (h + 1))) (led' : Ledger) (new : List KeyPtr),
        stringParents (pieces.map (List.map (pack h))) led =
          some (ps.map (pack (h + 1)), led') ∧ ps.map (erase (h + 1)) = parents ∧
        (ps.flatMap (ptrs (h + 1))).Perm (new ++ pieces.flatten.flatMap (ptrs h)) ∧
        Allocated led new led'
  | [], parents, led, hp, _ => by
      cases hp
      exact ⟨[], led, [], rfl, rfl, List.Perm.refl _, List.Perm.refl _, id⟩
  | piece :: pieces, parents, led, hp, hne => by
      obtain ⟨p, parents', rfl, hpiece, hpieces⟩ := List.map_eq_cons_iff.1 (mapM_eq_some.1 hp).symm
      -- the keys of the parent are the first keys of the later children
      obtain ⟨texts, htexts, hparent⟩ := Option.bind_eq_some_iff.1 hpiece.symm
      rw [mapM_eq_some, ← List.map_tail] at htexts
      obtain ⟨copies, led₁, hdup, hcopies, halloc₁⟩ := dupFirstKeys_sim led htexts
      obtain ⟨ps, led₂, new, hps, herase, hperm, halloc₂⟩ := stringParents_sim pieces led₁
        (mapM_eq_some.2 hpieces.symm) fun q hq => hne q (List.mem_cons_of_mem _ hq)
      have hlen : copies.length = piece.length - 1 := by
        rw [← List.length_map (f := KeyPtr.text), hcopies]
        have := congrArg List.length htexts
        simpa using this.symm
      refine ⟨(⟨copies, piece⟩ : InnerNode KeyPtr (Node KeyPtr Int h)) :: ps, led₂, new ++ copies,
        ?_, ?_, ?_, halloc₁.trans halloc₂⟩
      · simp only [List.map_cons, stringParents, ← List.map_tail, hdup, hps,
          Option.bind_eq_bind, Option.bind_some, List.length_map, ← hlen]
        rfl
      · have hnew : erase (h + 1) (⟨copies, piece⟩ : InnerNode KeyPtr (Node KeyPtr Int h)) = p := by
          rw [← Option.some.inj hparent, ← hcopies]
          rfl
        exact congrArg₂ List.cons hnew herase
      · change (copies ++ piece.flatMap (ptrs h) ++ ps.flatMap (ptrs (h + 1))).Perm _
        rw [List.perm_iff_count]
        intro x
        have hcount := hperm.count_eq x
        simp only [List.flatten_cons, List.flatMap_append, List.count_append] at hcount ⊢
        omega

/-- **The loop over levels** on the slots is the loop on the strings. -/
theorem stringBuildLevels_sim {order : Nat} (horder : 0 < order) : ∀ (fuel h : Nat)
    (level : List (Node KeyPtr Int h)) (led : Ledger) {height : Nat} {root : Node Bytes Int height},
      level ≠ [] → buildLevels id order fuel h (level.map (erase h)) = some ⟨height, root⟩ →
      ∃ (r : Node KeyPtr Int height) (led' : Ledger) (new : List KeyPtr),
        stringBuildLevels order fuel h (level.map (pack h)) led =
          some (⟨height, pack height r⟩, led') ∧ erase height r = root ∧
        (ptrs height r).Perm (new ++ level.flatMap (ptrs h)) ∧ Allocated led new led'
  | fuel, h, [node], led, height, root, _, hb => by
      have hroot : (⟨h, erase h node⟩ : (h : Nat) × Node Bytes Int h) = ⟨height, root⟩ := by
        cases fuel <;> exact Option.some.inj hb
      cases hroot
      exact ⟨node, led, [], by cases fuel <;> rfl, rfl, by simp, List.Perm.refl _, id⟩
  | _, _, [], _, _, _, hne, _ => absurd rfl hne
  | 0, _, _ :: _ :: _, _, _, _, _, hb => by simp [buildLevels] at hb
  | fuel + 1, h, n₁ :: n₂ :: rest, led, height, root, hne, hb => by
      set level := n₁ :: n₂ :: rest
      have hstep : ((chunks order (level.map (erase h))).mapM (parentOf id)).bind
          (fun parents => buildLevels id order fuel (h + 1) parents) = some ⟨height, root⟩ := hb
      obtain ⟨parents, hparents, hbuild⟩ := Option.bind_eq_some_iff.1 hstep
      rw [chunks_map] at hparents
      obtain ⟨ps, led₁, new₁, hps, herase, hperm₁, halloc₁⟩ := stringParents_sim
        (chunks order level) led hparents fun piece hp => (mem_chunks horder level piece hp).1
      have hpsne : ps ≠ [] := by
        rintro rfl
        have hnil : parents = [] := herase.symm
        have hcount := congrArg List.length (mapM_eq_some.1 hparents)
        rw [hnil, chunks_of_ne_nil horder hne] at hcount
        simp at hcount
      rw [← herase] at hbuild
      obtain ⟨r, led₂, new₂, hrest, hroot, hperm₂, halloc₂⟩ :=
        stringBuildLevels_sim horder fuel (h + 1) ps led₁ hpsne hbuild
      refine ⟨r, led₂, new₂ ++ new₁, ?_, hroot, ?_, halloc₁.trans halloc₂⟩
      · rw [← chunks_map] at hps
        have hunfold : stringBuildLevels order (fuel + 1) h (level.map (pack h)) led =
            (stringParents (chunks order (level.map (pack h))) led).bind
              (fun x => stringBuildLevels order fuel (h + 1) x.1 x.2) := rfl
        rw [hunfold, hps]
        exact hrest
      · rw [flatten_chunks horder] at hperm₁
        rw [List.append_assoc]
        exact hperm₂.trans (hperm₁.append_left _)

theorem bptreeStringClear_sim {tree : BPlusStringTree} {led : Ledger} {R : List Nat}
    {t : BPlusTree Bytes Int} (hown : Owns tree led R t) {maxKeys : Nat}
    (hord : Ordered maxKeys t.height none none t.root) :
    ∃ tree' led', bptreeStringClear tree led = some (tree', led') ∧ Owns tree' led' R (clear t) := by
  obtain ⟨h, root, order, fresh, rfl, rfl, hled, hlive⟩ := hown
  obtain ⟨led', hdestroy, hled', hlive'⟩ := destroyStringNode_spec h hord hled hlive
  refine ⟨⟨0, createLeaf fresh, order, fresh + 1⟩, led', ?_,
    0, (⟨fresh, [], none⟩ : Leaf KeyPtr Int), order, fresh + 1, rfl, rfl, hled', hlive'⟩
  rw [bptreeStringClear]
  simp only [hdestroy, Option.bind_eq_bind, Option.bind_some]

theorem chainStringLeaves_eq : ∀ (pieces : List (List (KeyPtr × Int))) (addr : Nat),
    chainStringLeaves addr pieces = (chainLeaves addr pieces).map (pack 0)
  | [], _ => rfl
  | [_], _ => rfl
  | _ :: q :: rest, addr => congrArg (List.cons _) (chainStringLeaves_eq (q :: rest) (addr + 1))

theorem length_chainStringLeaves : ∀ (pieces : List (List (KeyPtr × Int))) (addr : Nat),
    (chainStringLeaves addr pieces).length = pieces.length
  | [], _ => rfl
  | [_], _ => rfl
  | _ :: q :: rest, addr => congrArg (· + 1) (length_chainStringLeaves (q :: rest) (addr + 1))

theorem map_erase_chainLeaves : ∀ (pieces : List (List (KeyPtr × Int))) (addr : Nat),
    (chainLeaves addr pieces).map (erase 0) =
      chainLeaves addr (pieces.map (List.map fun e => (e.1.text, e.2)))
  | [], _ => rfl
  | [_], _ => rfl
  | _ :: q :: rest, addr => congrArg (List.cons _) (map_erase_chainLeaves (q :: rest) (addr + 1))

theorem ptrs_chainLeaves (pieces : List (List (KeyPtr × Int))) (addr : Nat) :
    (chainLeaves addr pieces).flatMap (ptrs 0) = pieces.flatten.map Prod.fst := by
  rw [← chainLeaves_entries pieces addr, List.map_flatMap]
  rfl

theorem bptreeStringBuildFromSorted_sim {tree : BPlusStringTree} {led : Ledger}
    {t : BPlusTree Bytes Int} {pairs : List (KeyPtr × Int)}
    (hown : Owns tree led ((pairs.map Prod.fst).map KeyPtr.addr) t) (hok : t.Ok) :
    ∃ tree' led' rc, bptreeStringBuildFromSorted tree pairs led = some (tree', led', rc) ∧
      match buildFromSorted id t (pairs.map fun e => (e.1.text, e.2)) with
      | (t', true) => rc = 1 ∧ Owns tree' led' [] t'
      | (_, false) => rc = 0 := by
  obtain ⟨h, root, order, fresh, rfl, rfl, hled, hlive⟩ := hown
  have hord := hok.ordered
  set texts := pairs.map fun e => (e.1.text, e.2) with htexts
  have hkeeps : KeepsKeys (id : Option Bytes → Option Bytes) := fun _ => rfl
  have hspec := buildFromSorted_spec hkeeps ⟨h, erase h root, order, fresh⟩ texts
  have hcount : texts.length = pairs.length := by simp [htexts]
  unfold bptreeStringBuildFromSorted
  unfold buildFromSorted at hspec ⊢
  dsimp only at hspec ⊢
  rw [hcount] at hspec ⊢
  by_cases hnil : pairs = []
  · -- the new root is an empty leaf
    have hnil' : texts = [] := by simp [htexts, hnil]
    have hown : Owns ⟨h, pack h root, chooseOrderForCount pairs.length, fresh⟩ led []
        ⟨h, erase h root, chooseOrderForCount pairs.length, fresh⟩ :=
      ⟨h, root, _, fresh, rfl, rfl, hled, by simpa [hnil] using hlive⟩
    obtain ⟨tree', led', hclear, hown'⟩ := bptreeStringClear_sim hown hord
    rw [if_pos hnil, if_pos hnil']
    simp only [hclear, Option.bind_eq_bind, Option.bind_some]
    exact ⟨_, _, _, rfl, rfl, hown'⟩
  · have hnil' : texts ≠ [] := by simpa [htexts] using hnil
    rw [if_neg hnil, if_neg hnil']
    rw [if_neg hnil'] at hspec
    by_cases hinc : increasing texts = false
    · rw [if_pos hinc, if_pos hinc]
      exact ⟨_, _, _, rfl, rfl⟩
    · rw [if_neg hinc, if_neg hinc]
      rw [if_neg hinc] at hspec
      obtain ⟨M, hM⟩ : ∃ M, M = normalizeOrder (chooseOrderForCount pairs.length) - 1 := ⟨_, rfl⟩
      have hMpos : 0 < M := by
        rw [hM, normalizeOrder]
        split_ifs <;> omega
      obtain ⟨L, hL⟩ : ∃ L : List (Node KeyPtr Int 0), L = chainLeaves fresh (chunks M pairs) :=
        ⟨_, rfl⟩
      have hstrings : (chainLeaves fresh (chunks M texts) : List (Node Bytes Int 0)) =
          L.map (erase 0) := by
        rw [hL, map_erase_chainLeaves, htexts, chunks_map]
      have hslots : (chainStringLeaves fresh (chunks M pairs) : List (StringNode 0)) =
          L.map (pack 0) := by
        rw [hL]
        exact chainStringLeaves_eq (chunks M pairs) fresh
      have hptrs : L.flatMap (ptrs 0) = pairs.map Prod.fst := by
        rw [hL]
        exact (ptrs_chainLeaves _ _).trans (by rw [flatten_chunks hMpos])
      have hne : L ≠ [] := by
        rw [hL, chunks_of_ne_nil hMpos hnil]
        cases chunks M (pairs.drop M) <;> exact List.cons_ne_nil _ _
      have hcounts : (chainStringLeaves fresh (chunks M pairs)).length =
          (chainLeaves fresh (chunks M texts)).length := by
        rw [length_chainStringLeaves, length_chainLeaves, length_chunks, length_chunks, hcount]
      simp only [BPlusTree.maxKeys, BPlusTree.treeOrder, BPlusStringTree.maxKeys, ← hM] at hspec ⊢
      rw [hcounts]
      generalize (chainLeaves fresh (chunks M texts)).length = n at hspec ⊢
      cases hb : buildLevels id (normalizeOrder (chooseOrderForCount pairs.length)) n 0
          (chainLeaves fresh (chunks M texts)) with
      | none =>
          rw [hb] at hspec
          exact absurd (increasing_iff.1 (by simpa using hinc)) hspec.1
      | some built =>
          obtain ⟨height, r⟩ := built
          change buildLevels id _ n 0 (chainLeaves fresh (chunks M texts) : List (Node Bytes Int 0)) =
            _ at hb
          rw [hstrings] at hb
          obtain ⟨r', led₁, new, hbuild, rfl, hperm, halloc⟩ :=
            stringBuildLevels_sim (by omega) n 0 L led hne hb
          -- the pointers of the new tree are the copies and the caller's keys
          rw [hptrs] at hperm
          have hlive₁ : led₁.live.Perm ((ptrs h root).map KeyPtr.addr ++
              (ptrs height r').map KeyPtr.addr) := by
            rw [List.perm_iff_count]
            intro x
            have h₁ := halloc.1.count_eq x
            have h₂ := hlive.count_eq x
            have h₃ := (hperm.map KeyPtr.addr).count_eq x
            simp only [List.map_append, List.count_append] at h₁ h₂ h₃ ⊢
            omega
          obtain ⟨led₂, hdestroy, hled₂, hlive₂⟩ :=
            destroyStringNode_spec h hord (halloc.2 hled) hlive₁
          change stringBuildLevels (normalizeOrder (chooseOrderForCount pairs.length)) n 0
            (L.map (pack 0)) led = _ at hbuild
          rw [← hslots] at hbuild
          simp only [hbuild, hdestroy, Option.bind_eq_bind, Option.bind_some]
          exact ⟨_, _, _, rfl, rfl, height, r', _, _, rfl, rfl, hled₂, by simpa using hlive₂⟩

/-! ## Sequences of calls -/

/-- A tree and the key blocks in use. -/
structure StringState where
  tree : BPlusStringTree
  ledger : Ledger

/-- The caller of a bulk build allocates its keys. -/
def dupPairs : List (Bytes × Int) → Ledger → List (KeyPtr × Int) × Ledger
  | [], led => ([], led)
  | (text, rowIndex) :: rest, led =>
    let (key, led) := dupKey text led
    let (pairs, led) := dupPairs rest led
    ((key, rowIndex) :: pairs, led)

/-- A call on the string tree and its result; `bptree_string_clear` has none. -/
def stringCall (s : StringState) : Op Bytes Int → Option (StringState × Int)
  | .insert key rowIndex => do
    let (tree, led, rc) ← bptreeStringInsert s.tree key rowIndex s.ledger
    some (⟨tree, led⟩, rc)
  | .delete key => do
    let (tree, led, rc) ← bptreeStringDelete s.tree key s.ledger
    some (⟨tree, led⟩, rc)
  | .clear => do
    let (tree, led) ← bptreeStringClear s.tree s.ledger
    some (⟨tree, led⟩, 1)
  | .build pairs => do
    let (pairs, led) := dupPairs pairs s.ledger
    let (tree, led, rc) ← bptreeStringBuildFromSorted s.tree pairs led
    some (⟨tree, led⟩, rc)

/-- Why a sequence of calls stops. -/
inductive Stop
  | fault
  | refused

/-- A call in a sequence whose builds succeed. -/
def stringStep (s : StringState) (op : Op Bytes Int) : Except Stop StringState :=
  match op, stringCall s op with
  | _, none => .error .fault
  | .build _, some (s', rc) => if rc = 1 then .ok s' else .error .refused
  | _, some (s', _) => .ok s'

/-- The empty string is no key. -/
def admits (key : Bytes) : Bool := !key.isEmpty

def stringMap (ops : List (Op Bytes Int)) : Bytes → Option Int :=
  ops.foldl (Op.onMap admits) fun _ => none

/-- The leaves of the slots. -/
def stringLeaves : (h : Nat) → StringNode h → List StringLeaf
  | 0, leaf => [leaf]
  | h + 1, node => (StringInner.children node).flatMap (stringLeaves h)

/-- The slots stand for the map, and own all key blocks. -/
def Good (s : StringState) (m : Bytes → Option Int) : Prop :=
  ∃ t, Owns s.tree s.ledger [] t ∧ Holds t m

theorem dupPairs_spec : ∀ (pairs : List (Bytes × Int)) (led : Ledger),
    ((dupPairs pairs led).1.map fun e => (e.1.text, e.2)) = pairs ∧
      Allocated led ((dupPairs pairs led).1.map Prod.fst) (dupPairs pairs led).2
  | [], led => ⟨rfl, List.Perm.refl _, id⟩
  | (text, v) :: rest, led => by
      obtain ⟨htexts, halloc⟩ := dupPairs_spec rest (dupKey text led).2
      refine ⟨congrArg (List.cons (text, v)) htexts, ?_⟩
      have hboth := (dupKey_allocated text led).trans halloc
      refine ⟨hboth.1.trans ?_, hboth.2⟩
      exact (List.perm_append_comm.map KeyPtr.addr).append_right _

theorem admits_eq_true {key : Bytes} : admits key = true ↔ key ≠ [] := by
  simp [admits]

section Calls

variable {s : StringState} {m : Bytes → Option Int}

/-- An insertion refuses the empty key and present ones, and is an update otherwise. -/
theorem Good.insert (h : Good s m) (k : Bytes) (v : Int) :
    ∃ s' rc, stringCall s (.insert k v) = some (s', rc) ∧
      ((k = [] ∧ rc = -1 ∧ s' = s) ∨ (k ≠ [] ∧ (m k).isSome ∧ rc = 0 ∧ s' = s) ∨
        (k ≠ [] ∧ m k = none ∧ rc = 1 ∧ Good s' (put m k (some v)))) := by
  obtain ⟨t, hown, hm⟩ := h
  obtain ⟨tree', led', rc, hcall, hcase⟩ := bptreeStringInsert_sim hown hm.ok k v
  refine ⟨⟨tree', led'⟩, rc, ?_, ?_⟩
  · simp only [stringCall, hcall, Option.bind_eq_bind, Option.bind_some]
  · have hspec := hm.insertWith chosenBeforeShift_ok k v
    rcases hcase with ⟨hk, hrc, rfl, rfl⟩ | ⟨hk, hins, hrc, rfl, rfl⟩ | ⟨hk, t', hins, hrc, hown'⟩
    · exact Or.inl ⟨hk, hrc, rfl⟩
    · rw [hins] at hspec
      exact Or.inr (Or.inl ⟨hk, hspec, hrc, rfl⟩)
    · rw [hins] at hspec
      exact Or.inr (Or.inr ⟨hk, hspec.1, hrc, t', hown', hspec.2⟩)

/-- A deletion ignores the empty key and absent ones. -/
theorem Good.delete (h : Good s m) (k : Bytes) :
    ∃ s' rc, stringCall s (.delete k) = some (s', rc) ∧
      (((k = [] ∨ m k = none) ∧ rc = 0 ∧ s' = s) ∨
        (k ≠ [] ∧ (m k).isSome ∧ rc = 1 ∧ Good s' (put m k none))) := by
  obtain ⟨t, hown, hm⟩ := h
  obtain ⟨tree', led', rc, hcall, hcase⟩ := bptreeStringDelete_sim hown hm.ok k
  refine ⟨⟨tree', led'⟩, rc, ?_, ?_⟩
  · simp only [stringCall, hcall, Option.bind_eq_bind, Option.bind_some]
  · have hspec := hm.delete k
    rcases hcase with ⟨hk | hdel, hrc, rfl, rfl⟩ | ⟨hk, t', hdel, hrc, hown'⟩
    · exact Or.inl ⟨Or.inl hk, hrc, rfl⟩
    · rw [hdel] at hspec
      exact Or.inl ⟨Or.inr hspec, hrc, rfl⟩
    · rw [hdel] at hspec
      exact Or.inr ⟨hk, hspec.1, hrc, t', hown', hspec.2⟩

theorem Good.clear (h : Good s m) :
    ∃ s', stringCall s .clear = some (s', 1) ∧ Good s' fun _ => none := by
  obtain ⟨t, hown, hm⟩ := h
  obtain ⟨tree', led', hcall, hown'⟩ := bptreeStringClear_sim hown hm.ok.ordered
  refine ⟨⟨tree', led'⟩, ?_, Bptree.clear t, hown', Holds.of_toList_nil (clear_ok t) rfl⟩
  simp only [stringCall, hcall, Option.bind_eq_bind, Option.bind_some]

theorem Good.build (h : Good s m) (pairs : List (Bytes × Int)) :
    ∃ s' rc, stringCall s (.build pairs) = some (s', rc) ∧ (rc = 1 → Good s' (mapOf pairs)) := by
  obtain ⟨t, hown, hm⟩ := h
  obtain ⟨htexts, halloc⟩ := dupPairs_spec pairs s.ledger
  obtain ⟨h, root, order, fresh, htree, ht, hled, hlive⟩ := hown
  have hown' : Owns s.tree (dupPairs pairs s.ledger).2
      (((dupPairs pairs s.ledger).1.map Prod.fst).map KeyPtr.addr) t := by
    refine ⟨h, root, order, fresh, htree, ht, halloc.2 hled, ?_⟩
    rw [List.append_nil] at hlive
    exact halloc.1.trans ((hlive.append_left _).trans List.perm_append_comm)
  obtain ⟨tree', led', rc, hcall, hcase⟩ := bptreeStringBuildFromSorted_sim hown' hm.ok
  rw [htexts] at hcase
  have hkeeps : KeepsKeys (id : Option Bytes → Option Bytes) := fun _ => rfl
  have hspec := Holds.build hkeeps t pairs
  refine ⟨⟨tree', led'⟩, rc, ?_, fun hrc => ?_⟩
  · simp only [stringCall, hcall, Option.bind_eq_bind, Option.bind_some]
  · cases hbuild : buildFromSorted id t pairs with
    | mk t' built =>
        rw [hbuild] at hcase hspec
        cases built with
        | true => exact ⟨t', hcase.2, hspec.2⟩
        | false =>
            change rc = 0 at hcase
            omega

theorem stringStep_good {op : Op Bytes Int} {s' : StringState} (h : Good s m)
    (hstep : stringStep s op = .ok s') : Good s' (op.onMap admits m) := by
  cases op with
  | insert k v =>
      obtain ⟨s₁, rc, hcall, hcase⟩ := h.insert k v
      simp only [stringStep, hcall, Except.ok.injEq] at hstep
      subst hstep
      rcases hcase with ⟨rfl, -, rfl⟩ | ⟨-, hsome, -, rfl⟩ | ⟨hk, hnone, -, hgood⟩
      · exact h
      · obtain ⟨u, hu⟩ := Option.isSome_iff_exists.1 hsome
        simpa [Op.onMap, hu] using h
      · simpa [Op.onMap, hnone, admits_eq_true.2 hk] using hgood
  | delete k =>
      obtain ⟨s₁, rc, hcall, hcase⟩ := h.delete k
      simp only [stringStep, hcall, Except.ok.injEq] at hstep
      subst hstep
      rcases hcase with ⟨rfl | hnone, -, rfl⟩ | ⟨hk, -, -, hgood⟩
      · exact h
      · simpa [Op.onMap, put_eq_self hnone] using h
      · simpa [Op.onMap, admits_eq_true.2 hk] using hgood
  | clear =>
      obtain ⟨s₁, hcall, hgood⟩ := h.clear
      simp only [stringStep, hcall, Except.ok.injEq] at hstep
      exact hstep ▸ hgood
  | build pairs =>
      obtain ⟨s₁, rc, hcall, hgood⟩ := h.build pairs
      simp only [stringStep, hcall] at hstep
      split_ifs at hstep with hrc
      cases hstep
      exact hgood hrc

/-- No call faults. -/
theorem stringStep_error {op : Op Bytes Int} {e : Stop} (h : Good s m)
    (hstep : stringStep s op = .error e) : e = .refused := by
  cases op with
  | insert k v =>
      obtain ⟨s₁, rc, hcall, -⟩ := h.insert k v
      simp [stringStep, hcall] at hstep
  | delete k =>
      obtain ⟨s₁, rc, hcall, -⟩ := h.delete k
      simp [stringStep, hcall] at hstep
  | clear =>
      obtain ⟨s₁, hcall, -⟩ := h.clear
      simp [stringStep, hcall] at hstep
  | build pairs =>
      obtain ⟨s₁, rc, hcall, -⟩ := h.build pairs
      simp only [stringStep, hcall] at hstep
      split_ifs at hstep with hrc
      exact (Except.error.inj hstep).symm

end Calls

theorem good_create (order : Int) : Good ⟨createWithOrder order, Ledger.empty⟩ fun _ => none := by
  refine ⟨Bptree.createWithOrder Bytes Int order, ?_, ?_⟩
  · exact ⟨0, (⟨0, [], none⟩ : Leaf KeyPtr Int), _, _, rfl, rfl, Ledger.empty_ok, List.Perm.refl _⟩
  · exact Holds.of_toList_nil (createWithOrder_ok order) rfl

/-! ## What a good state shows -/

section Good

variable {s : StringState} {m : Bytes → Option Int}

theorem Good.read (h : Good s m) :
    ∃ t, StringTree.read s.tree s.ledger = some t ∧ IsMap t m := by
  obtain ⟨tree, led⟩ := s
  obtain ⟨t, ⟨h, root, order, fresh, rfl, rfl, -, hlive⟩, hm⟩ := h
  refine ⟨_, ?_, hm.isMap⟩
  have hread : readNode led h (pack h root) = some (erase h root) := by
    refine readNode_pack h root fun p hp => ?_
    rw [List.append_nil] at hlive
    exact hlive.mem_iff.2 (List.mem_map_of_mem hp)
  simp only [StringTree.read, hread, Option.bind_eq_bind, Option.bind_some]

/-- Every allocated key block is in exactly one slot, and every slot in use holds
one. -/
theorem Good.owners (h : Good s m) :
    (slotAddrs s.tree.height s.tree.root).Nodup ∧
      s.ledger.live.Perm (slotAddrs s.tree.height s.tree.root) := by
  obtain ⟨tree, led⟩ := s
  obtain ⟨t, ⟨h, root, order, fresh, rfl, rfl, hled, hlive⟩, -⟩ := h
  rw [List.append_nil] at hlive
  dsimp only
  rw [slotAddrs_pack]
  exact ⟨hlive.nodup_iff.1 hled.nodup, hlive⟩

def packLeaf (leaf : Leaf KeyPtr Int) : StringLeaf := pack 0 leaf

def eraseLeaf (leaf : Leaf KeyPtr Int) : Leaf Bytes Int := erase 0 leaf

theorem stringLeaves_pack : ∀ (h : Nat) (node : Node KeyPtr Int h),
    stringLeaves h (pack h node) = (leaves h node).map packLeaf
  | 0, _ => rfl
  | h + 1, node => by
      simp only [stringLeaves, pack, leaves, List.map_flatMap, List.flatMap_map]
      congr 1
      funext c
      exact stringLeaves_pack h c

theorem leaves_erase : ∀ (h : Nat) (node : Node KeyPtr Int h),
    leaves h (erase h node) = (leaves h node).map eraseLeaf
  | 0, _ => rfl
  | h + 1, node => by
      simp only [leaves, erase, List.map_flatMap, List.flatMap_map]
      congr 1
      funext c
      exact leaves_erase h c

/-- The separator that a split of a leaf has copied is the first key of the new
leaf. -/
theorem Good.separator (h : Good s m) {leaf left right : StringLeaf}
    (hleaf : leaf ∈ stringLeaves s.tree.height s.tree.root) {key : Bytes} {rowIndex : Int}
    {p : KeyPtr} {led led' : Ledger}
    (hins : leaf.insert s.tree.maxKeys s.tree.fresh key rowIndex led =
      some (.split left p right, led')) :
    (firstStringKey 0 right).map KeyPtr.text = some p.text := by
  obtain ⟨tree, ledger⟩ := s
  obtain ⟨t, ⟨h, root, order, fresh, rfl, rfl, -, -⟩, hm⟩ := h
  dsimp only at hleaf hins
  rw [stringLeaves_pack] at hleaf
  obtain ⟨l, hl, rfl⟩ := List.mem_map.1 hleaf
  have hl' : eraseLeaf l ∈ leaves h (erase h root) := by
    rw [leaves_erase]
    exact List.mem_map_of_mem hl
  obtain ⟨hs, hlen⟩ := hm.ok.ordered.leaf h (eraseLeaf l) hl'
  have hlen' : l.entries.length ≤ BPlusTree.maxKeys ⟨h, erase h root, order, fresh⟩ := by
    rwa [show (eraseLeaf l).entries = l.entries.map fun e => (e.1.text, e.2)
      from rfl, List.length_map] at hlen
  obtain ⟨r, led₁, hr, hsim⟩ := @Leaf.insert_sim _ fresh
    (BPlusTree.two_le_maxKeys ⟨h, erase h root, order, fresh⟩) (maxKeys_lt _) l hlen' hs key
    rowIndex led
  have heq := hr.symm.trans hins
  cases heq
  rcases hsim with ⟨hdup, -, -⟩ | ⟨new, -, hpacked⟩
  · cases hdup
  · generalize hg : Leaf.insert chosenBeforeShift _ fresh (erase 0 l) key rowIndex = g at hpacked
    match g, hpacked with
    | .split tl k tr, ⟨left', right', _, hsr, _, htr, hk, _⟩ =>
        rw [hsr, firstStringKey_pack, ← htr, hk]
        exact Leaf.insert_split chosenBeforeShift_ok (BPlusTree.two_le_maxKeys _) hs hg

end Good

/-- Without builds from it the empty string stays out of the map. -/
theorem stringMap_nil {ops : List (Op Bytes Int)}
    (hbuild : ∀ pairs, Op.build pairs ∈ ops → ∀ e ∈ pairs, e.1 ≠ []) :
    stringMap ops [] = none := by
  have hfold : ∀ (ops : List (Op Bytes Int)) (m : Bytes → Option Int), m [] = none →
      (∀ pairs, Op.build pairs ∈ ops → ∀ e ∈ pairs, e.1 ≠ []) →
      ops.foldl (Op.onMap admits) m [] = none := by
    intro ops
    induction ops with
    | nil => exact fun m hm _ => hm
    | cons op ops ih =>
        intro m hm hops
        refine ih _ ?_ fun pairs hp => hops pairs (List.mem_cons_of_mem op hp)
        cases op with
        | insert k v =>
            simp only [Op.onMap]
            split_ifs with hk
            · rw [Bool.and_eq_true, admits_eq_true] at hk
              rw [put_of_ne hk.1.symm, hm]
            · exact hm
        | delete k =>
            simp only [Op.onMap]
            split_ifs with hk
            · rw [put_of_ne (admits_eq_true.1 hk).symm, hm]
            · exact hm
        | clear => rfl
        | build pairs =>
            exact mapOf_eq_none (hops pairs List.mem_cons_self)
  exact hfold ops _ rfl hbuild

/-- **The string tree is an ordered finite map**, and its keys have one owner each. -/
theorem string_tree_is_ordered_map (order : Int) (ops : List (Op Bytes Int)) :
    Run.exec stringStep ⟨createWithOrder order, Ledger.empty⟩ ops ≠ .error .fault ∧
      ∀ s, Run.exec stringStep ⟨createWithOrder order, Ledger.empty⟩ ops = .ok s →
        (∃ t, read s.tree s.ledger = some t ∧ IsMap t (stringMap ops)) ∧
        ((∀ pairs, Op.build pairs ∈ ops → ∀ e ∈ pairs, e.1 ≠ []) → stringMap ops [] = none) ∧
        (∀ k v, ∃ s' rc, stringCall s (.insert k v) = some (s', rc) ∧ (rc = -1 ↔ k = []) ∧
          (rc = 0 ↔ k ≠ [] ∧ (stringMap ops k).isSome) ∧ (rc ≠ 1 → s' = s)) ∧
        (∀ k, ∃ s' rc, stringCall s (.delete k) = some (s', rc) ∧
          (rc = 1 ↔ k ≠ [] ∧ (stringMap ops k).isSome) ∧ (rc ≠ 1 → rc = 0 ∧ s' = s)) ∧
        ((slotAddrs s.tree.height s.tree.root).Nodup ∧
          s.ledger.live.Perm (slotAddrs s.tree.height s.tree.root)) ∧
        ∀ leaf ∈ stringLeaves s.tree.height s.tree.root, ∀ key rowIndex led left p right led',
          StringLeaf.insert s.tree.maxKeys s.tree.fresh leaf key rowIndex led =
              some (.split left p right, led') →
            (firstStringKey 0 right).map KeyPtr.text = some p.text := by
  constructor
  · intro hfault
    have := Run.refines_error (E := (· = .refused)) stringStep_good stringStep_error
      (good_create order) hfault
    cases this
  · intro s hrun
    have h : Good s (stringMap ops) := Run.refines stringStep_good (good_create order) hrun
    refine ⟨h.read, stringMap_nil, ?_, ?_, h.owners, fun leaf hleaf _ _ _ _ _ _ _ hins =>
      h.separator hleaf hins⟩
    · intro k v
      obtain ⟨s', rc, hcall, hcase⟩ := h.insert k v
      refine ⟨s', rc, hcall, ?_⟩
      rcases hcase with ⟨hk, rfl, rfl⟩ | ⟨hk, hsome, rfl, rfl⟩ | ⟨hk, hnone, rfl, -⟩
      · simp [hk]
      · simp [hk, hsome]
      · simp [hk, hnone]
    · intro k
      obtain ⟨s', rc, hcall, hcase⟩ := h.delete k
      refine ⟨s', rc, hcall, ?_⟩
      rcases hcase with ⟨hk | hnone, rfl, rfl⟩ | ⟨hk, hsome, rfl, -⟩
      · simp [hk]
      · simp [hnone]
      · simp [hk, hsome]

/-- A clear, a bulk build, a leaf split, a refused key and a deletion. -/
theorem string_tree_is_ordered_map_split_and_delete :
    ∃ s, Run.exec stringStep ⟨createWithOrder 3, Ledger.empty⟩
        [.insert [120] 9, .clear, .build [([97], 2), ([98], 1), ([99], 3), ([100], 4), ([102], 5)],
          .insert [103] 7, .insert [101] 6, .insert [104] 8, .insert [] 9, .delete [98]] = .ok s ∧
      s.tree.height = 1 ∧ s.ledger.live.length = 8 ∧
      ∃ t, read s.tree s.ledger = some t ∧ IsMap t (stringMap
        [.insert [120] 9, .clear, .build [([97], 2), ([98], 1), ([99], 3), ([100], 4), ([102], 5)],
          .insert [103] 7, .insert [101] 6, .insert [104] 8, .insert [] 9, .delete [98]]) := by
  refine ⟨_, rfl, rfl, rfl, ?_⟩
  exact ((string_tree_is_ordered_map 3 _).2 _ rfl).1

end MiniDbms.StringTree
