import MiniDbms.Db.Table
import MiniDbms.Bptree.Spec

/-!
# The indexes of a table

`idx_build` succeeds exactly on rows that satisfy the PK and UK constraints, and
then every tree files each row under the value of its column.  `ins_do` files the
new row only.
-/

namespace MiniDbms

open Bptree

theorem bptreeInsert_indexes {tree : BPlusTree Int} {key : Nat → Option Int} (h : Indexes tree key)
    {n : Nat} (hn : key n = none) (k : Int) :
    Filed key n k (bptreeInsert tree k n) :=
  h.insertWith firstOfRight_ok hn k

theorem bptreeStringInsert_indexes {tree : BPlusTree Bytes} {key : Nat → Option Bytes}
    (h : Indexes tree key) {n : Nat} (hn : key n = none) {k : Bytes} (hk : k ≠ []) :
    Filed key n k (bptreeStringInsert tree k n) := by
  unfold bptreeStringInsert
  rw [if_neg hk]
  exact h.insertWith chosenBeforeShift_ok hn k

/-! ## Keys of rows -/

/-- The integer in the PK cell of a row. -/
def pkVal (pkIdx : Option Nat) (row : Row) : Option Int := pkIdx.bind fun p => parseL (cell row p)

/-- The text a row is filed under in the unique column `c`; empty cells are not
filed. -/
def ukText (c : Nat) (row : Row) : Option Bytes :=
  if normV RECORD_SIZE (cell row c) = [] then none else some (normV RECORD_SIZE (cell row c))

/-- The key of the row at a position. -/
def keyAt {α : Type} (f : Row → Option α) (rows : List Row) (i : Nat) : Option α :=
  (rows[i]?).bind f

/-- No two rows have the same key. -/
def Distinct {α : Type} (f : Row → Option α) (rows : List Row) : Prop :=
  ∀ i j k, keyAt f rows i = some k → keyAt f rows j = some k → i = j

section KeyAt

variable {α : Type} {f : Row → Option α} {rows : List Row} {row : Row}

theorem keyAt_length : keyAt f rows rows.length = none := by simp [keyAt]

theorem keyAt_append_of_some {k : α} (hf : f row = some k) :
    keyAt f (rows ++ [row]) = fun i => if i = rows.length then some k else keyAt f rows i := by
  funext i
  unfold keyAt
  by_cases hi : i = rows.length
  · subst hi
    simp [hf]
  · rw [if_neg hi]
    rcases Nat.lt_or_gt_of_ne hi with hlt | hgt
    · rw [List.getElem?_append_left hlt]
    · rw [List.getElem?_eq_none (by simp; omega), List.getElem?_eq_none (by omega)]

theorem keyAt_append_of_none (hf : f row = none) : keyAt f (rows ++ [row]) = keyAt f rows := by
  funext i
  unfold keyAt
  rcases Nat.lt_trichotomy i rows.length with hlt | heq | hgt
  · rw [List.getElem?_append_left hlt]
  · subst heq
    simp [hf]
  · rw [List.getElem?_eq_none (by simp; omega), List.getElem?_eq_none (by omega)]

theorem keyAt_append_left {rest : List Row} {i : Nat} {k : α} (h : keyAt f rows i = some k) :
    keyAt f (rows ++ rest) i = some k := by
  unfold keyAt at h ⊢
  obtain ⟨r, hr, hk⟩ := Option.bind_eq_some_iff.1 h
  rw [List.getElem?_append_left (List.getElem?_eq_some_iff.1 hr).1, hr]
  exact hk

theorem keyAt_append_mid {rest : List Row} {k : α} (hf : f row = some k) :
    keyAt f (rows ++ row :: rest) rows.length = some k := by
  simp [keyAt, hf]

/-- Entering a row under a key that is taken breaks distinctness. -/
theorem not_distinct_of_taken {rest : List Row} {k : α} {i : Nat} (hf : f row = some k)
    (hi : keyAt f rows i = some k) : ¬ Distinct f (rows ++ row :: rest) := by
  intro h
  have hlt : i < rows.length := by
    obtain ⟨r, hr, -⟩ := Option.bind_eq_some_iff.1 hi
    exact (List.getElem?_eq_some_iff.1 hr).1
  have := h i rows.length k (keyAt_append_left hi) (keyAt_append_mid hf)
  omega

end KeyAt

theorem Bptree.Indexes.distinct {α : Type} [LinearOrder α] {tree : BPlusTree α} {f : Row → Option α}
    {rows : List Row} (h : Indexes tree (keyAt f rows)) : Distinct f rows :=
  fun _ _ _ hi hj => h.injective hi hj

namespace TabVer

/-! ## Unique columns -/

/-- Every tree files the rows under the texts of its column. -/
def UkFiled (rows : List Row) (cols : List Nat) (trees : List (BPlusTree Bytes)) : Prop :=
  List.Forall₂ (fun c t => Indexes t (keyAt (ukText c) rows)) cols trees

theorem UkFiled.exists_of_mem {rows : List Row} {c : Nat} : ∀ {cols : List Nat}
    {trees : List (BPlusTree Bytes)}, UkFiled rows cols trees → c ∈ cols →
      ∃ t, Indexes t (keyAt (ukText c) rows)
  | _ :: _, _, .cons ht h, hc => by
      rcases List.mem_cons.1 hc with rfl | hc
      · exact ⟨_, ht⟩
      · exact UkFiled.exists_of_mem h hc

theorem ukEnter_spec (row : Row) (rows : List Row) :
    ∀ (cols : List Nat) (trees : List (BPlusTree Bytes)), UkFiled rows cols trees →
      match ukEnter row rows.length cols trees with
      | (trees', true) => UkFiled (rows ++ [row]) cols trees' ∧
          ∀ c ∈ cols, ∀ k, ukText c row = some k → ∀ i, keyAt (ukText c) rows i ≠ some k
      | (_, false) => ∃ c ∈ cols, ∃ k, ukText c row = some k ∧
          ∃ i, keyAt (ukText c) rows i = some k
  | [], trees, h => by
      cases h
      simp only [ukEnter]
      exact ⟨List.Forall₂.nil, by simp⟩
  | c :: cols, trees, h => by
      cases h with
      | @cons _ tree _ trees htree hrest =>
          have ih := ukEnter_spec row rows cols trees hrest
          simp only [ukEnter]
          by_cases hempty : normV RECORD_SIZE (cell row c) = []
          · have hnone : ukText c row = none := by simp [ukText, hempty]
            have htree' : Indexes tree (keyAt (ukText c) (rows ++ [row])) := by
              rw [keyAt_append_of_none hnone]
              exact htree
            rw [if_pos hempty]
            rcases hres : ukEnter row rows.length cols trees with ⟨trees', _ | _⟩
            · rw [hres] at ih
              obtain ⟨c', hc', hk⟩ := ih
              exact ⟨c', List.mem_cons_of_mem _ hc', hk⟩
            · rw [hres] at ih
              refine ⟨List.Forall₂.cons htree' ih.1, ?_⟩
              intro c' hc' k hk
              rcases List.mem_cons.1 hc' with rfl | hc'
              · rw [hnone] at hk
                cases hk
              · exact ih.2 c' hc' k hk
          · have hsome : ukText c row = some (normV RECORD_SIZE (cell row c)) := by
              simp [ukText, hempty]
            have hins := bptreeStringInsert_indexes htree keyAt_length hempty
            rw [if_neg hempty]
            cases hs : bptreeStringInsert tree (normV RECORD_SIZE (cell row c)) rows.length with
            | none =>
                rw [hs] at hins
                exact ⟨c, List.mem_cons_self, _, hsome, hins⟩
            | some tree' =>
                rw [hs] at hins
                obtain ⟨hfree, htree'⟩ := hins
                rw [← keyAt_append_of_some hsome] at htree'
                dsimp only
                rcases hres : ukEnter row rows.length cols trees with ⟨trees', _ | _⟩
                · rw [hres] at ih
                  obtain ⟨c', hc', hk⟩ := ih
                  exact ⟨c', List.mem_cons_of_mem _ hc', hk⟩
                · rw [hres] at ih
                  refine ⟨List.Forall₂.cons htree' ih.1, ?_⟩
                  intro c' hc' k hk
                  rcases List.mem_cons.1 hc' with rfl | hc'
                  · rw [hsome] at hk
                    cases hk
                    exact hfree
                  · exact ih.2 c' hc' k hk

/-! ## `idx_build` -/

/-- What the rows of a table must satisfy to be indexed. -/
structure Constraints (tab : TabVer) : Prop where
  pkInt : ∀ p, tab.pkIdx = some p → ∀ row ∈ tab.rows, (parseL (cell row p)).isSome
  pkDistinct : Distinct (pkVal tab.pkIdx) tab.rows
  ukDistinct : ∀ c ∈ tab.ukIdx, Distinct (ukText c) tab.rows

/-- Every tree files the rows under the values of its column. -/
structure Indexed (tab : TabVer) : Prop where
  pk : Indexes tab.pkTree (keyAt (pkVal tab.pkIdx) tab.rows)
  uk : UkFiled tab.rows tab.ukIdx tab.ukTree

/-- Two tables that differ in their trees only. -/
def SameButTrees (tab tab' : TabVer) : Prop :=
  tab' = { tab with pkTree := tab'.pkTree, ukTree := tab'.ukTree }

theorem SameButTrees.trans {a b c : TabVer} (hab : SameButTrees a b) (hbc : SameButTrees b c) :
    SameButTrees a c := by
  unfold SameButTrees at *
  rw [hbc, hab]

theorem SameButTrees.fields {tab tab' : TabVer} (h : SameButTrees tab tab') :
    tab'.rows = tab.rows ∧ tab'.pkIdx = tab.pkIdx ∧ tab'.ukIdx = tab.ukIdx := by
  rw [h]
  exact ⟨rfl, rfl, rfl⟩

theorem SameButTrees.constraints_iff {tab tab' : TabVer} (h : SameButTrees tab tab') :
    tab'.Constraints ↔ tab.Constraints := by
  rw [h]
  exact ⟨fun ⟨h₁, h₂, h₃⟩ => ⟨h₁, h₂, h₃⟩, fun ⟨h₁, h₂, h₃⟩ => ⟨h₁, h₂, h₃⟩⟩

theorem idxRow_same (tab : TabVer) (i : Nat) (row : Row) :
    SameButTrees tab (tab.idxRow i row).1 := by
  unfold idxRow
  dsimp only
  split <;> rfl

theorem idxRow_spec {tab : TabVer} {done : List Row} (row : Row)
    (hpk : Indexes tab.pkTree (keyAt (pkVal tab.pkIdx) done))
    (huk : UkFiled done tab.ukIdx tab.ukTree) :
    match tab.idxRow done.length row with
    | (tab', true) => (∀ p, tab.pkIdx = some p → (parseL (cell row p)).isSome) ∧
        Indexes tab'.pkTree (keyAt (pkVal tab.pkIdx) (done ++ [row])) ∧
        UkFiled (done ++ [row]) tab.ukIdx tab'.ukTree
    | (_, false) => ∀ rest, tab.rows = done ++ row :: rest → ¬ tab.Constraints := by
  have hukspec := ukEnter_spec row done tab.ukIdx tab.ukTree huk
  have huktaken : ∀ c ∈ tab.ukIdx, ∀ k i, ukText c row = some k →
      keyAt (ukText c) done i = some k → ∀ rest, tab.rows = done ++ row :: rest →
        ¬ tab.Constraints := by
    intro c hc k i hk hi rest hrows hcon
    have := hcon.ukDistinct c hc
    rw [hrows] at this
    exact not_distinct_of_taken hk hi this
  unfold idxRow
  cases hp : tab.pkIdx with
  | none =>
      have hnone : pkVal tab.pkIdx row = none := by simp [pkVal, hp]
      dsimp only
      rcases hres : ukEnter row done.length tab.ukIdx tab.ukTree with ⟨trees, _ | _⟩
      · rw [hres] at hukspec
        obtain ⟨c, hc, k, hk, i, hi⟩ := hukspec
        exact huktaken c hc k i hk hi
      · rw [hres] at hukspec
        refine ⟨by simp, ?_, hukspec.1⟩
        rw [← hp, keyAt_append_of_none hnone]
        exact hpk
  | some p =>
      dsimp only
      cases hkey : parseL (cell row p) with
      | none =>
          intro rest hrows hcon
          have := hcon.pkInt p hp row (by simp [hrows])
          simp [hkey] at this
      | some key =>
          have hsome : pkVal tab.pkIdx row = some key := by simp [pkVal, hp, hkey]
          have hins := bptreeInsert_indexes hpk keyAt_length key
          simp only [Option.bind_some]
          cases hs : bptreeInsert tab.pkTree key done.length with
          | none =>
              rw [hs] at hins
              obtain ⟨i, hi⟩ := hins
              intro rest hrows hcon
              have := hcon.pkDistinct
              rw [hrows] at this
              exact not_distinct_of_taken hsome hi this
          | some pkTree =>
              rw [hs] at hins
              have htree := hins.2
              rw [← keyAt_append_of_some hsome] at htree
              dsimp only
              rcases hres : ukEnter row done.length tab.ukIdx tab.ukTree with ⟨trees, _ | _⟩
              · rw [hres] at hukspec
                obtain ⟨c, hc, k, hk, i, hi⟩ := hukspec
                exact huktaken c hc k i hk hi
              · rw [hres] at hukspec
                refine ⟨?_, hp ▸ htree, hukspec.1⟩
                rintro q ⟨⟩
                simp [hkey]

theorem idxLoop_spec : ∀ (rest done : List Row) (tab : TabVer), tab.rows = done ++ rest →
    Indexes tab.pkTree (keyAt (pkVal tab.pkIdx) done) → UkFiled done tab.ukIdx tab.ukTree →
    (∀ p, tab.pkIdx = some p → ∀ row ∈ done, (parseL (cell row p)).isSome) →
      SameButTrees tab (idxLoop done.length rest tab).1 ∧
      match idxLoop done.length rest tab with
      | (tab', true) => tab.Constraints ∧ tab'.Indexed
      | (_, false) => ¬ tab.Constraints
  | [], done, tab, hrows, hpk, huk, hint => by
      rw [List.append_nil] at hrows
      subst hrows
      refine ⟨rfl, ⟨hint, hpk.distinct, ?_⟩, hpk, huk⟩
      intro c hc
      obtain ⟨t, ht⟩ := huk.exists_of_mem hc
      exact ht.distinct
  | row :: rest, done, tab, hrows, hpk, huk, hint => by
      have hsame := idxRow_same tab done.length row
      have hrow := idxRow_spec row hpk huk
      simp only [idxLoop]
      rcases hres : tab.idxRow done.length row with ⟨tab', _ | _⟩
      · rw [hres] at hsame hrow
        exact ⟨hsame, hrow rest hrows⟩
      · rw [hres] at hsame hrow
        change SameButTrees tab tab' at hsame
        obtain ⟨hkey, hpk', huk'⟩ := hrow
        have hfix := hsame.fields
        have hcon := hsame.constraints_iff
        have ih := idxLoop_spec rest (done ++ [row]) tab' (by simp [hfix.1, hrows])
          (by rw [hfix.2.1]; exact hpk') (by rw [hfix.2.2]; exact huk') (by
            intro p hp r hr
            rw [hfix.2.1] at hp
            rcases List.mem_append.1 hr with hr | hr
            · exact hint p hp r hr
            · rw [List.mem_singleton.1 hr]
              exact hkey p hp)
        rw [List.length_append, List.length_singleton] at ih
        dsimp only
        refine ⟨hsame.trans ih.1, ?_⟩
        rcases hl : idxLoop (done.length + 1) rest tab' with ⟨tab'', _ | _⟩
        · rw [hl] at ih
          exact fun h => ih.2 (hcon.2 h)
        · rw [hl] at ih
          exact ⟨hcon.1 ih.2.1, ih.2.2⟩

theorem ukFiled_nil : ∀ cols : List Nat, UkFiled [] cols (cols.map fun _ => create Bytes)
  | [] => List.Forall₂.nil
  | c :: cols => by
      refine List.Forall₂.cons ?_ (ukFiled_nil cols)
      have : keyAt (ukText c) [] = fun _ => none := by
        funext i
        simp [keyAt]
      rw [this]
      exact Indexes.create_none

theorem idxBuild_cases (tab : TabVer) : SameButTrees tab tab.idxBuild.1 ∧
    match tab.idxBuild with
    | (tab', true) => tab.Constraints ∧ tab'.Indexed
    | (_, false) => ¬ tab.Constraints := by
  have hpk : Indexes (create Int) (keyAt (pkVal tab.pkIdx) []) := by
    have : keyAt (pkVal tab.pkIdx) [] = fun _ => none := by
      funext i
      simp [keyAt]
    rw [this]
    exact Indexes.create_none
  have h := idxLoop_spec tab.rows []
    { tab with pkTree := create Int, ukTree := tab.ukIdx.map fun _ => create Bytes } rfl hpk
    (ukFiled_nil _) (by simp)
  have hsame : SameButTrees tab { tab with
      pkTree := create Int, ukTree := tab.ukIdx.map fun _ => create Bytes } := rfl
  refine ⟨hsame.trans h.1, ?_⟩
  have hcon := hsame.constraints_iff
  unfold idxBuild
  rcases hl : idxLoop 0 tab.rows { tab with
      pkTree := create Int, ukTree := tab.ukIdx.map fun _ => create Bytes } with ⟨tab', _ | _⟩
  · have h2 := h.2
    rw [List.length_nil, hl] at h2
    exact fun hc => h2 (hcon.2 hc)
  · have h2 := h.2
    rw [List.length_nil, hl] at h2
    exact ⟨hcon.1 h2.1, h2.2⟩

/-- **`idx_build`** succeeds exactly on rows that satisfy the constraints. -/
theorem idxBuild_ok_iff (tab : TabVer) : tab.idxBuild.2 = true ↔ tab.Constraints := by
  have h := tab.idxBuild_cases.2
  rcases hb : tab.idxBuild with ⟨tab', _ | _⟩
  · rw [hb] at h
    simpa using h
  · rw [hb] at h
    simpa using h.1

theorem idxBuild_spec {tab tab' : TabVer} (h : tab.idxBuild = (tab', true)) :
    SameButTrees tab tab' ∧ tab'.Constraints ∧ tab'.Indexed := by
  have hb := tab.idxBuild_cases
  rw [h] at hb
  exact ⟨hb.1, hb.1.constraints_iff.2 hb.2.1, hb.2.2⟩

/-- `tab_clone` copies exactly the tables that satisfy their constraints. -/
theorem tabClone_isSome_iff (src : TabVer) : src.tabClone.isSome ↔ src.Constraints := by
  have hsame : ∀ dst : TabVer, dst = { src with
      rowCap := src.rows.length, slots := src.rows.length, verId := 0 } →
      (dst.Constraints ↔ src.Constraints) := by
    rintro dst rfl
    exact ⟨fun ⟨h₁, h₂, h₃⟩ => ⟨h₁, h₂, h₃⟩, fun ⟨h₁, h₂, h₃⟩ => ⟨h₁, h₂, h₃⟩⟩
  rw [← hsame _ rfl, ← idxBuild_ok_iff]
  unfold tabClone
  split <;> simp_all

theorem tabClone_spec {src dst : TabVer} (h : src.tabClone = some dst) :
    dst = { src with
      rowCap := src.rows.length
      slots := src.rows.length
      verId := 0
      pkTree := dst.pkTree
      ukTree := dst.ukTree } ∧ dst.Constraints ∧ dst.Indexed := by
  unfold tabClone at h
  split at h
  · rename_i tab hb
    cases h
    obtain ⟨hsame, hcon, hidx⟩ := idxBuild_spec hb
    exact ⟨hsame, hcon, hidx⟩
  · cases h

/-! ## `ins_do` -/

/-- A successful INSERT of `row` with the id `newId`. -/
structure Entered (tab tab' : TabVer) (vals : List Bytes) (row : Row) (newId : Int) : Prop where
  frame : tab' = { tab with
    rows := tab.rows ++ [row]
    rowCap := tab'.rowCap
    slots := tab'.slots
    nextId := tab'.nextId
    pkTree := tab'.pkTree
    ukTree := tab'.ukTree }
  values : tab.rowNew vals = (tab'.nextId, some (row, newId))
  room : tab.rows.length < MAX_RECORDS
  pkTree : bptreeInsert tab.pkTree newId tab.rows.length = some tab'.pkTree
  ukTree : ukEnter row tab.rows.length tab.ukIdx tab.ukTree = (tab'.ukTree, true)

/-- What is left of a table after an INSERT that added no row. -/
def Untouched (tab tab' : TabVer) (vals : List Bytes) : Prop :=
  tab' = { tab with rowCap := tab'.rowCap, slots := tab'.slots, nextId := tab'.nextId } ∧
    (tab'.nextId = tab.nextId ∨ tab'.nextId = (tab.rowNew vals).1)

theorem insRow_cases {tab tab' : TabVer} {row : Row} {newId : Int} {res res' : DbRes} {ok : Bool}
    (h : tab.insRow row newId res = (tab', res', ok)) :
    (ok = false ∧ tab' = tab) ∨
    (ok = false ∧ tab' = { tab with
        rows := tab.rows ++ [row], pkTree := tab'.pkTree, ukTree := tab'.ukTree } ∧
      (bptreeInsert tab.pkTree newId tab.rows.length = none ∨
        (ukEnter row tab.rows.length tab.ukIdx tab.ukTree).2 = false)) ∨
    (ok = true ∧ res' = { res with count := 1, lastId := newId } ∧
      tab' = { tab with
        rows := tab.rows ++ [row], pkTree := tab'.pkTree, ukTree := tab'.ukTree } ∧
      bptreeInsert tab.pkTree newId tab.rows.length = some tab'.pkTree ∧
      ukEnter row tab.rows.length tab.ukIdx tab.ukTree = (tab'.ukTree, true)) := by
  unfold insRow at h
  split at h
  · cases h
    exact Or.inl ⟨rfl, rfl⟩
  · split at h
    · cases h
      exact Or.inl ⟨rfl, rfl⟩
    · dsimp only at h
      split at h
      · rename_i hpk
        cases h
        exact Or.inr (Or.inl ⟨rfl, rfl, Or.inl hpk⟩)
      · rename_i pkTree hpk
        rcases huk : ukEnter row tab.rows.length tab.ukIdx tab.ukTree with ⟨trees, _ | _⟩
        · rw [huk] at h
          cases h
          exact Or.inr (Or.inl ⟨rfl, rfl, Or.inr rfl⟩)
        · rw [huk] at h
          cases h
          exact Or.inr (Or.inr ⟨rfl, rfl, rfl, hpk, rfl⟩)

theorem ensureRowCap_spec {tab tab' : TabVer} {need : Nat} (h : tab.ensureRowCap need = some tab') :
    tab' = { tab with rowCap := tab'.rowCap, slots := tab'.slots } := by
  unfold ensureRowCap at h
  split at h
  · cases h
    rfl
  · obtain ⟨cap, -, rfl⟩ := Option.map_eq_some_iff.1 h
    rfl

theorem insDo_cases {tab tab' : TabVer} {stmt : Statement} {res res' : DbRes} {ok : Bool}
    (h : tab.insDo stmt res = .ok (tab', res', ok)) :
    (ok = false ∧ Untouched tab tab' (splitCsv stmt.rowData.bytes)) ∨
    (ok = false ∧ ∃ row newId,
      tab.rowNew (splitCsv stmt.rowData.bytes) = (tab'.nextId, some (row, newId)) ∧
      tab.rows.length < MAX_RECORDS ∧
      tab' = { tab with
        rows := tab.rows ++ [row]
        rowCap := tab'.rowCap
        slots := tab'.slots
        nextId := tab'.nextId
        pkTree := tab'.pkTree
        ukTree := tab'.ukTree } ∧
      (bptreeInsert tab.pkTree newId tab.rows.length = none ∨
        (ukEnter row tab.rows.length tab.ukIdx tab.ukTree).2 = false)) ∨
    (ok = true ∧ ∃ row newId, res' = { res with count := 1, lastId := newId } ∧
      Entered tab tab' (splitCsv stmt.rowData.bytes) row newId) := by
  unfold insDo at h
  dsimp only at h
  split at h
  · cases h
    exact Or.inl ⟨rfl, rfl, Or.inl rfl⟩
  · rename_i hroom
    split at h
    · cases h
      exact Or.inl ⟨rfl, rfl, Or.inl rfl⟩
    · rename_i tab₁ hcap
      obtain ⟨cap, slots, rfl⟩ : ∃ cap slots, tab₁ = { tab with rowCap := cap, slots := slots } :=
        ⟨_, _, ensureRowCap_spec hcap⟩
      have hnew : TabVer.rowNew { tab with rowCap := cap, slots := slots }
          (splitCsv stmt.rowData.bytes) = tab.rowNew (splitCsv stmt.rowData.bytes) := rfl
      rw [hnew] at h
      split at h
      · cases h
      · split at h
        · rename_i nextId hrow
          cases h
          exact Or.inl ⟨rfl, rfl, Or.inr (by rw [hrow])⟩
        · rename_i nextId row newId hrow
          rcases insRow_cases (Except.ok.inj h) with
            ⟨hok, htab⟩ | ⟨hok, htab, hbad⟩ | ⟨hok, hres, htab, hpk, huk⟩
          · refine Or.inl ⟨hok, ?_, Or.inr ?_⟩
            · rw [htab]
            · rw [htab, hrow]
          · refine Or.inr (Or.inl ⟨hok, row, newId, ?_, Nat.lt_of_not_le hroom, ?_, hbad⟩)
            · rw [hrow, htab]
            · rw [htab]
          · refine Or.inr (Or.inr ⟨hok, row, newId, hres, ?_, ?_, Nat.lt_of_not_le hroom, hpk, huk⟩)
            · rw [htab]
            · rw [hrow, htab]

theorem insDo_same {tab tab' : TabVer} {stmt : Statement} {res res' : DbRes} {ok : Bool}
    (h : tab.insDo stmt res = .ok (tab', res', ok)) : tab' = { tab with
      rows := tab'.rows
      rowCap := tab'.rowCap
      slots := tab'.slots
      nextId := tab'.nextId
      pkTree := tab'.pkTree
      ukTree := tab'.ukTree } := by
  rcases insDo_cases h with ⟨-, hsame, -⟩ | ⟨-, _, _, -, -, hframe, -⟩ | ⟨-, _, _, -, he⟩
  · rw [hsame]
  · rw [hframe]
  · rw [he.frame]

end TabVer

end MiniDbms
