import MiniDbms.Db.Failed
import MiniDbms.Lib.Run

/-!
# Generated ids

`next_id` is raised by `load_row` and `row_new` from ids the user chose, and copied by
`tab_clone`.  It stays above every PK of the table as long as no id is `LONG_MAX` and
no cell holds a larger integer than the id its row was given.
-/

namespace MiniDbms

open Bptree

namespace TabVer

variable {tab tab' : TabVer} {stmt : Statement} {vals : List Bytes} {res res' : DbRes}

/-! ## Keys below a bound -/

/-- The tree files rows before the `n`th, all under keys below the bound. -/
def FiledBelow (tree : BPlusTree Int) (n : Nat) (bound : Int) : Prop :=
  ∃ key : Nat → Option Int, Indexes tree key ∧ (∀ i, n ≤ i → key i = none) ∧
    ∀ i k, key i = some k → k < bound

theorem FiledBelow.mono {tree : BPlusTree Int} {n m : Nat} {bound bound' : Int}
    (h : FiledBelow tree n bound) (hn : n ≤ m) (hb : bound ≤ bound') :
    FiledBelow tree m bound' := by
  obtain ⟨key, hidx, hout, hlt⟩ := h
  refine ⟨key, hidx, fun i hi => hout i (by omega), fun i k hk => ?_⟩
  have := hlt i k hk
  omega

theorem FiledBelow.insert {tree tree' : BPlusTree Int} {n : Nat} {bound k : Int}
    (h : FiledBelow tree n bound) (hk : k < bound) (hins : bptreeInsert tree k n = some tree') :
    FiledBelow tree' (n + 1) bound := by
  obtain ⟨key, hidx, hout, hlt⟩ := h
  have hspec := bptreeInsert_indexes hidx (hout n le_rfl) k
  rw [hins] at hspec
  refine ⟨_, hspec.2, ?_, ?_⟩
  · intro i hi
    rw [if_neg (by omega)]
    exact hout i (by omega)
  · intro i k' hk'
    split at hk'
    · cases hk'
      exact hk
    · exact hlt i k' hk'

theorem FiledBelow.search {tree : BPlusTree Int} {n : Nat} {bound : Int}
    (h : FiledBelow tree n bound) : search tree bound = none := by
  obtain ⟨key, hidx, -, hlt⟩ := h
  cases hs : Bptree.search tree bound with
  | none => rfl
  | some i =>
      have := hlt i bound ((hidx.search_eq_some bound i).1 hs)
      omega

theorem filedBelow_create (bound : Int) : FiledBelow (create Int) 0 bound :=
  ⟨fun _ => none, Indexes.create_none, fun _ _ => rfl, fun _ _ h => nomatch h⟩

theorem idxRow_filedBelow {n : Nat} {bound : Int} {row : Row} (h : FiledBelow tab.pkTree n bound)
    (hrow : ∀ k, pkVal tab.pkIdx row = some k → k < bound) :
    FiledBelow (tab.idxRow n row).1.pkTree (n + 1) bound := by
  unfold idxRow
  cases hp : tab.pkIdx with
  | none => exact h.mono (by omega) le_rfl
  | some p =>
      rw [hp] at hrow
      dsimp only
      cases hkey : parseL (cell row p) with
      | none => exact h.mono (by omega) le_rfl
      | some k =>
          rw [Option.bind_some]
          cases hins : bptreeInsert tab.pkTree k n with
          | none => exact h.mono (by omega) le_rfl
          | some tree => exact h.insert (hrow k hkey) hins

/-- The loop of `idx_build`, also where it stops early. -/
theorem idxLoop_filedBelow {bound : Int} (rows : List Row) {n : Nat} {tab : TabVer}
    (h : FiledBelow tab.pkTree n bound)
    (hrows : ∀ row ∈ rows, ∀ k, pkVal tab.pkIdx row = some k → k < bound) :
    FiledBelow (idxLoop n rows tab).1.pkTree (n + rows.length) bound := by
  induction rows generalizing n tab with
  | nil => exact h
  | cons row rows ih =>
      have hrow := idxRow_filedBelow h (hrows row List.mem_cons_self)
      have hsame := (idxRow_same tab n row).fields.2.1
      unfold idxLoop
      rcases hres : tab.idxRow n row with ⟨tab', _ | _⟩
      · rw [hres] at hrow
        exact hrow.mono (by rw [List.length_cons]; omega) le_rfl
      · rw [hres] at hrow hsame
        have hrest := ih hrow fun r hr => by
          rw [hsame]
          exact hrows r (List.mem_cons_of_mem _ hr)
        rw [List.length_cons, Nat.add_comm rows.length 1, ← Nat.add_assoc]
        exact hrest

theorem idxBuild_filedBelow {bound : Int}
    (hrows : ∀ row ∈ tab.rows, ∀ k, pkVal tab.pkIdx row = some k → k < bound) :
    FiledBelow tab.idxBuild.1.pkTree tab.rows.length bound := by
  have h := @idxLoop_filedBelow bound tab.rows 0
    { tab with pkTree := create Int, ukTree := tab.ukIdx.map fun _ => create Bytes }
    (filedBelow_create bound) hrows
  rwa [Nat.zero_add] at h

/-! ## The invariant -/

/-- The counter is above every id, of the cells and of the tree. -/
structure IdsBelow (tab : TabVer) : Prop where
  cells : ∀ row ∈ tab.rows, ∀ k, pkVal tab.pkIdx row = some k → k < tab.nextId
  filed : tab.pkIdx.isSome → FiledBelow tab.pkTree tab.rows.length tab.nextId

theorem IdsBelow.idxBuild
    (h : ∀ row ∈ tab.rows, ∀ k, pkVal tab.pkIdx row = some k → k < tab.nextId) :
    tab.idxBuild.1.IdsBelow := by
  have hsame := tab.idxBuild_cases.1
  have hfiled := idxBuild_filedBelow h
  generalize tab.idxBuild.1 = new at hsame hfiled
  obtain ⟨hrows, hpk, -⟩ := hsame.fields
  have hnext : new.nextId = tab.nextId := by rw [hsame]
  exact ⟨by rw [hrows, hpk, hnext]; exact h, fun _ => by rw [hrows, hnext]; exact hfiled⟩

theorem IdsBelow.rebuild
    (h : ∀ row ∈ tab.rows, ∀ k, pkVal tab.pkIdx row = some k → k < tab.nextId) (res : DbRes) :
    (tab.rebuild res).1.IdsBelow := by
  have hb := IdsBelow.idxBuild h
  unfold TabVer.rebuild
  generalize tab.idxBuild = new at hb
  rcases new with ⟨new, _ | _⟩
  · exact hb
  · exact hb

theorem IdsBelow.tabClone (h : tab.IdsBelow) (hc : tab.tabClone = some tab') : tab'.IdsBelow := by
  unfold TabVer.tabClone at hc
  split at hc
  · rename_i new hb
    cases hc
    have hnew := @IdsBelow.idxBuild
      { tab with rowCap := tab.rows.length, slots := tab.rows.length, verId := 0 } h.cells
    rwa [hb] at hnew
  · cases hc

theorem IdsBelow.updDo (h : tab.IdsBelow) (stmt : Statement) (res : DbRes) :
    (tab.updDo stmt res).1.IdsBelow := by
  generalize hr : tab.updDo stmt res = r
  obtain ⟨new, res', ok⟩ := r
  unfold TabVer.updDo at hr
  split at hr
  · cases hr
    exact h
  · split at hr
    · cases hr
      exact h
    · rename_i setIdx hcol
      split at hr
      · cases hr
        exact h
      · rename_i hpk
        dsimp only at hr
        split at hr
        · cases hr
          exact h
        · split at hr
          · cases hr
            exact h
          · have hcells : ∀ row ∈ tab.updRows stmt setIdx (normV 256 stmt.setVal.bytes),
                ∀ k, pkVal tab.pkIdx row = some k → k < tab.nextId := by
              intro row hrow k hk
              obtain ⟨old, hold, rfl | rfl⟩ := updRows_mem hrow
              · exact h.cells _ hold k hk
              · rw [pkVal_set hpk] at hk
                exact h.cells old hold k hk
            split at hr
            · rename_i hzero
              cases hr
              have hself : tab.updRows stmt setIdx (normV 256 stmt.setVal.bytes) = tab.rows :=
                updRows_eq_self (Nat.eq_zero_of_add_eq_zero_left hzero)
              rw [hself]
              exact ⟨h.cells, h.filed⟩
            · have hreb := @IdsBelow.rebuild { tab with
                rows := tab.updRows stmt setIdx (normV 256 stmt.setVal.bytes) } hcells
                { res with count := res.count + tab.rows.countP (tab.rowMatch stmt) }
              rw [hr] at hreb
              exact hreb

theorem IdsBelow.delDo (h : tab.IdsBelow) (stmt : Statement) (res : DbRes) :
    (tab.delDo stmt res).1.IdsBelow := by
  unfold TabVer.delDo
  split
  · exact h
  · refine IdsBelow.rebuild ?_ _
    intro row hrow
    exact h.cells row (List.mem_of_mem_filter hrow)

/-! ## INSERT -/

theorem rowNew_pkCell {counter newId : Int} {row : Row} {p : Nat}
    (h : tab.rowNew vals = (counter, some (row, newId))) (hp : tab.pkIdx = some p)
    (hlt : p < tab.cols.length) :
    (tab.PkLeftOut vals ∧ cell row p = trimUq (printL newId)) ∨
      (¬ tab.PkLeftOut vals ∧ cell row p = trimUq ((tab.pkGiven vals).getD [])) := by
  have hid := @rowId_eq tab vals (by rw [hp]; rfl)
  unfold pkGiven at hid
  unfold rowNew at h
  dsimp only at h
  split at h
  · cases h
  · rw [hid] at h
    by_cases hout : tab.PkLeftOut vals
    · rw [if_pos hout] at h
      dsimp only at h
      split at h
      · cases h
      · cases h
        refine Or.inl ⟨hout, ?_⟩
        rw [cell_map_range _ hlt]
        unfold rowSrc
        rw [if_pos ⟨hp, rfl⟩]
    · rw [if_neg hout] at h
      refine Or.inr ⟨hout, ?_⟩
      have hmiss : ¬ (vals.length != tab.cols.length) = true := by
        intro hne
        refine hout (Or.inl ?_)
        unfold pkGiven
        rw [if_pos hne]
        rfl
      have hsrc : (tab.pkGiven vals).getD [] = vals.getD p [] := by
        unfold pkGiven
        rw [if_neg hmiss, hp, Option.bind_some, List.getD_eq_getElem?_getD]
      split at h
      · cases h
      · rename_i heq
        split at heq
        · cases heq
        · cases heq
          split at h
          · cases h
          · cases h
            rw [cell_map_range _ hlt, hsrc]
            unfold rowSrc
            rw [if_neg (fun hand => Bool.false_ne_true hand.2), if_neg (fun hand => hmiss hand.1)]

/-- An INSERT whose id has a successor, and whose PK cell does not read as a larger
integer than the id. -/
def InsOrderly (tab : TabVer) (vals : List Bytes) : Prop :=
  tab.pkIdx.isSome → tab.rows.length < MAX_RECORDS → tab.ValuesFit vals →
    ∀ id ∈ tab.askedId vals, id < LONG_MAX ∧ (¬ tab.PkLeftOut vals →
      ∀ k ∈ parseL (trimUq ((tab.pkGiven vals).getD [])), k ≤ id ∨ k < tab.nextId)

theorem wrapL_of_range {n : Int} (hlo : LONG_MIN ≤ n) (hhi : n ≤ LONG_MAX) : wrapL n = n := by
  unfold wrapL LONG_MIN LONG_MAX at *
  omega

theorem askedId_range (hs : tab.Shape) {id : Int} (h : tab.askedId vals = some id) :
    LONG_MIN ≤ id ∧ id ≤ LONG_MAX := by
  unfold askedId at h
  split at h
  · cases h
    exact hs.nextId
  · exact parseL_range h

theorem counterAfter_eq_max (hs : tab.Shape) {id : Int} (h : tab.askedId vals = some id)
    (hlt : id < LONG_MAX) : tab.counterAfter id = max tab.nextId (id + 1) := by
  have hrange := askedId_range hs h
  have hwrap : wrapL (id + 1) = id + 1 := wrapL_of_range (by omega) (by omega)
  unfold counterAfter
  rw [hwrap]
  split
  · omega
  · omega

theorem insRow_filed {row : Row} {newId : Int} {ok : Bool}
    (h : tab.insRow row newId res = (tab', res', ok)) :
    (tab'.pkIdx = tab.pkIdx ∧ tab'.nextId = tab.nextId) ∧
    ((tab'.rows = tab.rows ∧ tab'.pkTree = tab.pkTree) ∨ tab'.rows = tab.rows ++ [row] ∧
      (tab'.pkTree = tab.pkTree ∨
        bptreeInsert tab.pkTree newId tab.rows.length = some tab'.pkTree)) := by
  unfold insRow at h
  split at h
  · cases h
    exact ⟨⟨rfl, rfl⟩, Or.inl ⟨rfl, rfl⟩⟩
  · split at h
    · cases h
      exact ⟨⟨rfl, rfl⟩, Or.inl ⟨rfl, rfl⟩⟩
    · dsimp only at h
      split at h
      · cases h
        exact ⟨⟨rfl, rfl⟩, Or.inr ⟨rfl, Or.inl rfl⟩⟩
      · rename_i tree htree
        split at h
        · cases h
          exact ⟨⟨rfl, rfl⟩, Or.inr ⟨rfl, Or.inr htree⟩⟩
        · cases h
          exact ⟨⟨rfl, rfl⟩, Or.inr ⟨rfl, Or.inr htree⟩⟩

theorem idsBelow_of_no_pk (h : tab.pkIdx = none) : tab.IdsBelow := by
  refine ⟨fun row _ k hk => ?_, fun hsome => ?_⟩
  · rw [h] at hk
    cases hk
  · rw [h] at hsome
    cases hsome

theorem IdsBelow.counter (h : tab.IdsBelow) {cap slots : Nat} {counter : Int}
    (hle : tab.nextId ≤ counter) :
    IdsBelow { tab with rowCap := cap, slots := slots, nextId := counter } := by
  refine ⟨fun row hrow k hk => ?_, fun hsome => (h.filed hsome).mono le_rfl hle⟩
  have := h.cells row hrow k hk
  dsimp only
  omega

theorem IdsBelow.insRow (h : tab.IdsBelow) {row : Row} {newId : Int} {ok : Bool}
    (hrun : tab.insRow row newId res = (tab', res', ok)) (hid : newId < tab.nextId)
    (hcell : ∀ k, pkVal tab.pkIdx row = some k → k < tab.nextId) : tab'.IdsBelow := by
  obtain ⟨⟨hpk, hnext⟩, hrest⟩ := insRow_filed hrun
  rcases hrest with ⟨hrows, htree⟩ | ⟨hrows, htree⟩
  · exact ⟨by rw [hrows, hpk, hnext]; exact h.cells,
      by rw [hrows, hpk, hnext, htree]; exact h.filed⟩
  · refine ⟨?_, ?_⟩
    · intro r hr k hk
      rw [hrows] at hr
      rw [hpk] at hk
      rw [hnext]
      rcases List.mem_append.1 hr with hr | hr
      · exact h.cells r hr k hk
      · rw [List.mem_singleton.1 hr] at hk
        exact hcell k hk
    · intro hsome
      rw [hpk] at hsome
      rw [hrows, hnext, List.length_append, List.length_singleton]
      rcases htree with htree | htree
      · rw [htree]
        exact (h.filed hsome).mono (by omega) le_rfl
      · exact (h.filed hsome).insert hid htree

theorem IdsBelow.insDo (h : tab.IdsBelow) (hs : tab.Shape)
    (hgood : tab.InsOrderly (splitCsv stmt.rowData.bytes)) {ok : Bool}
    (hrun : tab.insDo stmt res = .ok (tab', res', ok)) : tab'.IdsBelow := by
  cases hp : tab.pkIdx with
  | none =>
      refine idsBelow_of_no_pk ?_
      rw [insDo_same hrun]
      exact hp
  | some p =>
      by_cases hroom : tab.rows.length < MAX_RECORDS
      · have hsome : tab.pkIdx.isSome := by rw [hp]; rfl
        obtain ⟨cap, slots, hbehind⟩ := insDo_behind_room hrun hroom
        by_cases hfit : tab.ValuesFit (splitCsv stmt.rowData.bytes)
        · have hgood := hgood hsome hroom hfit
          have hnew := rowNew_pk hs hfit hsome
          have hcell := fun counter row newId h => @rowNew_pkCell tab
            (splitCsv stmt.rowData.bytes) counter newId row p h hp (hs.pk_lt hp).1
          generalize splitCsv stmt.rowData.bytes = vals at *
          cases hasked : tab.askedId vals with
          | none =>
              rw [hasked] at hnew
              rw [hnew] at hbehind
              rw [hbehind.2]
              exact h.counter le_rfl
          | some id =>
              rw [hasked] at hnew
              obtain ⟨hlt, hread⟩ := hgood id hasked
              have hmax := counterAfter_eq_max hs hasked hlt
              have hle : tab.nextId ≤ tab.counterAfter id := by omega
              rcases hnew with ⟨-, hnew⟩ | ⟨-, row, hnew, -⟩
              · rw [hnew] at hbehind
                rw [hbehind.2]
                exact h.counter hle
              · rw [hnew] at hbehind
                refine (h.counter hle).insRow hbehind (by dsimp only; omega) ?_
                intro k hk
                dsimp only at hk ⊢
                rw [hp] at hk
                have hk : parseL (cell row p) = some k := hk
                rcases hcell _ _ _ hnew with ⟨-, hauto⟩ | ⟨hout, hgiven⟩
                · have hrange := askedId_range hs hasked
                  obtain ⟨htrim, hparse⟩ := parseL_printL hrange.1 hrange.2
                  rw [hauto, htrim, hparse] at hk
                  cases hk
                  omega
                · rw [hgiven] at hk
                  have := hread hout k hk
                  omega
        · rw [rowNew_of_misfit hfit] at hbehind
          rw [hbehind.2]
          exact h.counter le_rfl
      · rw [(insDo_row_limit hrun (Nat.le_of_not_lt hroom)).2]
        exact h

/-- A PK that is left out gets an id no row has. -/
theorem IdsBelow.not_duplicate (h : tab.IdsBelow) (hs : tab.Shape)
    (hout : tab.PkLeftOut (splitCsv stmt.rowData.bytes)) (hres : res.err = none) {ok : Bool}
    (hrun : tab.insDo stmt res = .ok (tab', res', ok)) :
    res'.err ≠ some ⟨.badSql, "duplicate PK"⟩ := by
  have hother : ∀ code msg, msg ≠ "duplicate PK" →
      (res.fail code msg).err ≠ some ⟨.badSql, "duplicate PK"⟩ := by
    intro code msg hmsg herr
    simp only [DbRes.fail, Option.some.injEq, DbErr.mk.injEq] at herr
    exact hmsg herr.2
  have hdup : ∀ counter row newId,
      tab.rowNew (splitCsv stmt.rowData.bytes) = (counter, some (row, newId)) →
      tab.chkDupPk newId = false := by
    intro counter row newId hnew
    unfold chkDupPk
    cases hp : tab.pkIdx with
    | none => rfl
    | some p =>
        have hsome : tab.pkIdx.isSome := by rw [hp]; rfl
        have hasked : tab.askedId (splitCsv stmt.rowData.bytes) = some tab.nextId := if_pos hout
        by_cases hfit : tab.ValuesFit (splitCsv stmt.rowData.bytes)
        · have hspec := rowNew_pk hs hfit hsome
          rw [hasked] at hspec
          rcases hspec with ⟨-, hspec⟩ | ⟨-, row', hspec, -⟩
          · rw [hspec] at hnew
            cases hnew
          · rw [hspec] at hnew
            cases hnew
            rw [(h.filed hsome).search]
            rfl
        · rw [rowNew_of_misfit hfit] at hnew
          cases hnew
  unfold TabVer.insDo at hrun
  dsimp only at hrun
  split at hrun
  · cases hrun
    exact hother _ _ (by decide)
  · split at hrun
    · cases hrun
      exact hother _ _ (by decide)
    · rename_i grown hcap
      have hframe := ensureRowCap_spec hcap
      have hrow : grown.rowNew (splitCsv stmt.rowData.bytes) =
          tab.rowNew (splitCsv stmt.rowData.bytes) := by
        rw [hframe]
        rfl
      split at hrun
      · cases hrun
      · rw [hrow] at hrun
        split at hrun
        · cases hrun
          exact hother _ _ (by decide)
        · rename_i counter row newId hnew
          have hchk : TabVer.chkDupPk { grown with nextId := counter } newId = false := by
            rw [hframe]
            exact hdup counter row newId hnew
          have hrun := Except.ok.inj hrun
          unfold TabVer.insRow at hrun
          rw [if_neg (by rw [hchk]; exact Bool.false_ne_true)] at hrun
          split at hrun
          · cases hrun
            exact hother _ _ (by decide)
          · dsimp only at hrun
            split at hrun
            · cases hrun
              exact hother _ _ (by decide)
            · split at hrun
              · cases hrun
                dsimp only
                rw [hres]
                exact fun h => nomatch h
              · cases hrun
                exact hother _ _ (by decide)

theorem rowNew_counter (hs : tab.Shape) (hroom : tab.rows.length < MAX_RECORDS)
    (hgood : tab.InsOrderly vals) : (tab.rowNew vals).1 = tab.nextId ∨
      ∃ id ∈ tab.askedId vals, (tab.rowNew vals).1 = max tab.nextId (id + 1) := by
  by_cases hfit : tab.ValuesFit vals
  · cases hp : tab.pkIdx with
    | none =>
        left
        rcases rowNew_no_pk hs hfit hp with ⟨-, hnew⟩ | ⟨-, row, hnew, -⟩
        · rw [hnew]
        · rw [hnew]
    | some p =>
        have hsome : tab.pkIdx.isSome := by rw [hp]; rfl
        have hnew := rowNew_pk hs hfit hsome
        have hgood := hgood hsome hroom hfit
        cases hasked : tab.askedId vals with
        | none =>
            rw [hasked] at hnew
            left
            rw [hnew]
        | some id =>
            rw [hasked] at hnew
            right
            refine ⟨id, rfl, ?_⟩
            rw [← counterAfter_eq_max hs hasked (hgood id hasked).1]
            rcases hnew with ⟨-, hnew⟩ | ⟨-, row, hnew, -⟩
            · rw [hnew]
            · rw [hnew]
  · left
    rw [rowNew_of_misfit hfit]

/-! ## Loading -/

/-- The counter behind a row, in the integers. -/
def idAfter (pkIdx : Option Nat) (counter : Int) (row : Row) : Int :=
  match pkVal pkIdx row with
  | none => counter
  | some k => max counter (k + 1)

theorem loadRow_counter {line : Bytes} (h : loadRow tab line = some tab') :
    ∃ row, tab'.rows = tab.rows ++ [row] ∧ tab'.pkIdx = tab.pkIdx ∧
      (pkVal tab.pkIdx row ≠ some LONG_MAX →
        tab'.nextId = idAfter tab.pkIdx tab.nextId row) := by
  have hload := loadRow_spec h
  refine ⟨(splitCsv line).map trimUq, by rw [hload.frame], by rw [hload.frame], ?_⟩
  unfold loadRow at h
  dsimp only at h
  split at h
  · cases h
  · obtain ⟨tab₁, hcap, h⟩ := Option.bind_eq_some_iff.1 h
    obtain ⟨cap, slots, rfl⟩ : ∃ cap slots, tab₁ = { tab with rowCap := cap, slots := slots } :=
      ⟨_, _, ensureRowCap_spec hcap⟩
    dsimp only at h
    unfold idAfter
    cases hp : tab.pkIdx with
    | none =>
        rw [hp] at h
        cases h
        exact fun _ => rfl
    | some p =>
        rw [hp] at h
        obtain ⟨key, hkey, rfl⟩ := Option.map_eq_some_iff.1 h
        have hval : pkVal (some p) ((splitCsv line).map trimUq) = some key := hkey
        rw [hval]
        intro hne
        have hrange := parseL_range hkey
        have hmax : key < LONG_MAX := lt_of_le_of_ne hrange.2 fun heq => hne (by rw [heq])
        have hwrap : wrapL (key + 1) = key + 1 := wrapL_of_range (by omega) (by omega)
        dsimp only
        rw [hwrap]
        split
        · omega
        · omega

theorem loadRows_counter (lines : List Bytes) {tab tab' : TabVer}
    (h : loadRows tab lines = some tab') : ∃ rows, tab'.rows = tab.rows ++ rows ∧
      tab'.pkIdx = tab.pkIdx ∧ ((∀ row ∈ rows, pkVal tab.pkIdx row ≠ some LONG_MAX) →
        tab'.nextId = rows.foldl (idAfter tab.pkIdx) tab.nextId) := by
  induction lines generalizing tab with
  | nil =>
      cases h
      exact ⟨[], by simp, rfl, fun _ => rfl⟩
  | cons line lines ih =>
      rw [loadRows] at h
      split at h
      · exact ih h
      · obtain ⟨tab₁, hrow, h⟩ := Option.bind_eq_some_iff.1 h
        obtain ⟨row, hrows, hpk, hnext⟩ := loadRow_counter hrow
        obtain ⟨rows, hrows', hpk', hnext'⟩ := ih h
        refine ⟨row :: rows, ?_, hpk'.trans hpk, fun hne => ?_⟩
        · rw [hrows', hrows, List.append_assoc, List.singleton_append]
        · rw [hpk] at hnext'
          rw [hnext' fun r hr => hne r (List.mem_cons_of_mem _ hr),
            hnext (hne row List.mem_cons_self), List.foldl_cons]

theorem foldl_idAfter (pkIdx : Option Nat) (rows : List Row) (counter : Int) :
    counter ≤ rows.foldl (idAfter pkIdx) counter ∧
      ∀ row ∈ rows, ∀ k, pkVal pkIdx row = some k → k < rows.foldl (idAfter pkIdx) counter := by
  induction rows generalizing counter with
  | nil => exact ⟨le_rfl, by simp⟩
  | cons row rows ih =>
      obtain ⟨hle, hrows⟩ := ih (idAfter pkIdx counter row)
      have hstep : counter ≤ idAfter pkIdx counter row ∧
          ∀ k, pkVal pkIdx row = some k → k < idAfter pkIdx counter row := by
        unfold idAfter
        cases pkVal pkIdx row with
        | none => exact ⟨le_rfl, fun k hk => nomatch hk⟩
        | some k =>
            dsimp only
            refine ⟨by omega, ?_⟩
            rintro k' ⟨⟩
            omega
      rw [List.foldl_cons]
      refine ⟨hstep.1.trans hle, ?_⟩
      intro r hr k hk
      rcases List.mem_cons.1 hr with rfl | hr
      · exact (hstep.2 k hk).trans_le hle
      · exact hrows r hr k hk

theorem tabLoad_counter {name : Bytes} {file : Option Bytes}
    (h : tabLoad name file = .ok (some tab))
    (hmax : ∀ row ∈ tab.rows, pkVal tab.pkIdx row ≠ some LONG_MAX) :
    tab.nextId = tab.rows.foldl (idAfter tab.pkIdx) 1 ∧ tab.IdsBelow := by
  obtain ⟨bytes, header, lines, hdr, tab₀, tab₁, -, -, -, hrows, hidx, rfl⟩ := tabLoad_cases h
  obtain ⟨rows, hall, hpk, hnext⟩ := loadRows_counter lines hrows
  have hsame := (idxBuild_spec hidx).1
  obtain ⟨hrows₁, hpk₁, -⟩ := hsame.fields
  have hnext₁ : tab₁.nextId = tab₀.nextId := by rw [hsame]
  have hall : tab₀.rows = rows := hall
  dsimp only at hmax ⊢
  rw [hrows₁, hpk₁] at hmax
  rw [hall, hpk] at hmax
  have hcounter := hnext hmax
  have hbelow : ∀ row ∈ tab₀.rows, ∀ k, pkVal tab₀.pkIdx row = some k → k < tab₀.nextId := by
    rw [hall, hpk, hcounter]
    exact (foldl_idAfter _ rows _).2
  have hbuilt := IdsBelow.idxBuild hbelow
  rw [hidx] at hbuilt
  refine ⟨?_, hbuilt.cells, hbuilt.filed⟩
  rw [hrows₁, hpk₁, hnext₁, hall, hpk, hcounter]
  rfl

/-! ## Runs -/

/-- What makes a new version of a table. -/
inductive TabCall
  | clone
  | exec (stmt : Statement)

def tabStep (tab : TabVer) : TabCall → Except Fault TabVer
  | .clone => .ok (tab.tabClone.getD tab)
  | .exec stmt => (tab.execStmt stmt {}).map Prod.fst

def Orderly (tab : TabVer) : TabCall → Prop
  | .clone => True
  | .exec stmt => stmt.type = .insert → tab.InsOrderly (splitCsv stmt.rowData.bytes)

theorem IdsBelow.execStmt (h : tab.IdsBelow) (hs : tab.Shape) {ok : Bool}
    (hgood : stmt.type = .insert → tab.InsOrderly (splitCsv stmt.rowData.bytes))
    (hrun : tab.execStmt stmt res = .ok (tab', res', ok)) : tab'.IdsBelow := by
  unfold TabVer.execStmt at hrun
  split at hrun
  · have htab : tab = tab' := congrArg Prod.fst (Except.ok.inj hrun)
    exact htab ▸ h
  · rename_i htype
    exact h.insDo hs (hgood htype) hrun
  · have hupd := h.updDo stmt res
    rw [Except.ok.inj hrun] at hupd
    exact hupd
  · have hdel := h.delDo stmt res
    rw [Except.ok.inj hrun] at hdel
    exact hdel
  · cases hrun
    exact h

theorem tabStep_idsBelow {call : TabCall} (h : tab.Shape ∧ tab.IdsBelow) (hgood : tab.Orderly call)
    (hstep : tabStep tab call = .ok tab') : tab'.Shape ∧ tab'.IdsBelow := by
  cases call with
  | clone =>
      unfold tabStep at hstep
      cases hc : tab.tabClone with
      | none =>
          rw [hc] at hstep
          cases hstep
          exact h
      | some new =>
          rw [hc] at hstep
          cases hstep
          exact ⟨(h.1.tabClone hc).1, h.2.tabClone hc⟩
  | exec stmt =>
      unfold tabStep at hstep
      dsimp only at hstep
      cases hrun : tab.execStmt stmt {} with
      | error f =>
          rw [hrun] at hstep
          cases hstep
      | ok r =>
          obtain ⟨new, res', ok⟩ := r
          rw [hrun] at hstep
          cases hstep
          exact ⟨(h.1.execStmt hrun).1, h.2.execStmt h.1 hgood hrun⟩

/-- **Generated ids** never collide in a run whose ids all have a successor: the counter
is above every PK, it is computed without overflow, and an INSERT that leaves the PK out
is never refused as a duplicate. -/
theorem auto_ids_free {name : Bytes} {file : Option Bytes} {tab₀ : TabVer}
    (hload : tabLoad name file = .ok (some tab₀))
    (hmax : ∀ row ∈ tab₀.rows, pkVal tab₀.pkIdx row ≠ some LONG_MAX) {calls : List TabCall}
    (hg : Run.Guarded tabStep Orderly tab₀ calls) (hrun : Run.exec tabStep tab₀ calls = .ok tab) :
    tab₀.nextId = tab₀.rows.foldl (idAfter tab₀.pkIdx) 1 ∧
    (∀ row ∈ tab.rows, ∀ k, pkVal tab.pkIdx row = some k → k < tab.nextId) ∧
    (∀ vals, tab.rows.length < MAX_RECORDS → tab.InsOrderly vals →
      (tab.rowNew vals).1 = tab.nextId ∨
        ∃ id ∈ tab.askedId vals, (tab.rowNew vals).1 = max tab.nextId (id + 1)) ∧
    ∀ stmt tab' res' ok, tab.PkLeftOut (splitCsv stmt.rowData.bytes) →
      tab.insDo stmt {} = .ok (tab', res', ok) → res'.err ≠ some ⟨.badSql, "duplicate PK"⟩ := by
  obtain ⟨hcounter, hbelow⟩ := tabLoad_counter hload hmax
  obtain ⟨hs, h⟩ := Run.inv tabStep_idsBelow ⟨(tabLoad_shape hload).1, hbelow⟩ hg hrun
  exact ⟨hcounter, h.cells, fun vals hroom hgood => rowNew_counter hs hroom hgood,
    fun stmt tab' res' ok hout hins => h.not_duplicate hs hout rfl hins⟩

instance (tab : TabVer) (vals : List Bytes) : Decidable (tab.ValuesFit vals) :=
  inferInstanceAs (Decidable (_ ∨ _ ∧ _))

instance (tab : TabVer) (vals : List Bytes) : Decidable (tab.InsOrderly vals) :=
  inferInstanceAs (Decidable (_ → _ → _ → ∀ id ∈ tab.askedId vals, id < LONG_MAX ∧
    (¬ tab.PkLeftOut vals → ∀ k ∈ parseL (trimUq ((tab.pkGiven vals).getD [])),
      k ≤ id ∨ k < tab.nextId)))

instance (tab : TabVer) : (call : TabCall) → Decidable (tab.Orderly call)
  | .clone => isTrue trivial
  | .exec _ => inferInstanceAs (Decidable (_ → _))

/-- A generated id, a copy and an id chosen far above. -/
theorem auto_ids_free_small : ∃ tab₀ ins ins' tab,
    tabLoad (str "t") (some (str "id(PK),v\n1,a\n")) = .ok (some tab₀) ∧
    parseStatement (str "INSERT INTO t VALUES (NULL,b)") = some ins ∧
    parseStatement (str "INSERT INTO t VALUES (40,c)") = some ins' ∧
    Run.exec tabStep tab₀ [.exec ins, .clone, .exec ins'] = .ok tab ∧
    ∀ row ∈ tab.rows, ∀ k, pkVal tab.pkIdx row = some k → k < tab.nextId := by
  obtain ⟨tab₀, hload, htest⟩ := exists_of_loadsAnd (str "t") (str "id(PK),v\n1,a\n")
    (fun tab₀ => (parseStatement (str "INSERT INTO t VALUES (NULL,b)")).any fun ins =>
      (parseStatement (str "INSERT INTO t VALUES (40,c)")).any fun ins' =>
        decide (∀ row ∈ tab₀.rows, pkVal tab₀.pkIdx row ≠ some LONG_MAX) &&
        decide (Run.Guarded tabStep Orderly tab₀ [.exec ins, .clone, .exec ins']) &&
        (Run.exec tabStep tab₀ [.exec ins, .clone, .exec ins']).toBool)
    (by decide +kernel)
  obtain ⟨ins, hins, htest⟩ := (Option.any_eq_true _ _).1 htest
  obtain ⟨ins', hins', htest⟩ := (Option.any_eq_true _ _).1 htest
  obtain ⟨htest, hends⟩ := Bool.and_eq_true_iff.1 htest
  obtain ⟨hmax, hguard⟩ := Bool.and_eq_true_iff.1 htest
  cases hrun : Run.exec tabStep tab₀ [.exec ins, .clone, .exec ins'] with
  | error f =>
      rw [hrun] at hends
      cases hends
  | ok tab =>
      exact ⟨tab₀, ins, ins', tab, hload, hins, hins', hrun,
        (auto_ids_free hload (of_decide_eq_true hmax) (of_decide_eq_true hguard) hrun).2.1⟩

/-- The largest id leaves the counter at the smallest, and an INSERT without an id is
refused. -/
theorem auto_id_collides : ∃ tab stmt tab' res',
    tabLoad (str "t") (some (str "id(PK)\n-9223372036854775808\n9223372036854775807\n")) =
      .ok (some tab) ∧
    parseStatement (str "INSERT INTO t VALUES (NULL)") = some stmt ∧
    (∃ row ∈ tab.rows, pkVal tab.pkIdx row = some LONG_MAX ∧ tab.nextId = LONG_MIN) ∧
    tab.PkLeftOut (splitCsv stmt.rowData.bytes) ∧
    tab.insDo stmt {} = .ok (tab', res', false) ∧
    res'.err = some ⟨.badSql, "duplicate PK"⟩ := by
  obtain ⟨tab, hload, htest⟩ := exists_of_loadsAnd (str "t")
    (str "id(PK)\n-9223372036854775808\n9223372036854775807\n")
    (fun tab => (parseStatement (str "INSERT INTO t VALUES (NULL)")).any fun stmt =>
      decide (∃ row ∈ tab.rows, pkVal tab.pkIdx row = some LONG_MAX ∧ tab.nextId = LONG_MIN) &&
      (decide (tab.PkLeftOut (splitCsv stmt.rowData.bytes)) &&
        match tab.insDo stmt {} with
        | .ok (_, res', ok) => !ok && decide (res'.err = some ⟨.badSql, "duplicate PK"⟩)
        | .error _ => false))
    (by decide +kernel)
  obtain ⟨stmt, hstmt, htest⟩ := (Option.any_eq_true _ _).1 htest
  obtain ⟨hwrapped, htest⟩ := Bool.and_eq_true_iff.1 htest
  obtain ⟨hout, htest⟩ := Bool.and_eq_true_iff.1 htest
  split at htest
  · rename_i tab' res' ok hrun
    obtain ⟨hok, herr⟩ := Bool.and_eq_true_iff.1 htest
    rw [Bool.not_eq_true_eq_eq_false] at hok
    subst hok
    exact ⟨tab, stmt, tab', res', hload, hstmt, of_decide_eq_true hwrapped,
      of_decide_eq_true hout, hrun, of_decide_eq_true herr⟩
  · cases htest

end TabVer

end MiniDbms
