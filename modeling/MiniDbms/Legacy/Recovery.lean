import MiniDbms.Legacy.Csv
import MiniDbms.Legacy.Indexes
import MiniDbms.Legacy.TornLog

/-!
# Recovery from the CSV file and the delta log

Without an `.idx` file the slots are filled from the CSV file and the log is
replayed on them before there are any indexes.
-/

namespace MiniDbms.Legacy

open Bptree

/-! ## What recovery is for -/

def DeltaOp.id : DeltaOp → Int
  | .update id _ => id
  | .delete id => id

/-- An operation on the rows of a table, each with its key. -/
def DeltaOp.onRows (rows : List (Int × Bytes)) : DeltaOp → List (Int × Bytes)
  | .update id row => rows.map fun e => if e.1 = id then (id, row) else e
  | .delete id => rows.filter (·.1 ≠ id)

def applyToRows (ops : List DeltaOp) (rows : List (Int × Bytes)) : List (Int × Bytes) :=
  ops.foldl DeltaOp.onRows rows

/-- The active rows with their keys. -/
def TableCache.keyedRows (tc : TableCache) : List (Option Int × Bytes) :=
  tc.rows.map fun e => (tc.rowIndexKey e.2 e.1, e.2)

/-- The operations of the batches whose last line was written. -/
def Session.ops (session : Session) : List DeltaOp := session.committed.flatten

/-- Loading succeeds, with the rows of the file after the committed operations and with
indexes of exactly these. -/
def Recovers (csv : CsvFile) (session : Session) : Prop :=
  ∃ tc, loadTableContents csv.bytes (some session.output) = some tc ∧
    tc.keyedRows.Perm ((applyToRows session.ops csv.keyed).map fun e => (some e.1, e.2)) ∧
    tc.IndexesExact

/-- No committed operation names a row that is loaded into a slot, and each of the rows
that do not fit there is deleted. -/
def Untouched (csv : CsvFile) (session : Session) : Prop :=
  (∀ op ∈ session.ops, ∀ e ∈ csv.keyed.take MAX_RECORDS, op.id ≠ e.1) ∧
    ∀ e ∈ csv.keyed.drop MAX_RECORDS, DeltaOp.delete e.1 ∈ session.ops

theorem applyToRows_append (ops : List DeltaOp) : ∀ rows rows' : List (Int × Bytes),
    applyToRows ops (rows ++ rows') = applyToRows ops rows ++ applyToRows ops rows' := by
  induction ops with
  | nil => exact fun _ _ => rfl
  | cons op ops ih =>
      intro rows rows'
      have hop : op.onRows (rows ++ rows') = op.onRows rows ++ op.onRows rows' := by
        cases op with
        | update id row => exact List.map_append
        | delete id => exact List.filter_append ..
      simp only [applyToRows, List.foldl_cons] at ih ⊢
      rw [hop]
      exact ih _ _

theorem applyToRows_of_unnamed {ops : List DeltaOp} {rows : List (Int × Bytes)}
    (h : ∀ op ∈ ops, ∀ e ∈ rows, op.id ≠ e.1) : applyToRows ops rows = rows := by
  induction ops with
  | nil => rfl
  | cons op ops ih =>
      have hop : op.onRows rows = rows := by
        cases op with
        | update key row =>
            have hne : ∀ e ∈ rows, key ≠ e.1 := h _ List.mem_cons_self
            refine (List.map_congr_left fun e he => ?_).trans (List.map_id rows)
            rw [if_neg (hne e he).symm]
            rfl
        | delete key =>
            have hne : ∀ e ∈ rows, key ≠ e.1 := h _ List.mem_cons_self
            refine List.filter_eq_self.2 fun e he => ?_
            rw [decide_eq_true_eq]
            exact (hne e he).symm
      have hrest := ih fun op hop => h op (List.mem_cons_of_mem _ hop)
      simp only [applyToRows, List.foldl_cons] at hrest ⊢
      rw [hop, hrest]

theorem applyToRows_eq_nil {ops : List DeltaOp} : ∀ {rows : List (Int × Bytes)},
    applyToRows ops rows = [] ↔ ∀ e ∈ rows, DeltaOp.delete e.1 ∈ ops := by
  induction ops with
  | nil =>
      intro rows
      simp only [applyToRows, List.foldl_nil, List.not_mem_nil, List.eq_nil_iff_forall_not_mem]
  | cons op ops ih =>
      intro rows
      simp only [applyToRows, List.foldl_cons] at ih ⊢
      rw [ih]
      cases op with
      | update key row =>
          have hkey : ∀ e : Int × Bytes, (if e.1 = key then (key, row) else e).1 = e.1 := by
            intro e
            split
            · rename_i he
              exact he.symm
            · rfl
          rw [DeltaOp.onRows, List.forall_mem_map]
          refine forall₂_congr fun e _ => ?_
          rw [hkey]
          simp
      | delete key =>
          simp only [DeltaOp.onRows, List.mem_filter, decide_eq_true_eq, List.mem_cons,
            DeltaOp.delete.injEq]
          refine forall_congr' fun e => ?_
          by_cases he : e.1 = key <;> simp [he]

/-! ## A table without indexes -/

/-- The keys of rows that fill the slots from the first one on. -/
def slotKeys (schema : Schema) (texts : List Bytes) : List Int :=
  texts.zipIdx.map fun e => rowKey schema e.1 e.2

/-- A table whose slots have been filled and whose id index has not been built. -/
structure Bare (tc : TableCache) (texts : List Bytes) : Prop where
  idIndex : tc.idIndex = create Int
  rows : tc.rows = texts.zipIdx.map fun e => (e.2, e.1)
  keys : ∀ e ∈ texts.zipIdx, tc.rowIndexKey e.1 e.2 = some (rowKey tc.schema e.1 e.2)

namespace Bare

variable {tc : TableCache} {texts : List Bytes}

theorem holds_nothing (h : Bare tc texts) : Holds tc.idIndex fun _ => none := by
  rw [h.idIndex]
  exact Holds.of_toList_nil BPlusTree.create_ok rfl

theorem find (h : Bare tc texts) (id : Int) :
    match tc.findRecordIndexByKey id with
    | none => id ∉ slotKeys tc.schema texts
    | some i => id ∈ slotKeys tc.schema texts ∧
        ∃ row, tc.slotRow i = some row ∧ tc.rowIndexKey row i = some id := by
  have hsearch : (search tc.idIndex id).filter tc.slotIsActive = none := by
    rw [h.holds_nothing.search_eq]
    rfl
  have hmem : ∀ i row, (i, row) ∈ tc.rows ↔ (row, i) ∈ texts.zipIdx := by
    intro i row
    rw [h.rows]
    simp
  unfold TableCache.findRecordIndexByKey
  rw [hsearch]
  simp only
  cases hfind : tc.rows.find? fun e => decide (tc.rowIndexKey e.2 e.1 = some id) with
  | none =>
      rw [Option.map_none]
      intro hid
      obtain ⟨e, he, hkey⟩ := List.mem_map.1 hid
      have hne := List.find?_eq_none.1 hfind (e.2, e.1) ((hmem e.2 e.1).2 he)
      rw [decide_eq_true_eq, h.keys e he, hkey] at hne
      exact hne rfl
  | some e =>
      have hin := List.mem_of_find?_eq_some hfind
      have hkey := List.find?_some hfind
      rw [decide_eq_true_eq] at hkey
      refine ⟨?_, e.2, TableCache.mem_rows.1 hin, hkey⟩
      have he := (hmem e.1 e.2).1 hin
      have hrow := h.keys (e.2, e.1) he
      rw [hkey, Option.some_inj] at hrow
      exact List.mem_map.2 ⟨(e.2, e.1), he, hrow.symm⟩

/-- The old row of a slot cannot be taken out of the id index. -/
theorem dropOldRow (h : Bare tc texts) {i : Nat} {row : Bytes} (hrow : tc.slotRow i = some row) :
    tc.dropOldRow i = none := by
  have hdelete : ∀ id, bptreeDelete tc.idIndex id = none := by
    intro id
    have hspec := h.holds_nothing.delete id
    unfold bptreeDelete
    cases hdel : Bptree.delete tc.idIndex id with
    | none => rfl
    | some tree =>
        rw [hdel] at hspec
        exact absurd hspec.1 (by simp)
  unfold TableCache.dropOldRow TableCache.removeRecordIndexes
  rw [hrow]
  simp only
  cases tc.rowIndexKey row i with
  | none => rfl
  | some id =>
      simp only [hdelete]
      rfl

/-- An operation of a row that is there fails, any other one is skipped. -/
theorem applyDeltaOp (h : Bare tc texts) (op : DeltaOp) :
    tc.applyDeltaOp op = if op.id ∈ slotKeys tc.schema texts then none else some tc := by
  have hfind := h.find op.id
  cases op with
  | update id row =>
      simp only [TableCache.applyDeltaOp, DeltaOp.id] at hfind ⊢
      cases hresult : tc.findRecordIndexByKey id with
      | none =>
          rw [hresult] at hfind
          exact (if_neg hfind).symm
      | some i =>
          rw [hresult] at hfind
          obtain ⟨hid, old, hold, -⟩ := hfind
          simp only
          rw [h.dropOldRow hold]
          exact (if_pos hid).symm
  | delete id =>
      simp only [TableCache.applyDeltaOp, DeltaOp.id] at hfind ⊢
      cases hresult : tc.findRecordIndexByKey id with
      | none =>
          rw [hresult] at hfind
          exact (if_neg hfind).symm
      | some i =>
          rw [hresult] at hfind
          obtain ⟨hid, old, hold, -⟩ := hfind
          simp only
          rw [h.dropOldRow hold]
          exact (if_pos hid).symm

theorem applyBatches (h : Bare tc texts) (batches : List (List DeltaOp)) :
    batches.foldlM TableCache.applyDeltaOps tc =
      if ∃ op ∈ batches.flatten, op.id ∈ slotKeys tc.schema texts then none else some tc := by
  have hbatch : ∀ ops, tc.applyDeltaOps ops =
      if ∃ op ∈ ops, op.id ∈ slotKeys tc.schema texts then none else some tc :=
    foldlM_guard h.applyDeltaOp
  rw [foldlM_guard hbatch]
  refine if_congr ?_ rfl rfl
  constructor
  · rintro ⟨ops, hops, op, hop, hid⟩
    exact ⟨op, List.mem_flatten.2 ⟨ops, hops, hop⟩, hid⟩
  · rintro ⟨op, hop, hid⟩
    obtain ⟨ops, hops, hop⟩ := List.mem_flatten.1 hop
    exact ⟨ops, hops, op, hop, hid⟩

theorem idPairs (h : Bare tc texts) :
    tc.idPairs = some (texts.zipIdx.map fun e => (rowKey tc.schema e.1 e.2, e.2)) := by
  unfold TableCache.idPairs
  rw [h.rows, List.mapM_map]
  refine mapM_of_forall fun e he => ?_
  simp only [Function.comp_apply]
  rw [h.keys e he]
  rfl

theorem ukPairs_keys (h : Bare tc texts) (col : Nat) :
    (tc.ukPairs col).map Prod.fst = (texts.map (ukKey · col)).filter (· ≠ []) := by
  have htexts : texts = texts.zipIdx.map Prod.fst := by simp
  unfold TableCache.ukPairs
  rw [h.rows]
  conv_rhs => rw [htexts]
  generalize texts.zipIdx = pairs
  induction pairs with
  | nil => rfl
  | cons e pairs ih =>
      rw [List.map_cons, List.map_cons, List.map_cons]
      by_cases hkey : ukKey e.1 col = []
      · rw [List.filterMap_cons_none (by simp only [if_pos hkey]),
          List.filter_cons_of_neg (by simp [hkey])]
        exact ih
      · rw [List.filterMap_cons_some (b := (ukKey e.1 col, e.2)) (by simp only [if_neg hkey]),
          List.filter_cons_of_pos (by simp [hkey]), List.map_cons, ih]

theorem keyedRows (h : Bare tc texts) :
    tc.keyedRows = texts.zipIdx.map fun e => (some (rowKey tc.schema e.1 e.2), e.1) := by
  unfold TableCache.keyedRows
  rw [h.rows, List.map_map]
  refine List.map_congr_left fun e he => ?_
  simp only [Function.comp_apply]
  rw [h.keys e he]

end Bare

/-! ## Loading -/

theorem replay_session {session : Session} (hops : session.Writable)
    (hend : Untorn [] [session]) {σ : Type} (apply : σ → List DeltaOp → Option σ) (s : σ) :
    replayDeltaLog apply session.output s = session.committed.foldlM apply s := by
  have hwritable : ∀ session' ∈ [session], session'.Writable := by
    intro session' hmem
    rw [List.mem_singleton.1 hmem]
    exact hops
  obtain ⟨⟨lines, last, hwritten⟩, hlast⟩ := written_log [session] Written.nil hwritable hend
  have hlog : [] ++ logOf [session] = session.output := by
    simp [logOf]
  have hdone : [] ++ [session].flatMap Session.committed = session.committed := by
    simp
  rw [hlog, hdone] at hwritten
  rw [hlog] at hlast
  exact hwritten.replayDeltaLog hlast apply s

section Loading

variable {csv : CsvFile}

theorem CsvFile.WellFormed.bare (h : csv.WellFormed) {scan : Scan}
    (hscan : Scanned csv.bytes csv.placed scan) : Bare scan.tc (csv.rows.take MAX_RECORDS) := by
  have hschema : scan.tc.schema = csv.schema := hscan.schema.trans h.schema_eq
  have htexts : (csv.rows.take MAX_RECORDS).zipIdx =
      (csv.placed.take MAX_RECORDS).zipIdx.map fun e => (e.1.2, e.2) := by
    rw [← csv.placed_rows, ← List.map_take, List.zipIdx_map]
    rfl
  have hfound : ∀ e ∈ (csv.placed.take MAX_RECORDS).zipIdx, e.1 ∈ csv.placed := by
    intro e he
    exact List.mem_of_mem_take (List.mem_of_getElem? (List.mem_zipIdx_iff_getElem?.1 he))
  have hrows : ∀ e ∈ (csv.rows.take MAX_RECORDS).zipIdx, e.1 ∈ csv.rows := by
    intro e he
    exact List.mem_of_mem_take (List.mem_of_getElem? (List.mem_zipIdx_iff_getElem?.1 he))
  constructor
  case idIndex => exact hscan.idIndex
  case rows =>
    unfold TableCache.rows
    rw [hscan.slots, loadedSlots, zipIdx_map_zipIdx, List.filterMap_map, htexts, List.map_map,
      ← List.filterMap_eq_map]
    refine List.filterMap_congr fun e he => ?_
    simp only [Function.comp_apply, Slot.row, hscan.file, if_true, true_and]
    rw [if_pos (Int.natCast_nonneg _), Int.toNat_natCast, h.rowAt e.1 (hfound e he)]
    rfl
  case keys =>
    intro e he
    unfold TableCache.rowIndexKey rowKey
    rw [hschema]
    cases hpk : csv.schema.pkIdx with
    | some pk =>
        obtain ⟨id, hid⟩ := Option.isSome_iff_exists.1 (h.ids e.1 (hrows e he) pk hpk)
        simp only [hid, Option.getD_some]
    | none =>
        rw [htexts] at he
        obtain ⟨e', he', rfl⟩ := List.mem_map.1 he
        have hslot : scan.tc.slots[e'.2]? = some
            { active := true, rowId := e'.2 + 1, store := .csv, offset := e'.1.1 } := by
          rw [hscan.slots, loadedSlots, List.getElem?_map, List.getElem?_zipIdx,
            List.mem_zipIdx_iff_getElem?.1 he']
          simp
        simp only [hslot, Option.map_some]
        rw [Option.filter_some, if_pos]
        rw [decide_eq_true_eq]
        omega

theorem keyed_take (csv : CsvFile) : csv.keyed.take MAX_RECORDS =
    (csv.rows.take MAX_RECORDS).zipIdx.map fun e => (rowKey csv.schema e.1 e.2, e.1) := by
  rw [CsvFile.keyed, ← List.map_take]
  congr 1
  apply List.ext_getElem?
  intro i
  simp only [List.getElem?_take, List.getElem?_zipIdx]
  split <;> simp

theorem slotKeys_take (csv : CsvFile) :
    slotKeys csv.schema (csv.rows.take MAX_RECORDS) = (csv.keyed.take MAX_RECORDS).map Prod.fst := by
  rw [keyed_take, List.map_map]
  rfl

/-- The scanned table is empty only for a file without rows. -/
theorem Scanned.empty_iff {scan : Scan} (hscan : Scanned csv.bytes csv.placed scan) :
    (scan.tc.activeCount = 0 ∧ scan.tc.tail = []) ↔ csv.rows = [] := by
  have hcount := activeCount_loaded hscan.slots
  have hlen : csv.placed.length = csv.rows.length := by
    rw [← csv.placed_rows, List.length_map]
  constructor
  · rintro ⟨hzero, -⟩
    rw [hcount, hlen] at hzero
    have hmax : 0 < MAX_RECORDS := by decide
    exact List.length_eq_zero_iff.1 (by omega)
  · intro hnil
    have hdone : csv.placed = [] := by
      rw [← List.length_eq_zero_iff, hlen, hnil]
      rfl
    refine ⟨?_, hscan.tail hdone⟩
    rw [hcount, hdone]
    rfl

theorem CsvFile.WellFormed.rebuild (h : csv.WellFormed) {scan : Scan}
    (hscan : Scanned csv.bytes csv.placed scan) :
    ∃ tc, scan.tc.rebuildIdIndex.bind TableCache.rebuildUkIndexes = some tc ∧
      tc.keyedRows = scan.tc.keyedRows ∧ tc.IndexesExact := by
  have hbare := h.bare hscan
  have hschema : scan.tc.schema = csv.schema := hscan.schema.trans h.schema_eq
  have hid : ((((csv.rows.take MAX_RECORDS).zipIdx.map fun e =>
      (rowKey scan.tc.schema e.1 e.2, e.2))).map Prod.fst).Nodup := by
    have hkeys := slotKeys_take csv
    rw [List.map_map, hschema]
    change (slotKeys csv.schema _).Nodup
    rw [hkeys]
    exact h.distinct.sublist ((List.take_sublist _ _).map _)
  have huk : ∀ index ∈ scan.tc.ukIndexes,
      ((scan.tc.ukPairs index.colIdx).map Prod.fst).Nodup := by
    intro index hindex
    rw [hbare.ukPairs_keys]
    rw [hscan.ukIndexes] at hindex
    obtain ⟨col, hcol, rfl⟩ := List.mem_map.1 hindex
    have hcol' : col ∈ csv.schema.ukIndices := h.schema_eq ▸ hcol
    exact (h.uks col hcol').sublist (((List.take_sublist _ _).map _).filter _)
  have hcols : scan.tc.ukIndexes.map UniqueIndex.colIdx = scan.tc.schema.ukIndices := by
    rw [hscan.ukIndexes, hscan.schema]
    simp [openTable, Function.comp_def]
  obtain ⟨tree, next, ukIndexes, hbuild, hexact⟩ :=
    TableCache.rebuild_exact hbare.idPairs hid huk hcols
  exact ⟨_, hbuild, rfl, hexact⟩

theorem raiseAutoId_exact {tc : TableCache} (h : tc.IndexesExact) (next : Int) :
    (tc.raiseAutoId next).IndexesExact := ⟨h.id, h.cols, h.uk⟩

theorem Bare.exact_of_nil {tc : TableCache} (h : Bare tc []) {cols : List Nat}
    (huks : tc.ukIndexes = cols.map fun col => ⟨col, create Bytes⟩)
    (hcols : tc.schema.ukIndices = cols) : tc.IndexesExact := by
  have hrow : ∀ i row, tc.slotRow i ≠ some row := by
    intro i row hslot
    have hmem := TableCache.mem_rows.2 hslot
    rw [h.rows] at hmem
    exact absurd hmem List.not_mem_nil
  refine ⟨⟨_, h.holds_nothing.isMap, fun id i => ?_⟩, ?_, ?_⟩
  · exact iff_of_false (by simp) fun ⟨row, hslot, _⟩ => hrow i row hslot
  · rw [huks, hcols]
    simp [Function.comp_def]
  · intro index hindex
    rw [huks] at hindex
    obtain ⟨col, -, rfl⟩ := List.mem_map.1 hindex
    refine ⟨_, (Holds.of_toList_nil BPlusTree.create_ok rfl).isMap, fun key i => ?_⟩
    exact iff_of_false (by simp) fun ⟨_, row, hslot, _⟩ => hrow i row hslot

theorem CsvFile.keyed_split (csv : CsvFile) :
    csv.keyed = csv.keyed.take MAX_RECORDS ++ csv.keyed.drop MAX_RECORDS :=
  (List.take_append_drop ..).symm

/-- **Recovery works exactly where the log does nothing to a loaded row.** -/
theorem recovers_iff {session : Session} (h : csv.WellFormed) (hops : session.Writable)
    (hend : Untorn [] [session]) : Recovers csv session ↔ Untouched csv session := by
  obtain ⟨scan, hscanTable, hscan⟩ := h.scan
  have hbare := h.bare hscan
  have hschema : scan.tc.schema = csv.schema := hscan.schema.trans h.schema_eq
  have hload : loadTableContents csv.bytes (some session.output) =
      if csv.rows = [] then some (scan.tc.raiseAutoId scan.fileNextAutoId)
      else (session.committed.foldlM TableCache.applyDeltaOps scan.tc).bind fun tc =>
        (tc.rebuildIdIndex.bind TableCache.rebuildUkIndexes).map
          (·.raiseAutoId scan.fileNextAutoId) := by
    unfold loadTableContents
    rw [Option.isSome_some, hscanTable]
    simp only [Option.bind_eq_bind, Option.bind_some, replay_session hops hend]
    refine (if_congr hscan.empty_iff rfl ?_)
    refine congrArg _ (funext fun tc => ?_)
    cases tc.rebuildIdIndex with
    | none => rfl
    | some tc' =>
        rw [Option.bind_some, Option.bind_some]
        cases tc'.rebuildUkIndexes <;> rfl
  have hnames : (∃ op ∈ session.committed.flatten,
      op.id ∈ slotKeys scan.tc.schema (csv.rows.take MAX_RECORDS)) ↔
      ¬ ∀ op ∈ session.ops, ∀ e ∈ csv.keyed.take MAX_RECORDS, op.id ≠ e.1 := by
    rw [hschema, slotKeys_take]
    simp only [Session.ops, List.mem_map]
    constructor
    · rintro ⟨op, hop, e, he, hid⟩ hall
      exact hall op hop e he hid.symm
    · intro hnot
      by_contra hnone
      refine hnot fun op hop e he hid => hnone ⟨op, hop, e, he, hid.symm⟩
  have hrows : scan.tc.keyedRows = (csv.keyed.take MAX_RECORDS).map fun e => (some e.1, e.2) := by
    rw [hbare.keyedRows, keyed_take, hschema, List.map_map]
    rfl
  by_cases hnil : csv.rows = []
  · have hkeyed : csv.keyed = [] := by
      rw [CsvFile.keyed, hnil]
      rfl
    have huntouched : Untouched csv session := by
      refine ⟨fun op _ e he => ?_, fun e he => ?_⟩
      · rw [hkeyed] at he
        exact absurd he (by simp)
      · rw [hkeyed] at he
        exact absurd he (by simp)
    refine iff_of_true ⟨_, hload.trans (if_pos hnil), ?_, raiseAutoId_exact ?_ _⟩ huntouched
    · change scan.tc.keyedRows.Perm _
      rw [hrows, hkeyed, List.take_nil, applyToRows_eq_nil.2 fun e he => absurd he List.not_mem_nil]
    · rw [hnil, List.take_nil] at hbare
      refine hbare.exact_of_nil ?_ (congrArg Schema.ukIndices hschema)
      rw [hscan.ukIndexes, ← h.schema_eq]
      rfl
  · rw [if_neg hnil, hbare.applyBatches] at hload
    obtain ⟨tc, hrebuild, hsame, hexact⟩ := h.rebuild hscan
    constructor
    · rintro ⟨tc', htc', hperm, -⟩
      rw [hload] at htc'
      have hfree : ∀ op ∈ session.ops, ∀ e ∈ csv.keyed.take MAX_RECORDS, op.id ≠ e.1 := by
        by_contra hnamed
        rw [if_pos (hnames.2 hnamed)] at htc'
        exact absurd htc' (by simp)
      refine ⟨hfree, applyToRows_eq_nil.1 ?_⟩
      rw [if_neg fun hnamed => hnames.1 hnamed hfree, Option.bind_some, hrebuild, Option.map_some,
        Option.some_inj] at htc'
      have hkept : tc'.keyedRows = scan.tc.keyedRows := by
        rw [← htc']
        exact hsame
      rw [hkept, hrows, csv.keyed_split, applyToRows_append, ← csv.keyed_split,
        applyToRows_of_unnamed hfree] at hperm
      have hlen := hperm.length_eq
      rw [List.length_map, List.length_map, List.length_append] at hlen
      exact List.length_eq_zero_iff.1 (by omega)
    · rintro ⟨hfree, htail⟩
      rw [if_neg fun hnamed => hnames.1 hnamed hfree, Option.bind_some, hrebuild,
        Option.map_some] at hload
      refine ⟨_, hload, ?_, raiseAutoId_exact hexact _⟩
      change tc.keyedRows.Perm _
      rw [hsame, hrows, csv.keyed_split, applyToRows_append, ← csv.keyed_split,
        applyToRows_of_unnamed hfree, applyToRows_eq_nil.2 htail, List.append_nil]

end Loading

/-! ## A row and its update -/

/-- A table with one row. -/
def oneRow : CsvFile := { header := ⟨str "id(PK),name", false⟩, lines := [⟨str "1,a", false⟩] }

/-- A log that updates this row, of which the first `cut` bytes were written. -/
def updateOne (cut : Nat) : Session := ⟨[[.update 1 (str "1,b")]], cut⟩

theorem oneRow_wellFormed : oneRow.WellFormed where
  fine := by
    intro line hline
    simp only [oneRow, List.cons_append, List.nil_append, List.mem_cons, List.not_mem_nil,
      or_false] at hline
    obtain rfl | rfl | rfl := hline <;> exact ⟨of_lineChars rfl, by decide⟩
  ids := by
    intro row hrow pk hpk
    have hrows : oneRow.rows = [str "1,a"] := by decide +kernel
    have hschema : oneRow.schema.pkIdx = some 0 := by decide +kernel
    rw [hrows, List.mem_singleton] at hrow
    rw [hschema, Option.mem_some_iff] at hpk
    rw [hrow, ← hpk]
    decide +kernel
  distinct := by decide +kernel
  uks := by
    intro col hcol
    have hschema : oneRow.schema.ukIndices = [] := by decide +kernel
    rw [hschema] at hcol
    exact absurd hcol List.not_mem_nil

theorem updateOne_writable (cut : Nat) : (updateOne cut).Writable := by
  intro ops hops op hop
  rw [List.mem_singleton.1 hops] at hop
  rw [List.mem_singleton.1 hop]
  exact ⟨by decide, by decide, of_lineChars rfl⟩

/-- A log that deletes a row that is not there, and then starts the update. -/
def deleteThenUpdate : Session := ⟨[[.delete 2], [.update 1 (str "1,b")]], 14⟩

theorem deleteThenUpdate_writable : deleteThenUpdate.Writable := by
  intro ops hops op hop
  simp only [deleteThenUpdate, List.mem_cons, List.not_mem_nil, or_false] at hops
  obtain rfl | rfl := hops
  · rw [List.mem_singleton.1 hop]
    exact ⟨by decide, by decide⟩
  · rw [List.mem_singleton.1 hop]
    exact ⟨by decide, by decide, of_lineChars rfl⟩

/-- The delete is committed and finds nothing, the update is torn: the row is loaded as
the file has it. -/
theorem recovers_torn_update : oneRow.WellFormed ∧ deleteThenUpdate.Writable ∧
    Untorn [] [deleteThenUpdate] ∧ deleteThenUpdate.ops = [.delete 2] ∧
    Recovers oneRow deleteThenUpdate := by
  have hend : Untorn [] [deleteThenUpdate] := by
    refine ⟨Or.inr (Or.inl rfl), ?_⟩
    rintro ⟨front, hfront⟩
    have hlast := congrArg List.getLast? hfront
    have htab : ([] ++ deleteThenUpdate.output).getLast? = some 9 := by decide +kernel
    rw [htab] at hlast
    simp at hlast
  have hops : deleteThenUpdate.ops = [.delete 2] := by decide +kernel
  refine ⟨oneRow_wellFormed, deleteThenUpdate_writable, hend, hops,
    (recovers_iff oneRow_wellFormed deleteThenUpdate_writable hend).2 ?_⟩
  refine ⟨fun op hop e he => ?_, fun e he => ?_⟩
  · have hkeyed : oneRow.keyed.take MAX_RECORDS = [(1, str "1,a")] := by decide +kernel
    rw [hops, List.mem_singleton] at hop
    rw [hkeyed, List.mem_singleton] at he
    rw [hop, he]
    decide
  · have hdrop : oneRow.keyed.drop MAX_RECORDS = [] := by decide +kernel
    rw [hdrop] at he
    exact absurd he List.not_mem_nil

/-- The update is committed: the table cannot be loaded. -/
theorem not_recovers_update : oneRow.WellFormed ∧ (updateOne 12).Writable ∧
    Untorn [] [updateOne 12] ∧
    loadTableContents oneRow.bytes (some (updateOne 12).output) = none ∧
    ¬ Recovers oneRow (updateOne 12) := by
  have hend : Untorn [] [updateOne 12] := by
    refine ⟨Or.inr (Or.inl rfl), ?_⟩
    rintro ⟨front, hfront⟩
    have hlast := congrArg List.getLast? hfront
    have hfeed : ([] ++ (updateOne 12).output).getLast? = some 10 := by decide +kernel
    rw [hfeed] at hlast
    simp at hlast
  have hload : loadTableContents oneRow.bytes (some (updateOne 12).output) = none := by
    rw [← Option.isNone_iff_eq_none]
    decide +kernel
  refine ⟨oneRow_wellFormed, updateOne_writable 12, hend, hload, ?_⟩
  rintro ⟨tc, htc, -⟩
  rw [hload] at htc
  exact absurd htc (by simp)

end MiniDbms.Legacy
