import MiniDbms.Db.Csv
import MiniDbms.Db.Index
import MiniDbms.Db.Number
import Mathlib.Data.Nat.Prime.Basic

/-!
# What every table version has in common

`Shape` holds of every version the engine ever makes, also of the working copy of
a transaction after a statement failed.  `Sound` adds the column constraints and
the indexes, and is kept by statements that succeed.
-/

namespace MiniDbms

open Bptree

/-! ## Columns -/

def colTypeAt (cols : List ColumnInfo) (i : Nat) : ColumnType :=
  ((cols[i]?).map (·.type)).getD .normal

/-- The columns of one type. -/
def colsOf (type : ColumnType) (cols : List ColumnInfo) : List Nat :=
  (List.range cols.length).filter fun i => colTypeAt cols i == type

theorem colTypeAt_append_left {cols : List ColumnInfo} (col : ColumnInfo) {i : Nat}
    (hi : i < cols.length) : colTypeAt (cols ++ [col]) i = colTypeAt cols i := by
  unfold colTypeAt
  rw [List.getElem?_append_left hi]

theorem colTypeAt_append_length (cols : List ColumnInfo) (col : ColumnInfo) :
    colTypeAt (cols ++ [col]) cols.length = col.type := by
  simp [colTypeAt]

theorem colsOf_append (type : ColumnType) (cols : List ColumnInfo) (col : ColumnInfo) :
    colsOf type (cols ++ [col]) =
      colsOf type cols ++ if col.type = type then [cols.length] else [] := by
  unfold colsOf
  rw [List.length_append, List.length_singleton, List.range_succ, List.filter_append]
  congr 1
  · refine List.filter_congr fun i hi => ?_
    rw [colTypeAt_append_left col (List.mem_range.1 hi)]
  · by_cases h : col.type = type <;> simp [colTypeAt_append_length, h]

theorem mem_colsOf {type : ColumnType} {cols : List ColumnInfo} {i : Nat} :
    i ∈ colsOf type cols ↔ i < cols.length ∧ colTypeAt cols i = type := by
  simp [colsOf]

/-! ## The header -/

/-- The schema fields agree with the columns. -/
structure Hdr.Ok (hdr : Hdr) : Prop where
  pkIdx : hdr.pkIdx = (colsOf .pk hdr.cols).getLast?
  ukIdx : hdr.ukIdx = colsOf .uk hdr.cols
  uks_le : hdr.ukIdx.length ≤ MAX_UKS
  names : ∀ col ∈ hdr.cols, lparen ∉ col.name.bytes

/-- The column a field of the header line stands for. -/
def hdrCol (field : Bytes) : ColumnInfo where
  name := strncpy 49 ((trimUq field).takeWhile (· != lparen))
  type :=
    let tag := (trimUq field).dropWhile (· != lparen)
    if strstr tag (str "(PK)") then .pk
    else if strstr tag (str "(UK)") then .uk
    else if strstr tag (str "(NN)") then .nn
    else .normal

theorem hdrStep_spec {hdr hdr' : Hdr} {field : Bytes} (h : hdrStep hdr field = .ok hdr') :
    hdr'.cols = hdr.cols ++ [hdrCol field] ∧
    hdr'.pkIdx = (if (hdrCol field).type = .pk then some hdr.cols.length else hdr.pkIdx) ∧
    hdr'.ukIdx = hdr.ukIdx ++ (if (hdrCol field).type = .uk then [hdr.cols.length] else []) ∧
    ((hdrCol field).type = .uk → hdr.ukIdx.length < MAX_UKS) := by
  unfold hdrStep at h
  unfold hdrCol
  dsimp only at h ⊢
  split at h
  · rename_i hpk
    cases h
    simp [hpk]
  · rename_i hpk
    split at h
    · rename_i huk
      split at h
      · cases h
      · cases h
        simp_all
    · rename_i huk
      split at h
      · rename_i hnn
        cases h
        simp [hpk, huk, hnn]
      · rename_i hnn
        cases h
        simp [hpk, huk, hnn]

theorem lparen_not_mem_name (field : Bytes) : lparen ∉ (hdrCol field).name.bytes := by
  intro h
  have h' : lparen ∈ (trimUq field).takeWhile (· != lparen) :=
    (List.takeWhile_sublist _).subset (List.mem_of_mem_take h)
  have := List.mem_takeWhile_imp h'
  simp at this

theorem hdrStep_keeps_ok {hdr hdr' : Hdr} {field : Bytes} (hok : hdr.Ok)
    (h : hdrStep hdr field = .ok hdr') : hdr'.Ok := by
  obtain ⟨hcols, hpk, huk, hroom⟩ := hdrStep_spec h
  constructor
  · rw [hpk, hcols, colsOf_append]
    split
    · simp
    · rw [List.append_nil]
      exact hok.pkIdx
  · rw [huk, hcols, colsOf_append, hok.ukIdx]
  · rw [huk, List.length_append]
    split
    · rename_i ht
      have := hroom ht
      simp only [List.length_singleton]
      omega
    · exact hok.uks_le
  · intro col hcol
    rw [hcols] at hcol
    rcases List.mem_append.1 hcol with hcol | hcol
    · exact hok.names col hcol
    · rw [List.mem_singleton.1 hcol]
      exact lparen_not_mem_name field

theorem hdrLoop_spec : ∀ (fields : List Bytes) {hdr hdr' : Hdr}, hdr.Ok →
    hdrLoop hdr fields = .ok hdr' → hdr'.Ok ∧ hdr'.cols = hdr.cols ++ fields.map hdrCol
  | [], hdr, hdr', hok, h => by
      cases h
      exact ⟨hok, by simp⟩
  | field :: fields, hdr, hdr', hok, h => by
      rw [hdrLoop] at h
      cases hs : hdrStep hdr field with
      | error e =>
          rw [hs] at h
          cases h
      | ok hdr₁ =>
          rw [hs] at h
          obtain ⟨hok', hcols⟩ := hdrLoop_spec fields (hdrStep_keeps_ok hok hs) h
          refine ⟨hok', ?_⟩
          rw [hcols, (hdrStep_spec hs).1, List.append_assoc]
          rfl

theorem loadHdr_spec {line : Bytes} {hdr : Hdr} (h : loadHdr line = .ok hdr) :
    hdr.Ok ∧ hdr.cols = (splitCsv line).map hdrCol := by
  have hok : Hdr.Ok {} := ⟨rfl, rfl, by simp, by simp⟩
  obtain ⟨hok', hcols⟩ := hdrLoop_spec _ hok h
  exact ⟨hok', by simpa using hcols⟩

theorem splitLoop_length : ∀ (inQ : Bool) (left : Nat) (s : Bytes),
    0 < (splitLoop inQ left s).length ∧ (splitLoop inQ left s).length ≤ left + 1
  | _, _, [] => by simp [splitLoop]
  | inQ, left, c :: cs => by
      rw [splitLoop]
      split
      · simp
      · dsimp only
        generalize (if c = quote then !inQ else inQ) = q
        split
        · have := splitLoop_length q (left - 1) cs
          rw [List.length_cons]
          omega
        · have := splitLoop_length q left cs
          cases hs : splitLoop q left cs with
          | nil => simp [hs] at this
          | cons f fs =>
              rw [hs] at this
              simpa [consField] using this

theorem splitCsv_length (row : Bytes) :
    0 < (splitCsv row).length ∧ (splitCsv row).length ≤ MAX_COLS := by
  have := splitLoop_length false (MAX_COLS - 1) (row.take (RECORD_SIZE - 1))
  unfold splitCsv
  exact ⟨this.1, this.2⟩

/-! ## Bytes of cells -/

theorem mem_of_mem_trimUq {s : Bytes} {b : UInt8} (h : b ∈ trimUq s) : b ∈ s := by
  have htrim : ∀ {b}, b ∈ trimWs s → b ∈ s := fun hb =>
    (List.dropWhile_sublist _).subset ((List.rdropWhile_prefix _ _).sublist.subset hb)
  unfold trimUq unquote at h
  split at h
  · exact htrim (List.mem_of_mem_tail (List.mem_of_mem_dropLast h))
  · exact htrim h

theorem mem_of_mem_splitLoop : ∀ {inQ : Bool} {left : Nat} {s f : Bytes} {b : UInt8},
    f ∈ splitLoop inQ left s → b ∈ f → b ∈ s
  | _, _, [], f, b, hf, hb => by
      simp only [splitLoop, List.mem_singleton] at hf
      simp [hf] at hb
  | inQ, left, c :: cs, f, b, hf, hb => by
      rw [splitLoop] at hf
      split at hf
      · rw [List.mem_singleton.1 hf] at hb
        exact hb
      · dsimp only at hf
        generalize (if c = quote then !inQ else inQ) = q at hf
        split at hf
        · rcases List.mem_cons.1 hf with rfl | hf
          · cases hb
          · exact List.mem_cons_of_mem _ (mem_of_mem_splitLoop hf hb)
        · cases hs : splitLoop q left cs with
          | nil =>
              rw [hs, consField, List.mem_singleton] at hf
              rw [hf, List.mem_singleton] at hb
              exact hb ▸ List.mem_cons_self
          | cons g gs =>
              rw [hs, consField] at hf
              rcases List.mem_cons.1 hf with rfl | hf
              · rcases List.mem_cons.1 hb with rfl | hb
                · exact List.mem_cons_self
                · exact List.mem_cons_of_mem _
                    (mem_of_mem_splitLoop (hs ▸ List.mem_cons_self) hb)
              · exact List.mem_cons_of_mem _
                  (mem_of_mem_splitLoop (hs ▸ List.mem_cons_of_mem _ hf) hb)

theorem mem_of_mem_splitCsv {row f : Bytes} {b : UInt8} (hf : f ∈ splitCsv row) (hb : b ∈ f) :
    b ∈ row := List.mem_of_mem_take (mem_of_mem_splitLoop hf hb)

/-! ## Shape -/

/-- How many rows `ensure_row_cap` can make room for. -/
def rowCapMax : Nat := 1073741824

def NoNul (row : Row) : Prop := ∀ c ∈ row, ∀ b ∈ c, b ≠ 0

namespace TabVer

structure Shape (tab : TabVer) : Prop where
  cols_pos : 0 < tab.cols.length
  cols_le : tab.cols.length ≤ MAX_COLS
  pkIdx : tab.pkIdx = (colsOf .pk tab.cols).getLast?
  ukIdx : tab.ukIdx = colsOf .uk tab.cols
  uks_le : tab.ukIdx.length ≤ MAX_UKS
  names : ∀ col ∈ tab.cols, lparen ∉ col.name.bytes
  cells : ∀ row ∈ tab.rows, row.length = tab.cols.length
  noNul : ∀ row ∈ tab.rows, NoNul row
  rows_le : tab.rows.length ≤ rowCapMax
  nextId : LONG_MIN ≤ tab.nextId ∧ tab.nextId ≤ LONG_MAX

/-- The fields no statement changes. -/
structure SameSchema (tab tab' : TabVer) : Prop where
  name : tab'.name = tab.name
  cols : tab'.cols = tab.cols
  pkIdx : tab'.pkIdx = tab.pkIdx
  ukIdx : tab'.ukIdx = tab.ukIdx

theorem SameSchema.refl (tab : TabVer) : SameSchema tab tab := ⟨rfl, rfl, rfl, rfl⟩

theorem SameSchema.trans {a b c : TabVer} (h : SameSchema a b) (h' : SameSchema b c) :
    SameSchema a c :=
  ⟨h'.name.trans h.name, h'.cols.trans h.cols, h'.pkIdx.trans h.pkIdx, h'.ukIdx.trans h.ukIdx⟩

theorem SameSchema.colType {tab tab' : TabVer} (h : SameSchema tab tab') (i : Nat) :
    tab'.colType i = tab.colType i := by
  unfold TabVer.colType
  rw [h.cols]

theorem Shape.with_rows {tab tab' : TabVer} (h : tab.Shape) (hs : SameSchema tab tab')
    (hrows : ∀ row ∈ tab'.rows, row.length = tab.cols.length ∧ NoNul row)
    (hlen : tab'.rows.length ≤ rowCapMax)
    (hid : LONG_MIN ≤ tab'.nextId ∧ tab'.nextId ≤ LONG_MAX) : tab'.Shape where
  cols_pos := by rw [hs.cols]; exact h.cols_pos
  cols_le := by rw [hs.cols]; exact h.cols_le
  pkIdx := by rw [hs.pkIdx, hs.cols]; exact h.pkIdx
  ukIdx := by rw [hs.ukIdx, hs.cols]; exact h.ukIdx
  uks_le := by rw [hs.ukIdx]; exact h.uks_le
  names := by rw [hs.cols]; exact h.names
  cells := by rw [hs.cols]; exact fun row hr => (hrows row hr).1
  noNul := fun row hr => (hrows row hr).2
  rows_le := hlen
  nextId := hid

theorem Shape.pk_lt {tab : TabVer} (h : tab.Shape) {p : Nat} (hp : tab.pkIdx = some p) :
    p < tab.cols.length ∧ tab.colType p = .pk := by
  rw [h.pkIdx] at hp
  exact mem_colsOf.1 (List.mem_of_getLast? hp)

/-! ### Row capacity -/

theorem growCap_dvd : ∀ (fuel : Nat) {cap need cap' : Nat}, cap ∣ rowCapMax →
    growCap fuel cap need = some cap' → cap' ∣ rowCapMax ∧ need ≤ cap'
  | 0, _, _, _, _, h => by cases h
  | fuel + 1, cap, need, cap', hdvd, h => by
      rw [growCap] at h
      split at h
      · cases h
        exact ⟨hdvd, by assumption⟩
      · split at h
        · cases h
        · rename_i hsmall
          refine growCap_dvd fuel ?_ h
          have hpow : rowCapMax = 2 ^ 30 := by norm_num [rowCapMax]
          rw [hpow] at hdvd ⊢
          obtain ⟨k, hk, rfl⟩ := (Nat.dvd_prime_pow Nat.prime_two).1 hdvd
          have hlt : k < 30 := by
            rcases Nat.lt_or_ge k 30 with hlt | hge
            · exact hlt
            · have : k = 30 := by omega
              subst this
              norm_num at hsmall
          rw [← pow_succ]
          exact Nat.pow_dvd_pow 2 hlt

theorem growCap_isSome : ∀ (fuel : Nat) {cap need : Nat}, need ≤ rowCapMax →
    need ≤ cap * 2 ^ fuel → (growCap (fuel + 1) cap need).isSome
  | fuel, cap, need, hmax, hneed => by
      rw [growCap]
      split
      · rfl
      · rename_i hlt
        have hcap : ¬ 1073741823 < cap := by
          unfold rowCapMax at hmax
          omega
        rw [if_neg hcap]
        cases fuel with
        | zero =>
            rw [pow_zero, Nat.mul_one] at hneed
            omega
        | succ fuel =>
            refine growCap_isSome fuel hmax ?_
            rw [pow_succ] at hneed
            calc need ≤ cap * (2 ^ fuel * 2) := hneed
              _ = cap * 2 * 2 ^ fuel := by ring

theorem ensureRowCap_isSome {tab : TabVer} {need : Nat} (h : need ≤ rowCapMax) :
    (tab.ensureRowCap need).isSome := by
  unfold ensureRowCap
  split
  · rfl
  · rw [Option.isSome_map]
    refine growCap_isSome 32 h ?_
    unfold rowCapMax at h
    split <;> omega

/-! ### Loading -/

/-- A table while its rows are being read. -/
structure Loading (tab : TabVer) : Prop where
  cells : ∀ row ∈ tab.rows, row.length = tab.cols.length
  noNul : ∀ row ∈ tab.rows, NoNul row
  nextId : LONG_MIN ≤ tab.nextId ∧ tab.nextId ≤ LONG_MAX
  room : tab.rows.length ≤ tab.rowCap
  cap : tab.rowCap = 0 ∨ tab.rowCap ∣ rowCapMax

theorem Loading.rows_le {tab : TabVer} (h : Loading tab) : tab.rows.length ≤ rowCapMax := by
  rcases h.cap with h0 | hd
  · have := h.room
    omega
  · exact h.room.trans (Nat.le_of_dvd (by decide) hd)

theorem ensureRowCap_loading {tab tab' : TabVer} {need : Nat} (h : Loading tab)
    (he : tab.ensureRowCap need = some tab') :
    need ≤ tab'.rowCap ∧ (tab'.rowCap = 0 ∨ tab'.rowCap ∣ rowCapMax) := by
  unfold ensureRowCap at he
  split at he
  · cases he
    exact ⟨by assumption, h.cap⟩
  · obtain ⟨cap, hcap, rfl⟩ := Option.map_eq_some_iff.1 he
    have hstart : (if 0 < tab.rowCap then tab.rowCap else 16) ∣ rowCapMax := by
      split
      · rcases h.cap with h0 | hd
        · omega
        · exact hd
      · decide
    obtain ⟨hd, hn⟩ := growCap_dvd 33 hstart hcap
    exact ⟨hn, Or.inr hd⟩

/-- What `load_row` does to a table. -/
structure RowLoaded (tab tab' : TabVer) (line : Bytes) : Prop where
  frame : tab' = { tab with
    rows := tab.rows ++ [(splitCsv line).map trimUq]
    rowCap := tab'.rowCap
    slots := tab'.slots
    nextId := tab'.nextId }
  count : (splitCsv line).length = tab.cols.length
  pkInt : ∀ p, tab.pkIdx = some p → (parseL (cell ((splitCsv line).map trimUq) p)).isSome
  nextId : LONG_MIN ≤ tab.nextId ∧ tab.nextId ≤ LONG_MAX →
    LONG_MIN ≤ tab'.nextId ∧ tab'.nextId ≤ LONG_MAX
  cap : tab.ensureRowCap (tab.rows.length + 1) = some { tab with
    rowCap := tab'.rowCap, slots := tab'.slots }

theorem loadRow_spec {tab tab' : TabVer} {line : Bytes} (h : loadRow tab line = some tab') :
    RowLoaded tab tab' line := by
  unfold loadRow at h
  dsimp only at h
  split at h
  · cases h
  · rename_i hcount
    obtain ⟨tab₁, hcap, h⟩ := Option.bind_eq_some_iff.1 h
    obtain ⟨cap, slots, rfl⟩ : ∃ cap slots, tab₁ = { tab with rowCap := cap, slots := slots } :=
      ⟨_, _, ensureRowCap_spec hcap⟩
    dsimp only at h
    split at h
    · rename_i hpk
      cases h
      refine ⟨rfl, not_not.1 hcount, ?_, fun hr => hr, hcap⟩
      intro p hp
      rw [hpk] at hp
      cases hp
    · rename_i p hpk
      obtain ⟨key, hkey, rfl⟩ := Option.map_eq_some_iff.1 h
      refine ⟨rfl, not_not.1 hcount, ?_, ?_, hcap⟩
      · intro q hq
        rw [hpk] at hq
        cases hq
        simp [hkey]
      · intro hr
        dsimp only
        split
        · exact wrapL_range _
        · exact hr

theorem RowLoaded.loading {tab tab' : TabVer} {line : Bytes} (h : RowLoaded tab tab' line)
    (hl : Loading tab) (hnul : ∀ b ∈ line, b ≠ 0) :
    Loading tab' ∧ SameSchema tab tab' := by
  have hs : SameSchema tab tab' := by
    rw [h.frame]
    exact ⟨rfl, rfl, rfl, rfl⟩
  have hrows : tab'.rows = tab.rows ++ [(splitCsv line).map trimUq] := by rw [h.frame]
  have hcap := ensureRowCap_loading hl h.cap
  refine ⟨⟨?_, ?_, h.nextId hl.nextId, ?_, hcap.2⟩, hs⟩
  · intro row hrow
    rw [hrows] at hrow
    rw [hs.cols]
    rcases List.mem_append.1 hrow with hrow | hrow
    · exact hl.cells row hrow
    · rw [List.mem_singleton.1 hrow, List.length_map]
      exact h.count
  · intro row hrow
    rw [hrows] at hrow
    rcases List.mem_append.1 hrow with hrow | hrow
    · exact hl.noNul row hrow
    · rw [List.mem_singleton.1 hrow]
      intro c hc b hb
      obtain ⟨f, hf, rfl⟩ := List.mem_map.1 hc
      exact hnul b (mem_of_mem_splitCsv hf (mem_of_mem_trimUq hb))
  · rw [hrows, List.length_append, List.length_singleton]
    exact hcap.1

theorem loadRows_loading : ∀ (lines : List Bytes) {tab tab' : TabVer}, Loading tab →
    (∀ line ∈ lines, ∀ b ∈ line, b ≠ 0) → loadRows tab lines = some tab' →
      Loading tab' ∧ SameSchema tab tab'
  | [], tab, tab', hl, _, h => by
      cases h
      exact ⟨hl, SameSchema.refl tab⟩
  | line :: lines, tab, tab', hl, hnul, h => by
      rw [loadRows] at h
      have hrest : ∀ l ∈ lines, ∀ b ∈ l, b ≠ 0 := fun l hm => hnul l (List.mem_cons_of_mem _ hm)
      split at h
      · exact loadRows_loading lines hl hrest h
      · obtain ⟨tab₁, hrow, h⟩ := Option.bind_eq_some_iff.1 h
        have hline : ∀ b ∈ chomp line, b ≠ 0 := fun b hb =>
          hnul line List.mem_cons_self b ((List.takeWhile_sublist _).subset hb)
        obtain ⟨hl₁, hs₁⟩ := (loadRow_spec hrow).loading hl hline
        obtain ⟨hl₂, hs₂⟩ := loadRows_loading lines hl₁ hrest h
        exact ⟨hl₂, hs₁.trans hs₂⟩

theorem readLines_noNul : ∀ (fuel : Nat) (file : Bytes), ∀ line ∈ readLines fuel file,
    ∀ b ∈ line, b ≠ 0
  | 0, _, line, h => by cases h
  | fuel + 1, [], line, h => by cases h
  | fuel + 1, c :: cs, line, h => by
      rw [readLines] at h
      rcases List.mem_cons.1 h with rfl | h
      · exact fun b hb => ne_zero_of_mem_cstr hb
      · exact readLines_noNul fuel _ line h

theorem tabLoad_cases {name : Bytes} {file : Option Bytes} {tab : TabVer}
    (h : tabLoad name file = .ok (some tab)) :
    ∃ bytes header lines hdr tab₀ tab₁, file = some bytes ∧
      readLines bytes.length bytes = header :: lines ∧ loadHdr header = .ok hdr ∧
      loadRows (hdrTab name hdr) lines = some tab₀ ∧ tab₀.idxBuild = (tab₁, true) ∧
      tab = { tab₁ with verId := 1 } := by
  unfold tabLoad at h
  split at h
  · cases h
  · rename_i bytes
    split at h
    · cases h
    · rename_i header lines hlines
      cases hh : loadHdr header with
      | error e =>
          rw [hh] at h
          cases h
      | ok hdr =>
          rw [hh] at h
          obtain ⟨tab₀, hrows, hb⟩ := Option.bind_eq_some_iff.1 (Except.ok.inj h)
          split at hb
          · rename_i tab₁ hidx
            cases hb
            exact ⟨bytes, header, lines, hdr, tab₀, tab₁, rfl, hlines, hh, hrows, hidx, rfl⟩
          · cases hb

theorem loading_hdrTab (name : Bytes) (hdr : Hdr) : Loading (hdrTab name hdr) where
  cells := by simp [hdrTab]
  noNul := by simp [hdrTab]
  nextId := by simp [hdrTab, LONG_MIN, LONG_MAX]
  room := by simp [hdrTab]
  cap := Or.inl rfl

theorem tabLoad_shape {name : Bytes} {file : Option Bytes} {tab : TabVer}
    (h : tabLoad name file = .ok (some tab)) :
    tab.Shape ∧ tab.name = name ∧ tab.verId = 1 ∧ tab.Constraints ∧ tab.Indexed := by
  obtain ⟨bytes, header, lines, hdr, tab₀, tab₁, rfl, hlines, hhdr, hrows, hidx, rfl⟩ :=
    tabLoad_cases h
  obtain ⟨hok, hcols⟩ := loadHdr_spec hhdr
  have hnul : ∀ line ∈ lines, ∀ b ∈ line, b ≠ 0 := fun line hl =>
    readLines_noNul _ _ line (hlines ▸ List.mem_cons_of_mem _ hl)
  obtain ⟨hl, hs⟩ := loadRows_loading lines (loading_hdrTab name hdr) hnul hrows
  obtain ⟨hsame, hcon, hidx'⟩ := idxBuild_spec hidx
  have hlen := splitCsv_length header
  have hshape : tab₀.Shape := by
    refine ⟨?_, ?_, ?_, ?_, ?_, ?_, hl.cells, hl.noNul, hl.rows_le, hl.nextId⟩
    · rw [hs.cols]
      simpa [hdrTab, hcols] using hlen.1
    · rw [hs.cols]
      simpa [hdrTab, hcols] using hlen.2
    · rw [hs.pkIdx, hs.cols]
      exact hok.pkIdx
    · rw [hs.ukIdx, hs.cols]
      exact hok.ukIdx
    · rw [hs.ukIdx]
      exact hok.uks_le
    · rw [hs.cols]
      exact hok.names
  have hname : tab₁.name = name := by
    rw [hsame]
    exact hs.name
  refine ⟨?_, hname, rfl, ?_, ?_⟩
  · rw [hsame]
    exact hshape.with_rows ⟨rfl, rfl, rfl, rfl⟩ (fun row hr => ⟨hl.cells row hr, hl.noNul row hr⟩)
      hl.rows_le hl.nextId
  · exact ⟨hcon.1, hcon.2, hcon.3⟩
  · exact ⟨hidx'.1, hidx'.2⟩

end TabVer

end MiniDbms
