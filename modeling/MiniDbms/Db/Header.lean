import MiniDbms.Db.Shape

/-!
# Header lines and schemas

`load_hdr` takes every line.  The legacy loader stops at `MAX_UKS` unique columns; here nothing
does, and a second primary key column takes the place of the first.
-/

namespace MiniDbms

/-- What the index code relies on. -/
structure Hdr.Schema (hdr : Hdr) : Prop where
  cols_pos : 0 < hdr.cols.length
  cols_le : hdr.cols.length ≤ MAX_COLS
  uks_le : hdr.ukIdx.length ≤ MAX_UKS
  increasing : hdr.ukIdx.Pairwise (· < ·)
  uks : ∀ i, i ∈ hdr.ukIdx ↔ i < hdr.cols.length ∧ colTypeAt hdr.cols i = .uk
  pk : ∀ i, hdr.pkIdx = some i ↔ i < hdr.cols.length ∧ colTypeAt hdr.cols i = .pk

/-- The field has a tag from its first parenthesis on. -/
def tagged (tag : Bytes) (field : Bytes) : Bool :=
  strstr ((trimUq field).dropWhile (· != lparen)) tag

def isPkField (field : Bytes) : Bool := tagged (str "(PK)") field

def isUkField (field : Bytes) : Bool := !isPkField field && tagged (str "(UK)") field

theorem isPkField_iff (field : Bytes) : isPkField field = true ↔ (hdrCol field).type = .pk := by
  unfold isPkField tagged hdrCol
  dsimp only
  split
  · rename_i hpk
    exact iff_of_true hpk rfl
  · rename_i hpk
    refine iff_of_false hpk ?_
    split
    · exact fun h => by cases h
    · split <;> exact fun h => by cases h

theorem isUkField_iff (field : Bytes) : isUkField field = true ↔ (hdrCol field).type = .uk := by
  unfold isUkField isPkField tagged hdrCol
  dsimp only
  split
  · rename_i hpk
    refine iff_of_false ?_ fun h => by cases h
    rw [hpk]
    exact Bool.false_ne_true
  · rename_i hpk
    rw [Bool.not_eq_true] at hpk
    rw [hpk, Bool.not_false, Bool.true_and]
    split
    · rename_i huk
      exact iff_of_true huk rfl
    · rename_i huk
      refine iff_of_false huk ?_
      split <;> exact fun h => by cases h

theorem length_colsOf (type : ColumnType) {p : Bytes → Bool}
    (hp : ∀ field, p field = true ↔ (hdrCol field).type = type) (fields : List Bytes) :
    (colsOf type (fields.map hdrCol)).length = fields.countP p := by
  induction fields using List.reverseRecOn with
  | nil => rfl
  | append_singleton fields field ih =>
      rw [List.map_append, List.map_singleton, colsOf_append, List.length_append, ih,
        List.countP_append, List.countP_singleton]
      congr 1
      by_cases h : (hdrCol field).type = type
      · rw [if_pos h, if_pos ((hp field).2 h), List.length_singleton]
      · rw [if_neg h, if_neg (fun hf => h ((hp field).1 hf)), List.length_nil]

/-! ## When the header is loaded -/

theorem hdrStep_ok {hdr : Hdr} {field : Bytes}
    (h : (hdrCol field).type = .uk → hdr.ukIdx.length < MAX_UKS) :
    ∃ hdr', hdrStep hdr field = .ok hdr' := by
  unfold hdrCol at h
  unfold hdrStep
  dsimp only at h ⊢
  split
  · exact ⟨_, rfl⟩
  · rename_i hpk
    rw [if_neg hpk] at h
    split
    · rename_i huk
      rw [if_pos huk] at h
      rw [if_neg (Nat.not_le.2 (h rfl))]
      exact ⟨_, rfl⟩
    · split <;> exact ⟨_, rfl⟩

/-- The array of unique columns is left at the sixth of them and no earlier. -/
theorem hdrLoop_ok_iff : ∀ (fields : List Bytes) (hdr : Hdr), hdr.ukIdx.length ≤ MAX_UKS →
    ((∃ hdr', hdrLoop hdr fields = .ok hdr') ↔
      hdr.ukIdx.length + fields.countP isUkField ≤ MAX_UKS)
  | [], hdr, hle => iff_of_true ⟨hdr, rfl⟩ hle
  | field :: fields, hdr, hle => by
      by_cases huk : isUkField field = true
      · have htype := (isUkField_iff field).1 huk
        rw [List.countP_cons_of_pos huk]
        by_cases hroom : hdr.ukIdx.length < MAX_UKS
        · obtain ⟨hdr₁, hstep⟩ := hdrStep_ok fun _ => hroom
          have hlen : hdr₁.ukIdx.length = hdr.ukIdx.length + 1 := by
            rw [(hdrStep_spec hstep).2.2.1, if_pos htype, List.length_append,
              List.length_singleton]
          have ih := hdrLoop_ok_iff fields hdr₁ (by omega)
          rw [hlen] at ih
          rw [hdrLoop, hstep]
          refine ih.trans ?_
          omega
        · refine iff_of_false ?_ (by omega)
          rintro ⟨hdr', h⟩
          rw [hdrLoop] at h
          cases hstep : hdrStep hdr field with
          | error e =>
              rw [hstep] at h
              cases h
          | ok hdr₁ => exact hroom ((hdrStep_spec hstep).2.2.2 htype)
      · have htype : (hdrCol field).type ≠ .uk := fun h => huk ((isUkField_iff field).2 h)
        obtain ⟨hdr₁, hstep⟩ := @hdrStep_ok hdr field fun h => absurd h htype
        have hlen : hdr₁.ukIdx.length = hdr.ukIdx.length := by
          rw [(hdrStep_spec hstep).2.2.1, if_neg htype, List.append_nil]
        have ih := hdrLoop_ok_iff fields hdr₁ (by omega)
        rw [hlen] at ih
        rw [List.countP_cons_of_neg huk, hdrLoop, hstep]
        exact ih

/-! ## When it is a schema -/

theorem pairwise_colsOf (type : ColumnType) (cols : List ColumnInfo) :
    (colsOf type cols).Pairwise (· < ·) :=
  List.pairwise_lt_range.filter _

/-- The last of the primary key columns is the only one exactly when there is at most one. -/
theorem pk_iff_only (cols : List ColumnInfo) :
    (∀ i, (colsOf .pk cols).getLast? = some i ↔ i < cols.length ∧ colTypeAt cols i = .pk) ↔
      (colsOf .pk cols).length ≤ 1 := by
  have hsorted := pairwise_colsOf .pk cols
  have hmem : ∀ i, i ∈ colsOf .pk cols ↔ i < cols.length ∧ colTypeAt cols i = .pk :=
    fun i => mem_colsOf
  simp only [← hmem]
  cases hpks : colsOf .pk cols with
  | nil => simp
  | cons i rest =>
      cases rest with
      | nil =>
          refine iff_of_true (fun j => ?_) (Nat.le_refl 1)
          simp [eq_comm]
      | cons j rest =>
          refine iff_of_false (fun h => ?_) (by simp)
          rw [hpks, List.pairwise_cons] at hsorted
          have hlast := (h i).2 List.mem_cons_self
          rw [List.getLast?_cons_cons] at hlast
          exact absurd (hsorted.1 i (List.mem_of_getLast? hlast)) (Nat.lt_irrefl i)

/-- The header line gives a schema exactly when it names `MAX_UKS` unique columns at most and
one primary key at most. -/
theorem loadHdr_schema_iff (line : Bytes) :
    (∃ hdr, loadHdr line = .ok hdr ∧ hdr.Schema) ↔
      (splitCsv line).countP isUkField ≤ MAX_UKS ∧ (splitCsv line).countP isPkField ≤ 1 := by
  have hload : (∃ hdr, loadHdr line = .ok hdr) ↔
      (splitCsv line).countP isUkField ≤ MAX_UKS := by
    have hall := hdrLoop_ok_iff (splitCsv line) {} (Nat.zero_le _)
    rw [List.length_nil, Nat.zero_add] at hall
    exact hall
  have hschema : ∀ {hdr : Hdr}, loadHdr line = .ok hdr →
      (hdr.Schema ↔ (splitCsv line).countP isPkField ≤ 1) := by
    intro hdr h
    obtain ⟨hok, hcols⟩ := loadHdr_spec h
    have hlen := splitCsv_length line
    rw [← length_colsOf .pk isPkField_iff, ← hcols, ← pk_iff_only, ← hok.pkIdx]
    constructor
    · exact fun hs => hs.pk
    · intro hpk
      refine ⟨?_, ?_, hok.uks_le, ?_, ?_, hpk⟩
      · rw [hcols, List.length_map]
        exact hlen.1
      · rw [hcols, List.length_map]
        exact hlen.2
      · rw [hok.ukIdx]
        exact pairwise_colsOf .uk hdr.cols
      · intro i
        rw [hok.ukIdx]
        exact mem_colsOf
  rw [← hload]
  constructor
  · rintro ⟨hdr, h, hs⟩
    exact ⟨⟨hdr, h⟩, (hschema h).1 hs⟩
  · rintro ⟨⟨hdr, h⟩, hone⟩
    exact ⟨hdr, h, (hschema h).2 hone⟩

/-- Six unique columns leave the array, and of two primary keys the first is lost. -/
theorem six_uks_no_schema :
    (∀ hdr, loadHdr (str "a(UK),b(UK),c(UK),d(UK),e(UK),f(UK)") ≠ .ok hdr) ∧
      ∃ hdr, loadHdr (str "a(PK),b(PK)") = .ok hdr ∧ ¬ hdr.Schema := by
  constructor
  · intro hdr h
    have hnone : (loadHdr (str "a(UK),b(UK),c(UK),d(UK),e(UK),f(UK)")).toOption.isNone = true := by
      decide +kernel
    rw [h] at hnone
    cases hnone
  · have hload : (loadHdr (str "a(PK),b(PK)")).toOption.map
        (fun hdr => (hdr.pkIdx, colTypeAt hdr.cols 0)) = some (some 1, .pk) := by
      decide +kernel
    cases h : loadHdr (str "a(PK),b(PK)") with
    | error e =>
        rw [h] at hload
        cases hload
    | ok hdr =>
        rw [h] at hload
        obtain ⟨hpk, htype⟩ := Prod.mk.inj (Option.some.inj hload)
        refine ⟨hdr, rfl, fun hschema => ?_⟩
        have hzero := (hschema.pk 0).2 ⟨hschema.cols_pos, htype⟩
        rw [hpk] at hzero
        cases hzero

end MiniDbms
