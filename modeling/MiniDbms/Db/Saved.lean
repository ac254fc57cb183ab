import MiniDbms.Db.Header
import MiniDbms.Db.Lines
import MiniDbms.Legacy.Fields

/-!
# Saved tables

`tab_save` puts a cell in quotes when it holds a comma, and `load_row` cuts a line at the
commas outside quotes, trims the pieces and takes one pair of quotes off.  A row comes back
exactly when its line fits the buffer, is cut where the cells end, and trimming leaves the
cells alone.
-/

namespace MiniDbms

open Legacy (joinCsv Splits FieldOk splitLoop_eq_iff splits_iff splits_set_iff fieldEnd_append
  joinCsv_inj length_joinCsv count_joinCsv mem_joinCsv trimUq_around trimUq_quoted length_trimUq_le
  count_comma_trimUq comma_mem_trimUq)

/-! ## Joined fields -/

theorem csvLine_eq (fields : List Bytes) : csvLine fields = joinCsv fields ++ [newline] := by
  have hjoin : ∀ fields : List Bytes, List.intercalate [comma] fields = joinCsv fields := by
    intro fields
    induction fields with
    | nil => rfl
    | cons f fields ih =>
        cases fields with
        | nil => simp [List.intercalate, joinCsv]
        | cons g fields =>
            rw [joinCsv, ← ih]
            simp [List.intercalate]
  rw [csvLine, hjoin]

theorem joinCsv_concat (last rest : Bytes) : ∀ front : List Bytes,
    joinCsv (front ++ [last ++ rest]) = joinCsv (front ++ [last]) ++ rest
  | [] => rfl
  | [f] => by simp [joinCsv]
  | f :: g :: front => by
      have ih := joinCsv_concat last rest (g :: front)
      rw [List.cons_append, List.cons_append] at ih ⊢
      rw [joinCsv, ih]
      simp [joinCsv]

theorem splitCsv_eq_iff {s : Bytes} {fs : List Bytes} (hs : s.length < RECORD_SIZE) :
    splitCsv s = fs ↔ joinCsv fs = s ∧ Splits false (MAX_COLS - 1) fs := by
  unfold splitCsv
  rw [List.take_of_length_le (by omega)]
  exact splitLoop_eq_iff

theorem joinCsv_splitCsv (s : Bytes) : joinCsv (splitCsv s) = s.take (RECORD_SIZE - 1) :=
  (splitLoop_eq_iff.1 (rfl : splitCsv s = _)).1

theorem splitCsv_ne_nil (s : Bytes) : splitCsv s ≠ [] :=
  List.length_pos_iff.1 (splitCsv_length s).1

theorem length_joinCsv_mono : ∀ {ts gs : List Bytes},
    List.Forall₂ (fun t g => t.length ≤ g.length) ts gs →
      (joinCsv ts).length ≤ (joinCsv gs).length
  | _, _, .nil => Nat.le_refl _
  | _, _, .cons hle .nil => hle
  | _, _, .cons hle (.cons hle' h) => by
      have ih := length_joinCsv_mono (.cons hle' h)
      simp only [joinCsv, List.length_append, List.length_cons]
      omega

/-- No field of one list is shorter than its partner in the other, and yet they join to the
same text. -/
theorem joinCsv_inj_of_le : ∀ {ts gs : List Bytes},
    List.Forall₂ (fun t g => t.length ≤ g.length) ts gs → joinCsv gs = joinCsv ts → gs = ts
  | _, _, .nil, _ => rfl
  | _, _, .cons hle .nil, h => by
      rw [joinCsv, joinCsv] at h
      rw [h]
  | _, _, .cons hle (.cons hle' hrest), h => by
      have hlen := length_joinCsv_mono (.cons hle' hrest)
      rw [joinCsv, joinCsv] at h
      have hsum := congrArg List.length h
      simp only [List.length_append, List.length_cons] at hsum
      obtain ⟨rfl, htail⟩ := List.append_inj h (by omega)
      rw [joinCsv_inj_of_le (.cons hle' hrest) (List.cons.inj htail).2]

/-! ## Cells -/

theorem count_comma_csvCell (c : Bytes) : (csvCell c).count comma = c.count comma := by
  have hquote : (quote == comma) = false := by decide
  unfold csvCell
  split
  · rw [List.cons_append, List.count_cons, List.count_append, List.count_singleton, hquote]
    simp
  · rfl

theorem length_csvCell_le (c : Bytes) : (csvCell c).length ≤ c.length + 2 := by
  unfold csvCell
  split <;> simp

theorem trimUq_csvCell_iff {c : Bytes} : trimUq (csvCell c) = c ↔ comma ∈ c ∨ trimUq c = c := by
  unfold csvCell
  by_cases hcomma : comma ∈ c
  · rw [if_pos hcomma, List.cons_append, trimUq_quoted]
    exact iff_of_true rfl (Or.inl hcomma)
  · rw [if_neg hcomma, or_iff_right hcomma]

/-- A cell that was cut off does not read as the whole. -/
theorem trimUq_cut {c g u : Bytes} (hcell : csvCell c = g ++ u) (hu : u ≠ []) : trimUq g ≠ c := by
  intro htrim
  have hpos : 0 < u.length := List.length_pos_iff.2 hu
  have hle := length_trimUq_le g
  have hlen := congrArg List.length hcell
  rw [List.length_append] at hlen
  unfold csvCell at hcell hlen
  by_cases hcomma : comma ∈ c
  · rw [if_pos hcomma] at hcell hlen
    simp only [List.length_append, List.length_cons, List.length_nil] at hlen
    -- the piece starts with the quote in front of the cell, and has no room for the one behind
    have hg : comma ∈ g := by
      rw [← htrim] at hcomma
      exact comma_mem_trimUq.1 hcomma
    cases g with
    | nil => exact absurd hg List.not_mem_nil
    | cons d g =>
        rw [List.cons_append, List.cons_append, List.cons.injEq] at hcell
        obtain ⟨rfl, hcell⟩ := hcell
        obtain ⟨a, b, hspace, htext | htext⟩ := trimUq_around (quote :: g)
        · rw [htrim] at htext
          cases a with
          | cons d a =>
              obtain ⟨rfl, -⟩ := List.cons.inj htext
              exact absurd (hspace quote (by simp)) (by decide)
          | nil =>
              rw [List.nil_append] at htext
              -- so the cell repeats its first byte, a quote, to its end
              cases c with
              | nil => exact absurd hcomma List.not_mem_nil
              | cons d c =>
                  rw [List.cons_append, List.cons.injEq] at htext
                  obtain ⟨rfl, rfl⟩ := htext
                  have hall : ∀ (c rest : Bytes), quote :: c ++ rest = c ++ (b ++ u) →
                      ∀ x ∈ c, x = quote := by
                    intro c
                    induction c with
                    | nil => exact fun _ _ _ hx => absurd hx List.not_mem_nil
                    | cons y c ih =>
                        intro rest h x hx
                        obtain ⟨rfl, h⟩ := List.cons.inj h
                        obtain rfl | hx := List.mem_cons.1 hx
                        · rfl
                        · exact ih rest h x hx
                  rw [List.append_assoc] at hcell
                  obtain h | h := List.mem_cons.1 hcomma
                  · exact absurd h (by decide)
                  · exact absurd (hall c [quote] hcell comma h) (by decide)
        · have hsum := congrArg List.length htext
          rw [htrim] at hsum
          simp only [List.length_append, List.length_cons] at hsum hlen
          omega
  · rw [if_neg hcomma] at hlen
    rw [htrim] at hle
    omega

/-! ## Rows -/

/-- The line of a row. -/
def rowText (row : Row) : Bytes := joinCsv (row.map csvCell)

theorem rowText_eq_nil_iff {row : Row} (hrow : row ≠ []) : rowText row = [] ↔ row = [[]] := by
  have hcell : ∀ c : Bytes, csvCell c = [] ↔ c = [] := by
    intro c
    unfold csvCell
    split
    · rename_i hcomma
      exact iff_of_false (by simp) (List.ne_nil_of_mem hcomma)
    · rfl
  cases row with
  | nil => exact absurd rfl hrow
  | cons c row =>
      cases row with
      | nil => simp [rowText, joinCsv, hcell]
      | cons d row => simp [rowText, joinCsv]

/-- A line that comes in one piece is the row again when it is cut between the cells and
trimming leaves the bare ones alone. -/
theorem rowOf_rowText_iff {row : Row} (hshort : (rowText row).length < RECORD_SIZE) :
    rowOf (rowText row) = row ↔ Splits false (MAX_COLS - 1) (row.map csvCell) ∧
      ∀ c ∈ row, comma ∉ c → trimUq c = c := by
  unfold rowOf
  have hcells : (row.map csvCell).map trimUq = row ↔ ∀ c ∈ row, comma ∉ c → trimUq c = c := by
    have hself : (row.map csvCell).map trimUq = row.map id ↔
        ∀ c ∈ row, trimUq (csvCell c) = c := by
      rw [List.map_map]
      exact List.map_inj_left
    rw [List.map_id] at hself
    rw [hself]
    simp only [trimUq_csvCell_iff, or_iff_not_imp_left]
  constructor
  · intro h
    obtain ⟨hjoin, hsplits⟩ := (splitCsv_eq_iff hshort).1 (rfl : splitCsv (rowText row) = _)
    have hsame : splitCsv (rowText row) = row.map csvCell := by
      refine joinCsv_inj ?_ hjoin
      conv_rhs => rw [← h]
      simp only [List.map_map]
      refine List.map_congr_left fun f _ => ?_
      simp only [Function.comp_apply, count_comma_csvCell, count_comma_trimUq]
    rw [hsame] at h hsplits
    exact ⟨hsplits, hcells.1 h⟩
  · rintro ⟨hsplits, htrim⟩
    rw [(splitCsv_eq_iff hshort).2 ⟨rfl, hsplits⟩]
    exact hcells.2 htrim

theorem rowOf_front_ne {row : Row} {s u : Bytes} (hs : s.length < RECORD_SIZE)
    (hline : rowText row = s ++ u) (hu : u ≠ []) : rowOf s ≠ row := by
  intro h
  obtain ⟨hjoin, -⟩ := (splitCsv_eq_iff hs).1 (rfl : splitCsv s = _)
  obtain hnil | ⟨front, last, hfields⟩ := List.eq_nil_or_concat (splitCsv s)
  · exact absurd hnil (splitCsv_ne_nil s)
  rw [List.concat_eq_append] at hfields
  unfold rowOf at h
  rw [hfields] at h hjoin
  have hwhole : joinCsv (front ++ [last ++ u]) = joinCsv (row.map csvCell) := by
    rw [joinCsv_concat, hjoin]
    exact hline.symm
  have hcounts : (front ++ [last]).map (·.count comma) = (row.map csvCell).map (·.count comma) := by
    conv_rhs => rw [← h]
    simp only [List.map_map]
    refine List.map_congr_left fun f _ => ?_
    simp only [Function.comp_apply, count_comma_csvCell, count_comma_trimUq]
  -- what was cut off holds no comma, or the line would have more fields
  have hbare : u.count comma = 0 := by
    have hrow : row.map csvCell ≠ [] := by
      intro hnil
      rw [hnil] at hcounts
      simp at hcounts
    have hne : front ++ [last] ≠ [] := by simp
    have hleft := count_joinCsv hne
    have hright := count_joinCsv hrow
    have hlen := congrArg List.length hcounts
    rw [List.length_map, List.length_map] at hlen
    rw [← hwhole, joinCsv_concat, List.count_append, ← hcounts, ← hlen] at hright
    omega
  have hsame : front ++ [last ++ u] = row.map csvCell := by
    refine joinCsv_inj ?_ hwhole
    rw [← hcounts]
    simp [hbare]
  rw [← h, List.map_append, List.map_append] at hsame
  obtain ⟨-, hlast⟩ := List.append_inj' hsame rfl
  exact trimUq_cut (List.cons.inj hlast).1.symm hu rfl

theorem sum_lengths_le {f : Bytes → Bytes} {k : Nat} (hf : ∀ s, (f s).length ≤ s.length + k) :
    ∀ l : List Bytes, ((l.map f).map List.length).sum ≤ (l.map List.length).sum + k * l.length
  | [] => Nat.zero_le _
  | s :: l => by
      have ih := sum_lengths_le hf l
      have hs := hf s
      simp only [List.map_cons, List.sum_cons, List.length_cons, Nat.mul_add, Nat.mul_one] at ih ⊢
      omega

theorem rowOf_later_ne {row : Row} {s : Bytes} (hs : s.length < RECORD_SIZE)
    (hlong : s.length + (RECORD_SIZE - 1) ≤ (rowText row).length) : rowOf s ≠ row := by
  intro h
  obtain ⟨hjoin, -⟩ := (splitCsv_eq_iff hs).1 (rfl : splitCsv s = _)
  have hlen : row.length = (splitCsv s).length := by
    rw [← h, rowOf, List.length_map]
  have hrow : row.map csvCell ≠ [] := by
    rw [← List.length_pos_iff, List.length_map, hlen]
    exact (splitCsv_length s).1
  have hpiece := length_joinCsv (splitCsv_ne_nil s)
  have hline : (rowText row).length + 1 = _ := length_joinCsv hrow
  -- trimming takes bytes away, and writing adds a pair of quotes to a cell at most
  have htrim := sum_lengths_le (f := trimUq) (k := 0) length_trimUq_le (splitCsv s)
  have hquotes := sum_lengths_le length_csvCell_le row
  have hcols := (splitCsv_length s).2
  have hmax : MAX_COLS = 15 ∧ RECORD_SIZE = 1024 := ⟨rfl, rfl⟩
  rw [rowOf] at h
  rw [h] at htrim
  rw [hjoin] at hpiece
  rw [List.length_map] at hline
  omega

/-- What becomes of a row in the file. -/
def rowPieces (row : Row) : List Row := (chunks (RECORD_SIZE - 1) (rowText row)).map rowOf

/-- A row whose line brings it back. -/
structure RowKept (row : Row) : Prop where
  oneLine : ∀ c ∈ row, OneLine c
  notBlank : row ≠ [[]]
  short : (rowText row).length < RECORD_SIZE
  trimmed : ∀ c ∈ row, comma ∉ c → trimUq c = c
  /-- an even number of quotes in front of every comma that is not meant to split, and, but for
  the last cell, in each cell as it is written -/
  splits : Splits false (MAX_COLS - 1) (row.map csvCell)

theorem rowPieces_eq_iff {row : Row} (hrow : row ≠ []) (hone : ∀ c ∈ row, OneLine c) :
    rowPieces row = [row] ↔ RowKept row := by
  have hroom : 0 < RECORD_SIZE - 1 := by decide
  unfold rowPieces
  constructor
  · intro h
    have hne : rowText row ≠ [] := by
      intro hnil
      rw [hnil, chunks_nil hroom] at h
      cases h
    have hchunks := chunks_of_ne_nil hroom hne
    have hshort : (rowText row).length < RECORD_SIZE := by
      by_contra hlong
      have hrest : (rowText row).drop (RECORD_SIZE - 1) ≠ [] := by
        rw [Ne, List.drop_eq_nil_iff]
        omega
      rw [hchunks, chunks_of_ne_nil hroom hrest] at h
      exact absurd (congrArg List.length h) (by simp)
    rw [hchunks, List.take_of_length_le (by omega), List.drop_of_length_le (by omega),
      chunks_nil hroom, List.map_singleton, List.singleton_inj] at h
    obtain ⟨hsplits, htrim⟩ := (rowOf_rowText_iff hshort).1 h
    exact ⟨hone, mt (rowText_eq_nil_iff hrow).2 hne, hshort, htrim, hsplits⟩
  · intro h
    have hne : rowText row ≠ [] := mt (rowText_eq_nil_iff hrow).1 h.notBlank
    have hshort := h.short
    rw [chunks_of_ne_nil hroom hne, List.take_of_length_le (by omega),
      List.drop_of_length_le (by omega), chunks_nil hroom, List.map_singleton,
      (rowOf_rowText_iff hshort).2 ⟨h.splits, h.trimmed⟩]

theorem rowPieces_first (row : Row) (rest : List Row) (h : rowPieces row = row :: rest) :
    rest = [] := by
  have hroom : 0 < RECORD_SIZE - 1 := by decide
  unfold rowPieces at h
  by_cases hne : rowText row = []
  · rw [hne, chunks_nil hroom] at h
    cases h
  rw [chunks_of_ne_nil hroom hne, List.map_cons, List.cons.injEq] at h
  obtain ⟨hfirst, rfl⟩ := h
  by_cases hdrop : (rowText row).drop (RECORD_SIZE - 1) = []
  · rw [hdrop, chunks_nil hroom]
    rfl
  · refine absurd hfirst (rowOf_front_ne ?_ (List.take_append_drop _ _).symm hdrop)
    rw [List.length_take]
    exact Nat.lt_of_le_of_lt (Nat.min_le_left _ _) (by decide)

theorem rowPieces_later (row : Row) : row ∉ (rowPieces row).tail := by
  have hroom : 0 < RECORD_SIZE - 1 := by decide
  intro h
  unfold rowPieces at h
  by_cases hne : rowText row = []
  · rw [hne, chunks_nil hroom] at h
    exact absurd h List.not_mem_nil
  rw [chunks_of_ne_nil hroom hne, List.map_cons, List.tail_cons] at h
  obtain ⟨piece, hpiece, hrow⟩ := List.mem_map.1 h
  obtain ⟨hpne, hple⟩ := mem_chunks hroom _ piece hpiece
  have hflat := congrArg List.length (flatten_chunks hroom ((rowText row).drop (RECORD_SIZE - 1)))
  have hmem : piece.length ≤ (chunks (RECORD_SIZE - 1)
      ((rowText row).drop (RECORD_SIZE - 1))).flatten.length := by
    rw [List.length_flatten]
    exact List.le_sum_of_mem (List.mem_map_of_mem hpiece)
  have hpos := List.length_pos_iff.2 hpne
  rw [hflat, List.length_drop] at hmem
  exact rowOf_later_ne (by omega) (by omega) hrow

theorem oneLine_rowText {row : Row} (h : ∀ c ∈ row, OneLine c) : OneLine (rowText row) := by
  intro x hx
  obtain rfl | ⟨f, hf, hx⟩ := mem_joinCsv hx
  · decide
  obtain ⟨c, hc, rfl⟩ := List.mem_map.1 hf
  have hcell : x = quote ∨ x ∈ c := by
    unfold csvCell at hx
    split at hx
    · simpa [or_comm, or_assoc] using hx
    · exact Or.inr hx
  obtain rfl | hx := hcell
  · decide
  · exact h c hc x hx

theorem rows_kept_iff {rows : List Row} (hrows : ∀ row ∈ rows, row ≠ []) :
    (rowTexts (fileLines (rows.flatMap fun row => csvLine (row.map csvCell)))).map rowOf = rows ↔
      ∀ row ∈ rows, RowKept row := by
  have hlines : (rows.flatMap fun row => csvLine (row.map csvCell)) =
      (rows.map rowText).flatMap (· ++ [newline]) := by
    rw [List.flatMap_map]
    simp only [csvLine_eq]
    rfl
  -- the cells that a file gives stay on their lines
  have hback : ∀ hone : (∀ row ∈ rows, ∀ c ∈ row, OneLine c),
      (rowTexts (fileLines ((rows.map rowText).flatMap (· ++ [newline])))).map rowOf =
        rows.flatMap rowPieces := by
    intro hone
    rw [rowTexts_lines, List.map_flatMap, List.flatMap_map]
    · rfl
    · intro s hs
      obtain ⟨row, hrow, rfl⟩ := List.mem_map.1 hs
      exact oneLine_rowText (hone row hrow)
  have hpieces := flatMap_eq_self_iff (l := rows) (fun row _ => rowPieces_first row)
    fun row _ => rowPieces_later row
  rw [hlines]
  constructor
  · intro h
    have hone : ∀ row ∈ rows, ∀ c ∈ row, OneLine c := by
      intro row hrow c hc
      rw [← h] at hrow
      obtain ⟨text, htext, rfl⟩ := List.mem_map.1 hrow
      exact oneLine_of_mem_rowOf (oneLine_of_mem_rowTexts htext) hc
    rw [hback hone, hpieces] at h
    exact fun row hrow => (rowPieces_eq_iff (hrows row hrow) (hone row hrow)).1 (h row hrow)
  · intro h
    have hone : ∀ row ∈ rows, ∀ c ∈ row, OneLine c := fun row hrow => (h row hrow).oneLine
    rw [hback hone, hpieces]
    exact fun row hrow => (rowPieces_eq_iff (hrows row hrow) (hone row hrow)).2 (h row hrow)

/-! ## The header -/

/-- The header line of a table. -/
def headerText (cols : List ColumnInfo) : Bytes := joinCsv (cols.map csvCol)

theorem trimUq_feed (s : Bytes) : trimUq (s ++ [newline]) = trimUq s := by
  unfold trimUq trimWs
  congr 1
  rw [List.dropWhile_append]
  cases s.dropWhile isSpace with
  | nil => rfl
  | cons c cs => rw [if_neg (by simp), List.rdropWhile_concat_pos _ _ _ (by decide)]

theorem hdrCol_feed (field : Bytes) : hdrCol (field ++ [newline]) = hdrCol field := by
  unfold hdrCol
  rw [trimUq_feed]

theorem header_feed {s : Bytes} (hs : s.length + 1 < RECORD_SIZE) :
    (splitCsv (s ++ [newline])).map hdrCol = (splitCsv s).map hdrCol := by
  obtain ⟨hjoin, hsplits⟩ := (splitCsv_eq_iff (by omega)).1 (rfl : splitCsv s = _)
  obtain hnil | ⟨front, last, hfields⟩ := List.eq_nil_or_concat (splitCsv s)
  · exact absurd hnil (splitCsv_ne_nil s)
  rw [List.concat_eq_append] at hfields
  rw [hfields] at hjoin hsplits
  have hset : (front ++ [last]).set front.length (last ++ [newline]) =
      front ++ [last ++ [newline]] := by simp
  have hfed : Splits false (MAX_COLS - 1) (front ++ [last ++ [newline]]) := by
    obtain ⟨-, hlen, hall⟩ := splits_iff.1 hsplits
    rw [← hset, splits_set_iff (by simp)]
    refine ⟨hlen, ⟨fun h => absurd h (by simp), fun h => ?_⟩, fun j _ f hf => hall j f hf⟩
    obtain ⟨q, hq⟩ := Option.isSome_iff_exists.1 ((hall front.length last (by simp)).2 h)
    rw [fieldEnd_append hq]
    cases q <;> rfl
  have hsplit : splitCsv (s ++ [newline]) = front ++ [last ++ [newline]] := by
    refine (splitCsv_eq_iff (by simpa using hs)).2 ⟨?_, hfed⟩
    rw [joinCsv_concat, hjoin]
  rw [hsplit, hfields]
  simp [hdrCol_feed]

theorem length_of_strstr {hay needle : Bytes} (h : strstr hay needle = true) :
    needle.length ≤ hay.length := by
  obtain ⟨t, ht, hprefix⟩ := List.any_eq_true.1 h
  exact (List.isPrefixOf_iff_prefix.1 hprefix).length_le.trans
    ((List.mem_tails _ _).1 ht).length_le

/-- A column takes as many bytes in the file as in the field it came from, at most. -/
theorem length_csvCol_le (field : Bytes) :
    (csvCol (hdrCol field)).length ≤ (trimUq field).length := by
  have hname : (hdrCol field).name.bytes.length ≤
      ((trimUq field).takeWhile (· != lparen)).length :=
    (List.length_take_le' _ _).trans (List.takeWhile_sublist _).length_le
  have htag : (colTag (hdrCol field).type).length ≤
      ((trimUq field).dropWhile (· != lparen)).length := by
    unfold hdrCol
    dsimp only
    split
    · rename_i h
      exact length_of_strstr h
    split
    · rename_i h
      exact length_of_strstr h
    split
    · rename_i h
      exact length_of_strstr h
    · exact Nat.zero_le _
  have htext := congrArg List.length
    (List.takeWhile_append_dropWhile (p := (· != lparen)) (l := trimUq field))
  rw [List.length_append] at htext
  rw [csvCol, List.length_append]
  omega

theorem trimUq_eq_of_length {s : Bytes} (h : s.length ≤ (trimUq s).length) : trimUq s = s := by
  obtain ⟨a, b, -, hs | hs⟩ := trimUq_around s
  · have hlen := congrArg List.length hs
    simp only [List.length_append] at hlen
    obtain rfl := List.eq_nil_of_length_eq_zero (show a.length = 0 by omega)
    obtain rfl := List.eq_nil_of_length_eq_zero (show b.length = 0 by omega)
    simpa using hs.symm
  · have hlen := congrArg List.length hs
    simp only [List.length_append, List.length_cons] at hlen
    omega

theorem hdrCol_csvCol_iff {col : ColumnInfo} (hparen : lparen ∉ col.name.bytes) :
    hdrCol (csvCol col) = col ↔ trimUq (csvCol col) = csvCol col := by
  constructor
  · intro h
    have hlen := length_csvCol_le (csvCol col)
    rw [h] at hlen
    exact trimUq_eq_of_length hlen
  · intro h
    have hname : col.name.bytes.all (· != lparen) = true := by
      rw [List.all_eq_true]
      intro c hc
      rw [bne_iff_ne]
      rintro rfl
      exact hparen hc
    have hopens : (colTag col.type).head?.all (· == lparen) = true := by
      cases col.type <;> rfl
    have htag : ∀ c ∈ (colTag col.type).head?, (c != lparen) = false := by
      intro c hc
      rw [bne, (Option.all_eq_true _ _).1 hopens c hc, Bool.not_true]
    have hspan := span_append hname htag
    unfold hdrCol
    rw [h, csvCol, hspan.1, hspan.2, strncpy_self]
    obtain ⟨name, type⟩ := col
    cases type <;> rfl

theorem header_cols_iff {cols : List ColumnInfo} (hparen : ∀ col ∈ cols, lparen ∉ col.name.bytes) :
    (splitCsv (headerText cols)).map hdrCol = cols ↔
      (headerText cols).length < RECORD_SIZE ∧
        (∀ col ∈ cols, trimUq (csvCol col) = csvCol col) ∧
        Splits false (MAX_COLS - 1) (cols.map csvCol) := by
  constructor
  · intro h
    have hle : List.Forall₂ (fun t g => t.length ≤ g.length) (cols.map csvCol)
        (splitCsv (headerText cols)) := by
      conv in cols.map csvCol => rw [← h]
      rw [List.map_map, List.forall₂_map_left_iff, List.forall₂_same]
      exact fun g _ => (length_csvCol_le g).trans (length_trimUq_le g)
    have hjoin := joinCsv_splitCsv (headerText cols)
    have hlen := length_joinCsv_mono hle
    rw [hjoin, List.length_take] at hlen
    have hshort : (headerText cols).length < RECORD_SIZE := by
      have hroom : RECORD_SIZE = 1024 := rfl
      unfold headerText at hlen ⊢
      omega
    rw [List.take_of_length_le (by omega)] at hjoin
    have hsame : splitCsv (headerText cols) = cols.map csvCol := joinCsv_inj_of_le hle hjoin
    rw [hsame, List.map_map] at h
    refine ⟨hshort, fun col hcol => ?_, ((splitCsv_eq_iff hshort).1 hsame).2⟩
    have hself : cols.map (hdrCol ∘ csvCol) = cols.map id := by rw [h, List.map_id]
    exact (hdrCol_csvCol_iff (hparen col hcol)).1 (List.map_inj_left.1 hself col hcol)
  · rintro ⟨hshort, htrim, hsplits⟩
    rw [(splitCsv_eq_iff hshort).2 ⟨rfl, hsplits⟩, List.map_map]
    conv_rhs => rw [← List.map_id cols]
    refine List.map_congr_left fun col hcol => ?_
    exact (hdrCol_csvCol_iff (hparen col hcol)).2 (htrim col hcol)

/-! ## Whole files -/

theorem fileLines_header {s : Bytes} (rest : Bytes) (hfeed : newline ∉ s)
    (hnul : ∀ c ∈ s, c ≠ 0) :
    ∃ header lines, fileLines (s ++ newline :: rest) = header :: lines ∧
      (splitCsv header).map hdrCol = (splitCsv s).map hdrCol ∧
      (s.length < RECORD_SIZE → rowTexts lines = rowTexts (fileLines rest)) := by
  have hroom : RECORD_SIZE = 1024 := rfl
  refine ⟨_, _, fileLines_of_ne_nil (by simp), ?_, fun hshort => ?_⟩
  · rw [fgets_line hfeed]
    split
    · rename_i hlt
      rw [cstr_eq_self]
      · exact header_feed (by omega)
      · intro c hc
        obtain hc | hc := List.mem_append.1 hc
        · exact hnul c hc
        · rw [List.mem_singleton.1 hc]
          decide
    · dsimp only
      rw [cstr_eq_self fun c hc => hnul c (List.mem_of_mem_take hc)]
      unfold splitCsv
      rw [List.take_take, Nat.min_self]
  · rw [fgets_line hfeed]
    split
    · rfl
    · -- the buffer is full of the header, and the line feed comes alone
      have hblank := rowTexts_line rest (s := []) (by simp [OneLine])
      rw [chunks_nil (by decide)] at hblank
      dsimp only
      rw [List.drop_of_length_le (by omega)]
      exact hblank

theorem fileLines_text {file header : Bytes} {lines : List Bytes}
    (h : fileLines file = header :: lines) : ∃ s, newline ∉ s ∧
      (splitCsv header).map hdrCol = (splitCsv s).map hdrCol := by
  have hfile : file ≠ [] := by
    rintro rfl
    cases h
  rw [fileLines_of_ne_nil hfile] at h
  obtain ⟨rfl, -⟩ := List.cons.inj h
  obtain ⟨s, hs, htext⟩ := fgets_text (RECORD_SIZE - 1) file
  have hlen := fgets_length (RECORD_SIZE - 1) file
  obtain htext | htext := htext
  · exact ⟨cstr s, fun hc => hs ((List.takeWhile_sublist _).subset hc), by rw [htext]⟩
  · rw [htext] at hlen ⊢
    unfold cstr
    rw [List.takeWhile_append]
    split
    · refine ⟨s, hs, ?_⟩
      rw [List.length_append, List.length_singleton] at hlen
      exact header_feed (by
        have hroom : RECORD_SIZE = 1024 := rfl
        omega)
    · exact ⟨s.takeWhile (· != 0), fun hc => hs ((List.takeWhile_sublist _).subset hc), rfl⟩

namespace TabVer

theorem tabLoad_spec {name file : Bytes} {tab : TabVer}
    (h : tabLoad name (some file) = .ok (some tab)) :
    ∃ header lines, fileLines file = header :: lines ∧
      tab.cols = (splitCsv header).map hdrCol ∧ tab.rows = (rowTexts lines).map rowOf := by
  obtain ⟨bytes, header, lines, hdr, tab₀, tab₁, hfile, hlines, hhdr, hrows, hidx, rfl⟩ :=
    tabLoad_cases h
  cases hfile
  have hnul : ∀ line ∈ lines, ∀ b ∈ line, b ≠ 0 := fun line hl =>
    readLines_noNul _ _ line (hlines ▸ List.mem_cons_of_mem header hl)
  have hschema := (loadRows_loading lines (loading_hdrTab name hdr) hnul hrows).2
  have hsame := (idxBuild_spec hidx).1
  refine ⟨header, lines, hlines, ?_, ?_⟩
  · rw [hsame]
    exact hschema.cols.trans (loadHdr_spec hhdr).2
  · rw [hsame]
    exact loadRows_rows hrows

/-- The loaded table has the columns and the rows of the saved one. -/
structure Restored (tab tab' : TabVer) : Prop where
  cols : tab'.cols = tab.cols
  pkIdx : tab'.pkIdx = tab.pkIdx
  ukIdx : tab'.ukIdx = tab.ukIdx
  rows : tab'.rows = tab.rows

theorem Restored.constraints {tab tab' : TabVer} (h : Restored tab tab')
    (hcon : tab.Constraints) : tab'.Constraints where
  pkInt := by
    rw [h.pkIdx, h.rows]
    exact hcon.pkInt
  pkDistinct := by
    rw [h.pkIdx, h.rows]
    exact hcon.pkDistinct
  ukDistinct := by
    rw [h.ukIdx, h.rows]
    exact hcon.ukDistinct

theorem Restored.symm {tab tab' : TabVer} (h : Restored tab tab') : Restored tab' tab :=
  ⟨h.cols.symm, h.pkIdx.symm, h.ukIdx.symm, h.rows.symm⟩

/-- A table whose file brings it back. -/
structure Storable (tab : TabVer) : Prop where
  noFeed : ∀ col ∈ tab.cols, newline ∉ col.name.bytes
  short : (headerText tab.cols).length < RECORD_SIZE
  trimmed : ∀ col ∈ tab.cols, trimUq (csvCol col) = csvCol col
  splits : Splits false (MAX_COLS - 1) (tab.cols.map csvCol)
  rows : ∀ row ∈ tab.rows, RowKept row
  constraints : tab.Constraints

theorem headerText_mem {cols : List ColumnInfo} {c : UInt8} (h : c ∈ headerText cols) :
    (∃ col ∈ cols, c ∈ col.name.bytes) ∨ c ≠ newline ∧ c ≠ 0 := by
  obtain rfl | ⟨f, hf, hc⟩ := mem_joinCsv h
  · exact Or.inr (by decide)
  obtain ⟨col, hcol, rfl⟩ := List.mem_map.1 hf
  obtain hc | hc := List.mem_append.1 hc
  · exact Or.inl ⟨col, hcol, hc⟩
  · have htag : (colTag col.type).all (fun c => c != newline && c != 0) = true := by
      cases col.type <;> rfl
    have hplain := List.all_eq_true.1 htag c hc
    rw [Bool.and_eq_true, bne_iff_ne, bne_iff_ne] at hplain
    exact Or.inr hplain

theorem csvText_eq (tab : TabVer) : csvText tab = headerText tab.cols ++
    newline :: tab.rows.flatMap fun row => csvLine (row.map csvCell) := by
  rw [csvText, csvLine_eq, List.append_assoc]
  rfl

variable {tab : TabVer}

theorem Shape.fileLines (h : tab.Shape) (hfeed : ∀ col ∈ tab.cols, newline ∉ col.name.bytes) :
    ∃ header lines, MiniDbms.fileLines (csvText tab) = header :: lines ∧
      (splitCsv header).map hdrCol = (splitCsv (headerText tab.cols)).map hdrCol ∧
      ((headerText tab.cols).length < RECORD_SIZE → ((rowTexts lines).map rowOf = tab.rows ↔
        ∀ row ∈ tab.rows, RowKept row)) := by
  have hfeed' : newline ∉ headerText tab.cols := by
    intro hc
    obtain ⟨col, hcol, hc⟩ | ⟨hc, -⟩ := headerText_mem hc
    · exact hfeed col hcol hc
    · exact hc rfl
  have hnul : ∀ c ∈ headerText tab.cols, c ≠ 0 := by
    intro c hc
    obtain ⟨col, -, hc⟩ | ⟨-, hc⟩ := headerText_mem hc
    · exact col.name.noNul c hc
    · exact hc
  obtain ⟨header, lines, hlines, hcols, htexts⟩ := fileLines_header
    (tab.rows.flatMap fun row => csvLine (row.map csvCell)) hfeed' hnul
  refine ⟨header, lines, by rw [csvText_eq, hlines], hcols, fun hshort => ?_⟩
  rw [htexts hshort]
  refine rows_kept_iff fun row hrow hnil => ?_
  have hlen := h.cells row hrow
  have hpos := h.cols_pos
  rw [hnil, List.length_nil] at hlen
  omega

theorem Shape.of_load (h : tab.Shape) {name : Bytes} {tab' : TabVer}
    (hload : tabLoad name (some (csvText tab)) = .ok (some tab')) (hsame : Restored tab tab') :
    tab.Storable := by
  obtain ⟨header, lines, hlines, hcols, hrows⟩ := tabLoad_spec hload
  have hfeed : ∀ col ∈ tab.cols, newline ∉ col.name.bytes := by
    obtain ⟨s, hs, htext⟩ := fileLines_text hlines
    rw [← hsame.cols, hcols, htext]
    intro col hcol hc
    obtain ⟨f, hf, rfl⟩ := List.mem_map.1 hcol
    refine hs (mem_of_mem_splitCsv hf (mem_of_mem_trimUq ?_))
    exact (List.takeWhile_sublist _).subset
      ((List.takeWhile_sublist _).subset (List.mem_of_mem_take hc))
  obtain ⟨header', lines', hlines', hcols', hkept⟩ := h.fileLines hfeed
  rw [hlines] at hlines'
  obtain ⟨rfl, rfl⟩ := List.cons.inj hlines'
  rw [← hcols, hsame.cols, eq_comm] at hcols'
  obtain ⟨hshort, htrim, hsplits⟩ := (header_cols_iff h.names).1 hcols'
  refine ⟨hfeed, hshort, htrim, hsplits, (hkept hshort).1 (hrows.symm.trans hsame.rows), ?_⟩
  exact hsame.symm.constraints (tabLoad_shape hload).2.2.2.1

theorem Storable.load (h : tab.Shape) (hst : tab.Storable) (name : Bytes) :
    ∃ tab', tabLoad name (some (csvText tab)) = .ok (some tab') ∧ Restored tab tab' := by
  obtain ⟨header, lines, hlines, hcols, hkept⟩ := h.fileLines hst.noFeed
  rw [(header_cols_iff h.names).2 ⟨hst.short, hst.trimmed, hst.splits⟩] at hcols
  have hrows := (hkept hst.short).2 hst.rows
  -- the header has room for its unique columns
  obtain ⟨hdr, hhdr⟩ : ∃ hdr, loadHdr header = .ok hdr := by
    refine (hdrLoop_ok_iff (splitCsv header) {} (Nat.zero_le _)).2 ?_
    rw [← length_colsOf .uk isUkField_iff, hcols, ← h.ukIdx]
    simpa using h.uks_le
  obtain ⟨hok, hhdrCols⟩ := loadHdr_spec hhdr
  rw [hcols] at hhdrCols
  have hpk : hdr.pkIdx = tab.pkIdx := by rw [hok.pkIdx, hhdrCols, h.pkIdx]
  have huk : hdr.ukIdx = tab.ukIdx := by rw [hok.ukIdx, hhdrCols, h.ukIdx]
  have hmem : ∀ text ∈ rowTexts lines, rowOf text ∈ tab.rows := by
    intro text htext
    rw [← hrows]
    exact List.mem_map_of_mem htext
  obtain ⟨tab₀, hload⟩ : ∃ tab₀, loadRows (hdrTab name hdr) lines = some tab₀ := by
    refine loadRows_isSome (fun text htext => ⟨?_, fun p hp => ?_⟩) ?_
    · have hlen := h.cells _ (hmem text htext)
      rw [rowOf, List.length_map] at hlen
      rw [hlen]
      exact congrArg List.length hhdrCols.symm
    · exact hst.constraints.pkInt p (hpk.symm.trans hp) _ (hmem text htext)
    · have hlen := congrArg List.length hrows
      rw [List.length_map] at hlen
      rw [hlen]
      simpa [hdrTab] using h.rows_le
  have hnul : ∀ line ∈ lines, ∀ b ∈ line, b ≠ 0 := fun line hl =>
    readLines_noNul _ _ line (hlines ▸ List.mem_cons_of_mem header hl)
  have hschema := (loadRows_loading lines (loading_hdrTab name hdr) hnul hload).2
  have hsame₀ : Restored tab tab₀ := by
    refine ⟨hschema.cols.trans hhdrCols, hschema.pkIdx.trans hpk, hschema.ukIdx.trans huk, ?_⟩
    rw [loadRows_rows hload, hrows]
    rfl
  have hbuilt := tab₀.idxBuild_ok_iff.2 (hsame₀.constraints hst.constraints)
  obtain ⟨tab₁, hidx⟩ : ∃ tab₁, tab₀.idxBuild = (tab₁, true) := ⟨_, Prod.ext rfl hbuilt⟩
  refine ⟨{ tab₁ with verId := 1 }, ?_, ?_⟩
  · unfold tabLoad
    have hread : readLines (csvText tab).length (csvText tab) = header :: lines := hlines
    simp only [hread, hhdr, Except.map, hload, Option.bind_some, hidx]
  · rw [(idxBuild_spec hidx).1]
    exact ⟨hsame₀.cols, hsame₀.pkIdx, hsame₀.ukIdx, hsame₀.rows⟩

/-- **Saving and loading.** The file `tab_save` writes is loaded as the table it was written
from, exactly when the table is one that files can hold. -/
theorem loaded_from_own_file_iff (h : tab.Shape) (name : Bytes) :
    (∃ tab', tabLoad name (some (csvText tab)) = .ok (some tab') ∧ Restored tab tab') ↔
      tab.Storable := by
  constructor
  · rintro ⟨tab', hload, hsame⟩
    exact h.of_load hload hsame
  · exact fun hst => hst.load h name

/-- The file is one `tab_save` writes. -/
def ownFile (name file : Bytes) : Bool :=
  match tabLoad name (some file) with
  | .ok (some tab) => csvText tab == file
  | _ => false

theorem ownFile_spec {name file : Bytes} (h : ownFile name file = true) :
    ∃ tab, tabLoad name (some file) = .ok (some tab) ∧ csvText tab = file := by
  unfold ownFile at h
  split at h
  · rename_i tab hload
    exact ⟨tab, hload, eq_of_beq h⟩
  · cases h

theorem loaded_from_own_file_iff_comma :
    ∃ tab, tabLoad (str "t") (some (str "id(PK),v\n1,'a,b'\n")) = .ok (some tab) ∧
      tab.Storable := by
  obtain ⟨tab, hload, htext⟩ := ownFile_spec
    (show ownFile (str "t") (str "id(PK),v\n1,'a,b'\n") = true by decide +kernel)
  refine ⟨tab, hload, (loaded_from_own_file_iff (tabLoad_shape hload).1 (str "t")).1 ?_⟩
  exact ⟨tab, by rw [htext, hload], rfl, rfl, rfl, rfl⟩

end TabVer

end MiniDbms
