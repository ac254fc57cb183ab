import MiniDbms.Legacy.Fields
import MiniDbms.Db.Shape

/-!
# The rows that UPDATE builds

A statement that finds its row through an index replaces the text of one field.  The
loop over all rows and the one over the file of a truncated table write every field
anew, and `append_csv_field` puts quotes around a field that still has its own.
-/

namespace MiniDbms.Legacy

/-- `set_value`. -/
def setValue (stmt : Statement) : Bytes := normV 256 stmt.setVal.bytes

/-- One field of a row and what follows it, a comma or the end of the line. -/
def scanField : Bool → Bytes → Bytes × Bytes
  | _, [] => ([], [])
  | q, c :: cs =>
    let q := if c = quote then !q else q
    if (c = comma && !q) || isLineEnd c then ([], c :: cs)
    else ((c :: (scanField q cs).1), (scanField q cs).2)

/-- The loop over the fields: the text in front of a field, the field and the rest. -/
def findField : Nat → Bytes → Option (Bytes × Bytes × Bytes)
  | 0, row => some ([], scanField false row)
  | k + 1, row =>
    match scanField false row with
    | (f, c :: rest) =>
      if c = comma then
        (findField k rest).map fun (front, found) => (f ++ comma :: front, found)
      else none
    | (_, []) => none

/-- `build_updated_row`. -/
def buildUpdatedRow (schema : Schema) (row : Bytes) (setIdx : Nat) (value : Bytes) :
    Option Bytes :=
  if schema.cols.length ≤ setIdx then none
  else
    match findField setIdx row with
    | none => none
    | some (front, _, rest) =>
      let formatted :=
        if comma ∈ value then csvField value else value.take (RECORD_SIZE - 1)
      if RECORD_SIZE ≤ front.length + formatted.length + rest.length then none
      else some (front ++ formatted ++ rest)

/-- `append_csv_field`. -/
def appendCsvField (row value : Bytes) (isLast : Bool) : Option Bytes :=
  let text := csvField value ++ if isLast then [] else [comma]
  if RECORD_SIZE - row.length ≤ text.length then none else some (row ++ text)

/-- The loop that writes all fields of a row. -/
def rebuildRow (schema : Schema) (row : Bytes) (setIdx : Nat) (value : Bytes) : Option Bytes :=
  (List.range schema.cols.length).foldlM
    (fun line j =>
      appendCsvField line (if j = setIdx then value else (field row j).getD [])
        (j + 1 == schema.cols.length)) []

/-- The row that `execute_update` puts into a matching slot. -/
def executeUpdateRow : Schema → Bytes → Nat → Bytes → Option Bytes := rebuildRow

/-- The row that `rewrite_truncated_update` writes for a matching line. -/
def rewriteTruncatedUpdateRow : Schema → Bytes → Nat → Bytes → Option Bytes := rebuildRow

/-! ## The field that is replaced -/

theorem scanField_append {rest : Bytes} : ∀ {f : Bytes} {q q' : Bool}, fieldEnd q f = some q' →
    f.all (!isLineEnd ·) = true → (rest = [] ∨ q' = false ∧ rest.head? = some comma) →
      scanField q (f ++ rest) = (f, rest)
  | [], q, q', h, _, hrest => by
      cases h
      obtain rfl | ⟨rfl, hrest⟩ := hrest
      · rfl
      · cases rest with
        | nil => rfl
        | cons c rest =>
            obtain rfl : c = comma := Option.some.inj hrest
            rw [List.nil_append, scanField, if_pos (by decide)]
  | c :: f, q, q', h, hf, hrest => by
      rw [List.all_cons, Bool.and_eq_true, Bool.not_eq_true'] at hf
      rw [fieldEnd] at h
      by_cases hsplit : (c = comma && !(if c = quote then !q else q)) = true
      · rw [if_pos hsplit] at h
        cases h
      · rw [if_neg hsplit] at h
        have hno : ¬ ((c = comma && !(if c = quote then !q else q)) || isLineEnd c) = true := by
          rw [hf.1, Bool.or_false]
          exact hsplit
        rw [List.cons_append, scanField, if_neg hno, scanField_append h hf.2 hrest]

theorem scanField_whole : ∀ {f : Bytes} {q : Bool}, f.all (!isLineEnd ·) = true →
    (scanField q f).1 ++ (scanField q f).2 = f ∧
      ((scanField q f).2 = [] ↔ (fieldEnd q f).isSome = true) ∧
      ((scanField q f).2 = [] ∨ (scanField q f).2.head? = some comma)
  | [], q, _ => ⟨rfl, by simp [scanField, fieldEnd], Or.inl rfl⟩
  | c :: f, q, hf => by
      rw [List.all_cons, Bool.and_eq_true, Bool.not_eq_true'] at hf
      rw [scanField, fieldEnd, hf.1, Bool.or_false]
      by_cases hsplit : (c = comma && !(if c = quote then !q else q)) = true
      · rw [if_pos hsplit, if_pos hsplit]
        simp only [Bool.and_eq_true, decide_eq_true_eq] at hsplit
        obtain ⟨rfl, -⟩ := hsplit
        simp
      · rw [if_neg hsplit, if_neg hsplit]
        obtain ⟨happ, hnil, hhead⟩ := scanField_whole (q := if c = quote then !q else q) hf.2
        exact ⟨congrArg (c :: ·) happ, hnil, hhead⟩

/-- What a new text for the field `k` makes of a row, apart from what is left of the
field when it is the last one and holds commas. -/
theorem findField_join : ∀ {fs : List Bytes} {left k : Nat} {f : Bytes}, Splits false left fs →
    fs[k]? = some f → (∀ g ∈ fs.take (k + 1), g.all (!isLineEnd ·) = true) →
      ∃ front mid rest, findField k (joinCsv fs) = some (front, mid, rest) ∧
        ∃ more, (more = [] ↔ (fieldEnd false f).isSome = true) ∧
          (more = [] ∨ more.head? = some comma) ∧
          ∀ g, front ++ g ++ rest = joinCsv (fs.set k (g ++ more))
  | [f'], left, 0, f, h, hk, hends => by
      obtain rfl : f' = f := Option.some.inj hk
      have hf := hends f' List.mem_cons_self
      obtain ⟨-, hnil, hhead⟩ := scanField_whole (q := false) hf
      exact ⟨[], (scanField false f').1, (scanField false f').2, rfl, (scanField false f').2,
        hnil, hhead, fun g => rfl⟩
  | [f'], left, k + 1, f, h, hk, hends => by cases hk
  | f' :: f'' :: fs, 0, k, f, h, hk, hends => by cases h
  | f' :: f'' :: fs, left + 1, 0, f, h, hk, hends => by
      obtain rfl : f' = f := Option.some.inj hk
      have hf := hends f' List.mem_cons_self
      refine ⟨[], f', comma :: joinCsv (f'' :: fs), ?_, [], ?_, Or.inl rfl, ?_⟩
      · rw [joinCsv, findField, scanField_append h.1 hf (Or.inr ⟨rfl, rfl⟩)]
      · rw [h.1]
        exact iff_of_true rfl rfl
      · intro g
        rw [List.append_nil, List.set_cons_zero, joinCsv]
        rfl
  | f' :: f'' :: fs, left + 1, k + 1, f, h, hk, hends => by
      have hf := hends f' List.mem_cons_self
      obtain ⟨front, mid, rest, hfind, more, hmore, hhead, hset⟩ :=
        findField_join h.2 hk fun g hg => hends g (List.mem_cons_of_mem f' hg)
      refine ⟨f' ++ comma :: front, mid, rest, ?_, more, hmore, hhead, ?_⟩
      · rw [joinCsv, findField, scanField_append h.1 hf (Or.inr ⟨rfl, rfl⟩)]
        simp only [if_true, hfind, Option.map_some]
      · intro g
        have hne : (f'' :: fs).set k (g ++ more) ≠ [] := by simp
        rw [List.set_cons_succ]
        cases htail : (f'' :: fs).set k (g ++ more) with
        | nil => exact absurd htail hne
        | cons a as =>
            rw [joinCsv, ← htail, ← hset g]
            simp

/-! ## The fields that are written anew -/

theorem foldlM_room : ∀ {ws : List Bytes} {line : Bytes},
    (line ++ ws.flatten).length < RECORD_SIZE →
      ws.foldlM (fun line w => if RECORD_SIZE - line.length ≤ w.length then none
        else some (line ++ w)) line = some (line ++ ws.flatten)
  | [], line, _ => by simp
  | w :: ws, line, h => by
      have hroom : ¬ RECORD_SIZE - line.length ≤ w.length := by
        simp only [List.flatten_cons, List.length_append] at h
        omega
      rw [List.foldlM_cons, if_neg hroom, Option.bind_eq_bind, Option.bind_some, foldlM_room]
      · rw [List.flatten_cons, List.append_assoc]
      · rw [List.append_assoc, ← List.flatten_cons]
        exact h

/-- The text of a row with all fields written anew and a new value for one of them. -/
def rebuiltText (row : Bytes) (k : Nat) (value : Bytes) : Bytes :=
  joinCsv (((parseCsvRow row).map csvField).set k (csvField value))

theorem rebuildRow_eq {schema : Schema} {row value : Bytes} {k : Nat}
    (hcols : (parseCsvRow row).length = schema.cols.length)
    (hfit : (rebuiltText row k value).length < RECORD_SIZE) :
    rebuildRow schema row k value = some (rebuiltText row k value) := by
  let fs := ((parseCsvRow row).map csvField).set k (csvField value)
  have hlen : fs.length = schema.cols.length := by
    rw [List.length_set, List.length_map, hcols]
  have hpieces : (fs.zipIdx.map fun e =>
      e.1 ++ if e.2 + 1 = 0 + fs.length then [] else [comma]) =
        (List.range schema.cols.length).map fun j =>
          csvField (if j = k then value else (field row j).getD []) ++
            if (j + 1 == schema.cols.length) = true then [] else [comma] := by
    apply List.ext_getElem
    · simp [hlen]
    · intro j hj hj'
      rw [List.length_map, List.length_zipIdx, hlen] at hj
      have hparse : j < (parseCsvRow row).length := by omega
      simp only [List.getElem_map, List.getElem_zipIdx, List.getElem_range, beq_iff_eq,
        Nat.zero_add, hlen, List.append_cancel_right_eq, fs]
      rw [List.getElem_set, List.getElem_map, field, List.getElem?_eq_getElem hparse]
      by_cases hjk : j = k
      · rw [if_pos hjk, if_pos hjk.symm]
      · rw [if_neg hjk, if_neg (Ne.symm hjk), Option.getD_some]
  have hflat := joinCsv_pieces fs 0
  have hroom := @foldlM_room (fs.zipIdx.map fun e =>
    e.1 ++ if e.2 + 1 = 0 + fs.length then [] else [comma]) []
  rw [List.nil_append, hflat] at hroom
  have htext := hroom hfit
  rw [hpieces, List.foldlM_map] at htext
  exact htext

/-! ## When only one column changes -/

/-- The new row has the columns of the old one, with the new value in one of them. -/
def OnlyColumn (row : Bytes) (k : Nat) (value : Bytes) (new : Option Bytes) : Prop :=
  new.map columns = some ((columns row).set k value)

/-- A new value and the fields around it that come through every path. -/
structure PlainUpdate (row : Bytes) (k : Nat) (value : Bytes) : Prop where
  ends : ∀ f ∈ (parseCsvRow row).take (k + 1), f.all (!isLineEnd ·) = true
  whole : ∀ f, (parseCsvRow row)[k]? = some f → (fieldEnd false f).isSome = true
  bare : ∀ j f, (parseCsvRow row)[j]? = some f → j ≠ k → comma ∈ f →
    j + 1 = MAX_COLS ∧ trimUq f = f
  closed : k + 1 < (parseCsvRow row).length → fieldEnd false (csvField value) = some false
  ended : k + 1 < MAX_COLS → (fieldEnd false (csvField value)).isSome = true
  kept : trimUq (csvField value) = value

section Columns

variable {schema : Schema} {row value : Bytes} {k : Nat}

theorem csvField_short (hvalue : value.length ≤ 255) :
    (csvField value).length + 1 < RECORD_SIZE := by
  unfold csvField RECORD_SIZE
  split
  · simp only [List.length_append, List.length_cons, List.length_take, List.length_nil]
    omega
  · omega

theorem length_csvField_le {f : Bytes} (hf : f.length < RECORD_SIZE) :
    f.length ≤ (csvField f).length := by
  unfold csvField RECORD_SIZE at *
  split
  · simp only [List.length_append, List.length_cons, List.length_take, List.length_nil]
    omega
  · exact le_rfl

theorem map_count_set (hrow : row.length < RECORD_SIZE) (hvalue : value.length ≤ 255) :
    ((parseCsvRow row).set k (csvField value)).map (·.count comma) =
      ((columns row).set k value).map (·.count comma) := by
  unfold columns
  rw [List.map_set, List.map_set, count_comma_csvField (csvField_short hvalue), List.map_map]
  congr 1
  refine List.map_congr_left fun f hf => ?_
  exact (count_comma_normV (length_lt_of_mem_parse hrow hf)).symm

theorem map_normV_set_iff {fs : List Bytes} (hfs : fs.length = (parseCsvRow row).length)
    (hk : k < (parseCsvRow row).length) (hvalue : value.length ≤ 255) :
    (fs.set k (csvField value)).map (normV RECORD_SIZE) = (columns row).set k value ↔
      (∀ j ≠ k, (fs[j]?).map (normV RECORD_SIZE) =
        ((parseCsvRow row)[j]?).map (normV RECORD_SIZE)) ∧
      trimUq (csvField value) = value := by
  have hshort := csvField_short hvalue
  have hnorm : normV RECORD_SIZE (csvField value) = trimUq (csvField value) := by
    unfold normV
    rw [List.take_of_length_le (by omega)]
  unfold columns
  rw [List.map_set, hnorm, set_eq_set_iff (by simpa using hfs) (by simpa using hk)]
  simp only [List.getElem?_map]

theorem length_set_le (hrow : row.length < RECORD_SIZE) (hk : k < (parseCsvRow row).length) :
    (joinCsv ((parseCsvRow row).set k (csvField value))).length ≤
      (rebuiltText row k value).length := by
  have hne : ∀ f : Bytes → Bytes, ((parseCsvRow row).map f).set k (csvField value) ≠ [] := by
    intro f h
    have := congrArg List.length h
    simp only [List.length_set, List.length_map, List.length_nil] at this
    omega
  have hid := hne id
  rw [List.map_id] at hid
  have hsum : (((parseCsvRow row).set k (csvField value)).map List.length).sum ≤
      ((((parseCsvRow row).map csvField).set k (csvField value)).map List.length).sum := by
    apply List.Forall₂.sum_le_sum
    rw [List.forall₂_iff_get]
    refine ⟨by simp, ?_⟩
    intro j hj hj'
    simp only [List.get_eq_getElem, List.getElem_map, List.getElem_set]
    by_cases hjk : k = j
    · rw [if_pos hjk, if_pos hjk]
    · rw [if_neg hjk, if_neg hjk]
      exact length_csvField_le (length_lt_of_mem_parse hrow (List.getElem_mem _))
  have h1 := length_joinCsv hid
  have h2 := length_joinCsv (hne csvField)
  rw [rebuiltText]
  simp only [List.length_set, List.length_map] at h1 h2
  omega

/-- The row of the path that splices the text, cut as it is by `findField`. -/
theorem buildUpdatedRow_eq (hk : k < schema.cols.length) (hvalue : value.length ≤ 255) {front mid rest : Bytes}
    (hfind : findField k row = some (front, mid, rest)) :
    buildUpdatedRow schema row k value =
      if RECORD_SIZE ≤ (front ++ csvField value ++ rest).length then none
      else some (front ++ csvField value ++ rest) := by
  have hformat : (if comma ∈ value then csvField value else value.take (RECORD_SIZE - 1)) =
      csvField value := by
    split
    · rfl
    · rename_i hcomma
      rw [csvField_bare hcomma, List.take_of_length_le]
      unfold RECORD_SIZE
      omega
  unfold buildUpdatedRow
  rw [if_neg (by omega), hfind]
  simp only [hformat, List.length_append]

theorem buildUpdatedRow_iff (hrow : row.length < RECORD_SIZE)
    (hcols : (parseCsvRow row).length = schema.cols.length) (hk : k < schema.cols.length)
    (hvalue : value.length ≤ 255) (hfit : (rebuiltText row k value).length < RECORD_SIZE)
    (hends : ∀ f ∈ (parseCsvRow row).take (k + 1), f.all (!isLineEnd ·) = true) :
    OnlyColumn row k value (buildUpdatedRow schema row k value) ↔
      (∀ f, (parseCsvRow row)[k]? = some f → (fieldEnd false f).isSome = true) ∧
      Splits false (MAX_COLS - 1) ((parseCsvRow row).set k (csvField value)) ∧
      trimUq (csvField value) = value := by
  obtain ⟨hjoin, hsplits⟩ := (parseCsvRow_eq_iff hrow).1 (rfl : parseCsvRow row = _)
  have hk' : k < (parseCsvRow row).length := by omega
  have hget : (parseCsvRow row)[k]? = some (parseCsvRow row)[k] := List.getElem?_eq_getElem hk'
  obtain ⟨front, mid, rest, hfind, more, hmore, hhead, hset⟩ :=
    findField_join hsplits hget hends
  rw [hjoin] at hfind
  rw [buildUpdatedRow_eq hk hvalue hfind, hset]
  have hlen : (joinCsv ((parseCsvRow row).set k (csvField value))).length ≤
      (rebuiltText row k value).length := length_set_le hrow hk'
  constructor
  · intro h
    obtain hnil | hcomma := hhead
    · have hwhole := hmore.1 hnil
      rw [hnil, List.append_nil, if_neg (by omega), OnlyColumn, Option.map_some,
        Option.some.injEq, columns_join_iff (by omega) (map_count_set hrow hvalue),
        map_normV_set_iff rfl hk' hvalue] at h
      refine ⟨fun f hf => ?_, h.1, h.2.2⟩
      rw [hget] at hf
      rw [← Option.some.inj hf]
      exact hwhole
    · -- what is left of the field brings more commas than the new value has
      exfalso
      rw [OnlyColumn] at h
      split at h
      · cases h
      · rename_i hroom
        rw [Option.map_some, Option.some.injEq] at h
        obtain ⟨hjoin', hsplits'⟩ := (parseCsvRow_eq_iff (by omega)).1
          (rfl : parseCsvRow (joinCsv ((parseCsvRow row).set k (csvField value ++ more))) = _)
        have hcount := count_joinCsv hsplits'.ne_nil
        have hne : (parseCsvRow row).set k (csvField value ++ more) ≠ [] := by
          intro hnil
          have := congrArg List.length hnil
          simp only [List.length_set, List.length_nil] at this
          omega
        rw [hjoin', count_joinCsv hne] at hcount
        have hcols' := congrArg List.length h
        have hvals := congrArg (List.map (·.count comma)) h
        rw [← map_count_set hrow hvalue, columns, List.map_map] at hvals
        have hparse : (parseCsvRow (joinCsv ((parseCsvRow row).set k (csvField value ++ more)))).map
            (·.count comma) = ((parseCsvRow row).set k (csvField value)).map (·.count comma) := by
          rw [← hvals]
          refine List.map_congr_left fun f hf => ?_
          exact (count_comma_normV (length_lt_of_mem_parse (by omega) hf)).symm
        rw [hparse] at hcount
        simp only [columns, List.length_map, List.length_set] at hcols'
        rw [hcols', List.length_set, Nat.add_right_cancel_iff, List.map_set, List.map_set,
          List.sum_set, List.sum_set, List.count_append] at hcount
        have hpos : 0 < more.count comma := by
          cases more with
          | nil => cases hcomma
          | cons c more =>
              obtain rfl : c = comma := Option.some.inj hcomma
              rw [List.count_cons_self]
              omega
        rw [List.length_map, if_pos hk', if_pos hk'] at hcount
        omega
  · rintro ⟨hwhole, hsplits', hkept⟩
    rw [hmore.2 (hwhole _ hget), List.append_nil, if_neg (by omega), OnlyColumn, Option.map_some,
      Option.some.injEq, columns_join_iff (by omega) (map_count_set hrow hvalue),
      map_normV_set_iff rfl hk' hvalue]
    exact ⟨hsplits', fun _ _ => rfl, hkept⟩

theorem csvField_fits (hk : k < (parseCsvRow row).length)
    (hfit : (rebuiltText row k value).length < RECORD_SIZE) {j : Nat} {f : Bytes}
    (hf : (parseCsvRow row)[j]? = some f) (hjk : j ≠ k) : (csvField f).length + 1 < RECORD_SIZE := by
  obtain ⟨hj, -⟩ := List.getElem?_eq_some_iff.1 hf
  have hmem : csvField f ∈ ((parseCsvRow row).map csvField).set k (csvField value) := by
    refine List.mem_of_getElem? (i := j) ?_
    rw [List.getElem?_set_ne (Ne.symm hjk), List.getElem?_map, hf]
    rfl
  have hlen := length_joinCsv_of_mem hmem
  rw [List.length_set, List.length_map] at hlen
  rw [rebuiltText] at hfit
  omega

theorem rebuildRow_iff (hrow : row.length < RECORD_SIZE)
    (hcols : (parseCsvRow row).length = schema.cols.length) (hk : k < schema.cols.length)
    (hvalue : value.length ≤ 255) (hfit : (rebuiltText row k value).length < RECORD_SIZE) :
    OnlyColumn row k value (rebuildRow schema row k value) ↔
      Splits false (MAX_COLS - 1) (((parseCsvRow row).map csvField).set k (csvField value)) ∧
      (∀ j ≠ k, ∀ f, (parseCsvRow row)[j]? = some f →
        normV RECORD_SIZE (csvField f) = normV RECORD_SIZE f) ∧
      trimUq (csvField value) = value := by
  have hk' : k < (parseCsvRow row).length := by omega
  have hcount : (((parseCsvRow row).map csvField).set k (csvField value)).map (·.count comma) =
      ((columns row).set k value).map (·.count comma) := by
    rw [← map_count_set hrow hvalue, List.map_set, List.map_set,
      set_eq_set_iff (by simp) (by simpa using hk')]
    refine ⟨fun j hjk => ?_, rfl⟩
    rw [List.map_map, List.getElem?_map, List.getElem?_map]
    cases hf : (parseCsvRow row)[j]? with
    | none => rfl
    | some f => exact congrArg some (count_comma_csvField (csvField_fits hk' hfit hf hjk))
  rw [rebuildRow_eq hcols hfit, OnlyColumn, Option.map_some, Option.some.injEq, rebuiltText,
    columns_join_iff hfit hcount, map_normV_set_iff (List.length_map _) hk' hvalue]
  refine and_congr_right fun _ => and_congr_left fun _ => forall₂_congr fun j _ => ?_
  rw [List.getElem?_map]
  cases (parseCsvRow row)[j]? with
  | none => simp
  | some f => simp

/-- Other fields with commas come through only as the last of `MAX_COLS` fields. -/
theorem splits_rebuilt_iff (hrow : row.length < RECORD_SIZE) (hk : k < (parseCsvRow row).length)
    (hfit : (rebuiltText row k value).length < RECORD_SIZE) :
    Splits false (MAX_COLS - 1) (((parseCsvRow row).map csvField).set k (csvField value)) ∧
      (∀ j ≠ k, ∀ f, (parseCsvRow row)[j]? = some f →
        normV RECORD_SIZE (csvField f) = normV RECORD_SIZE f) ↔
    Splits false (MAX_COLS - 1) ((parseCsvRow row).set k (csvField value)) ∧
      (∀ j f, (parseCsvRow row)[j]? = some f → j ≠ k → comma ∈ f →
        j + 1 = MAX_COLS ∧ trimUq f = f) := by
  obtain ⟨-, hsplits⟩ := (parseCsvRow_eq_iff hrow).1 (rfl : parseCsvRow row = _)
  obtain ⟨-, hlen, hfields⟩ := splits_iff.1 hsplits
  have hcols : 0 < MAX_COLS := by decide
  have hquoted : ∀ {j f}, (parseCsvRow row)[j]? = some f → j ≠ k → comma ∈ f →
      csvField f = quote :: (f ++ [quote]) ∧ normV RECORD_SIZE (csvField f) = f ∧
        normV RECORD_SIZE f = trimUq f := by
    intro j f hf hjk hcomma
    have hfits := csvField_fits hk hfit hf hjk
    have huncut := csvField_uncut hcomma hfits
    have hshort := length_lt_of_mem_parse hrow (List.mem_of_getElem? hf)
    refine ⟨huncut, ?_, ?_⟩
    · unfold normV
      rw [List.take_of_length_le (by omega), huncut, trimUq_quoted]
    · unfold normV
      rw [List.take_of_length_le (by omega)]
  rw [splits_set_iff hk, splits_set_iff (by simpa using hk), List.length_map]
  constructor
  · rintro ⟨⟨-, hself, hother⟩, hvalues⟩
    refine ⟨⟨hlen, hself, fun j _ f hf => hfields j f hf⟩, ?_⟩
    intro j f hf hjk hcomma
    obtain ⟨huncut, hnorm, htrim⟩ := hquoted hf hjk hcomma
    constructor
    · obtain ⟨hj, -⟩ := List.getElem?_eq_some_iff.1 hf
      by_contra hlast
      have hroom : j < MAX_COLS - 1 := by omega
      have hsome := (hother j hjk (csvField f) (by rw [List.getElem?_map, hf]; rfl)).2 hroom
      rw [huncut, fieldEnd_requoted ((hfields j f hf).2 hroom) hcomma] at hsome
      cases hsome
    · rw [← htrim, ← hvalues j hjk f hf, hnorm]
  · rintro ⟨⟨-, hself, -⟩, hbare⟩
    constructor
    · refine ⟨hlen, hself, ?_⟩
      intro j hjk g hg
      rw [List.getElem?_map] at hg
      obtain ⟨f, hf, rfl⟩ := Option.map_eq_some_iff.1 hg
      by_cases hcomma : comma ∈ f
      · have hlast := (hbare j f hf hjk hcomma).1
        exact ⟨fun h => absurd h (by omega), fun h => absurd h (by omega)⟩
      · rw [csvField_bare hcomma]
        exact hfields j f hf
    · intro j hjk f hf
      by_cases hcomma : comma ∈ f
      · obtain ⟨-, hnorm, htrim⟩ := hquoted hf hjk hcomma
        rw [hnorm, htrim, (hbare j f hf hjk hcomma).2]
      · rw [csvField_bare hcomma]

theorem splits_spliced_iff (hrow : row.length < RECORD_SIZE) (hk : k < (parseCsvRow row).length) :
    Splits false (MAX_COLS - 1) ((parseCsvRow row).set k (csvField value)) ↔
      (k + 1 < (parseCsvRow row).length → fieldEnd false (csvField value) = some false) ∧
      (k + 1 < MAX_COLS → (fieldEnd false (csvField value)).isSome = true) := by
  obtain ⟨-, hsplits⟩ := (parseCsvRow_eq_iff hrow).1 (rfl : parseCsvRow row = _)
  obtain ⟨-, hlen, hfields⟩ := splits_iff.1 hsplits
  have hroom : k < MAX_COLS - 1 ↔ k + 1 < MAX_COLS := by omega
  rw [splits_set_iff hk, FieldOk, hroom]
  constructor
  · exact fun h => h.2.1
  · exact fun h => ⟨hlen, h, fun j _ f hf => hfields j f hf⟩

theorem setValue_length (stmt : Statement) : (setValue stmt).length ≤ 255 := by
  refine (length_trimUq_le _).trans ?_
  rw [List.length_take]
  exact Nat.min_le_left _ _

end Columns

/-- Every path of UPDATE changes only the SET column. -/
def AllPathsAgree (schema : Schema) (row : Bytes) (k : Nat) (value : Bytes) : Prop :=
  OnlyColumn row k value (buildUpdatedRow schema row k value) ∧
  OnlyColumn row k value (executeUpdateRow schema row k value) ∧
  OnlyColumn row k value (rewriteTruncatedUpdateRow schema row k value)

/-- The paths agree on plain updates, and where no line end is in the row on no others. -/
theorem update_paths_iff {schema : Schema} {row : Bytes} {k : Nat} (stmt : Statement)
    (hrow : row.length < RECORD_SIZE) (hcols : (parseCsvRow row).length = schema.cols.length)
    (hk : k < schema.cols.length)
    (hfit : (rebuiltText row k (setValue stmt)).length < RECORD_SIZE) :
    (PlainUpdate row k (setValue stmt) → AllPathsAgree schema row k (setValue stmt)) ∧
    (row.all (!isLineEnd ·) = true →
      (AllPathsAgree schema row k (setValue stmt) ↔ PlainUpdate row k (setValue stmt))) := by
  have hvalue := setValue_length stmt
  have hk' : k < (parseCsvRow row).length := by omega
  have hrebuilt := rebuildRow_iff hrow hcols hk hvalue hfit
  have hspliced := @splits_spliced_iff row (setValue stmt) k hrow hk'
  have hsplits := splits_rebuilt_iff hrow hk' hfit
  have hplain : PlainUpdate row k (setValue stmt) → AllPathsAgree schema row k (setValue stmt) := by
    intro h
    have hsplits' := hspliced.2 ⟨h.closed, h.ended⟩
    have hall := hsplits.2 ⟨hsplits', h.bare⟩
    have hnew := hrebuilt.2 ⟨hall.1, hall.2, h.kept⟩
    exact ⟨(buildUpdatedRow_iff hrow hcols hk hvalue hfit h.ends).2 ⟨h.whole, hsplits', h.kept⟩,
      hnew, hnew⟩
  refine ⟨hplain, fun hends => ⟨fun h => ?_, hplain⟩⟩
  have hends' : ∀ f ∈ (parseCsvRow row).take (k + 1), f.all (!isLineEnd ·) = true := by
    intro f hf
    rw [List.all_eq_true] at hends ⊢
    exact fun c hc => hends c (mem_of_mem_splitCsv (List.mem_of_mem_take hf) hc)
  obtain ⟨hwhole, hsplits', hkept⟩ :=
    (buildUpdatedRow_iff hrow hcols hk hvalue hfit hends').1 h.1
  obtain ⟨hnew, hvalues, -⟩ := hrebuilt.1 h.2.1
  obtain ⟨hclosed, hended⟩ := hspliced.1 hsplits'
  exact ⟨hends', hwhole, (hsplits.1 ⟨hnew, hvalues⟩).2, hclosed, hended, hkept⟩

/-- `UPDATE t SET c = 'd' …` on rows of three columns. -/
def setD : Statement := { setVal := strncpy 255 (str "'d'") }

theorem setD_paths : AllPathsAgree (parseHeader (str "a(PK),b,c")) (str "1,x,y") 2 (setValue setD) :=
  ((@update_paths_iff (parseHeader (str "a(PK),b,c")) (str "1,x,y") 2 setD
    (by decide +kernel) (by decide +kernel) (by decide +kernel) (by decide +kernel)).2
      (by decide +kernel)).2
      ⟨by decide +kernel, by decide +kernel, by
        intro j f hf _ hcomma
        have hno : ∀ f ∈ parseCsvRow (str "1,x,y"), comma ∉ f := by decide +kernel
        exact absurd hcomma (hno f (List.mem_of_getElem? hf)), by decide +kernel,
        by decide +kernel, by decide +kernel⟩

/-- A quoted field with a comma gets a second pair of quotes and falls apart. -/
theorem requoted_field_splits :
    parseCsvRow (str "1,'a,b',y") = [str "1", str "'a,b'", str "y"] ∧
    buildUpdatedRow (parseHeader (str "a(PK),b,c")) (str "1,'a,b',y") 2 (setValue setD) =
      some (str "1,'a,b',d") ∧
    executeUpdateRow (parseHeader (str "a(PK),b,c")) (str "1,'a,b',y") 2 (setValue setD) =
      some (str "1,''a,b'',d") ∧
    columns (str "1,''a,b'',d") = [str "1", str "''a", str "b''", str "d"] ∧
    ¬ AllPathsAgree (parseHeader (str "a(PK),b,c")) (str "1,'a,b',y") 2 (setValue setD) := by
  refine ⟨by decide +kernel, by decide +kernel, by decide +kernel, by decide +kernel, ?_⟩
  intro h
  have hnew := h.2.1
  unfold OnlyColumn at hnew
  revert hnew
  decide +kernel

end MiniDbms.Legacy
