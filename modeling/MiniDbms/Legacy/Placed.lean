import MiniDbms.Legacy.Line
import MiniDbms.Db.Failed

/-!
# The columns of an INSERT in both engines

`build_insert_row` and `row_new` give the values of a VALUES list to the columns.  With
an automatic id in the first column `build_insert_row` takes the values for those of the
columns behind it, also where the list has a value for the PK.
-/

namespace MiniDbms.Legacy

/-! ## NULL in a short buffer -/

theorem trimWs_take_prefix (s : Bytes) (k : Nat) : trimWs (s.take k) <+: trimWs s := by
  have hdrop : ∃ m, (s.take k).dropWhile isSpace = (s.dropWhile isSpace).take m := by
    induction s generalizing k with
    | nil => exact ⟨0, by simp⟩
    | cons c s ih =>
        cases k with
        | zero => exact ⟨0, by simp⟩
        | succ k =>
            rw [List.take_succ_cons, List.dropWhile_cons, List.dropWhile_cons]
            split
            · exact ih k
            · exact ⟨k + 1, rfl⟩
  obtain ⟨m, hm⟩ := hdrop
  unfold trimWs
  rw [hm]
  have hfront : ((s.dropWhile isSpace).take m).rdropWhile isSpace <+: s.dropWhile isSpace :=
    (List.rdropWhile_prefix _ _).trans (List.take_prefix _ _)
  have hback : (s.dropWhile isSpace).rdropWhile isSpace <+: s.dropWhile isSpace :=
    List.rdropWhile_prefix _ _
  obtain h | ⟨t, ht⟩ := List.prefix_or_prefix_of_prefix hfront hback
  · exact h
  · -- a longer start would end with white space
    have hend : t = [] := by
      by_contra hne
      have hlast := List.rdropWhile_last_not isSpace ((s.dropWhile isSpace).take m)
        (by rw [← ht]; simp [hne])
      obtain ⟨more, hmore⟩ := hfront
      have hsplit : (s.dropWhile isSpace).rdropWhile isSpace ++ (s.dropWhile isSpace).rtakeWhile
          isSpace = (s.dropWhile isSpace).rdropWhile isSpace ++ (t ++ more) := by
        rw [← List.append_assoc, ht, hmore]
        exact List.rdropWhile_append_rtakeWhile
      refine hlast (List.mem_rtakeWhile_imp (p := isSpace) (l := s.dropWhile isSpace) ?_)
      rw [List.append_cancel_left hsplit]
      simp only [← ht, List.getLast_append_of_right_ne_nil _ _ hne]
      exact List.mem_append_left _ (List.getLast_mem hne)
    rw [hend, List.append_nil] at ht
    exact ht ▸ List.prefix_rfl

theorem parseLongValue_some {v : Bytes} {id : Int} (h : parseLongValue v = some id) :
    (takeSign ((normV 256 (cstr v)).dropWhile isSpace)).2 ≠ [] ∧
      (takeSign ((normV 256 (cstr v)).dropWhile isSpace)).2.all isDigit = true := by
  simp only [parseLongValue] at h
  split at h
  · cases h
  · split at h
    · assumption
    · cases h

/-- A text that is NULL is never a number, also in a shorter buffer. -/
theorem normV_of_null {v : Bytes} (h : trimUq v = str "NULL") :
    normV 256 v = str "NULL" ∨ ¬ ((takeSign ((normV 256 v).dropWhile isSpace)).2 ≠ [] ∧
      (takeSign ((normV 256 v).dropWhile isSpace)).2.all isDigit = true) := by
  have hcut := trimWs_take_prefix v 255
  have htrim : trimWs v = str "NULL" ∨ trimWs v = str "'NULL'" := by
    unfold trimUq at h
    obtain hbare | hquoted := unquote_cases (trimWs v)
    · exact Or.inl (hbare ▸ h)
    · rw [h] at hquoted
      exact Or.inr (hquoted.trans (by decide +kernel))
  have hall : ∀ t ∈ [str "NULL", str "'NULL'"], ∀ u ∈ t.inits, unquote u = str "NULL" ∨
      ¬ ((takeSign ((unquote u).dropWhile isSpace)).2 ≠ [] ∧
        (takeSign ((unquote u).dropWhile isSpace)).2.all isDigit = true) := by
    decide +kernel
  refine hall (trimWs v) ?_ (trimWs (v.take 255)) ((List.mem_inits _ _).2 hcut)
  obtain h | h := htrim <;> rw [h] <;> simp

/-! ## The same table in both engines -/

structure SameTable (tab : TabVer) (tc : TableCache) : Prop where
  cols : tab.cols.map (fun c => (c.name, c.type)) = tc.schema.cols.map fun c => (c.name, c.type)
  pkIdx : tab.pkIdx = tc.schema.pkIdx
  ukIdx : tab.ukIdx = tc.schema.ukIndices
  nextId : tab.nextId = tc.nextAutoId
  few : tc.schema.cols.length ≤ MAX_COLS

section Engines

variable {tab : TabVer} {tc : TableCache} {stmt : Statement}

theorem SameTable.length (h : SameTable tab tc) : tab.cols.length = tc.schema.cols.length := by
  have hlen := congrArg List.length h.cols
  simpa using hlen

/-- The VALUES list of a statement. -/
def values (stmt : Statement) : List Bytes := parseCsvRow stmt.rowData.bytes

theorem values_noNul {v : Bytes} (hv : v ∈ values stmt) : cstr v = v :=
  cstr_eq_self fun b hb => stmt.rowData.noNul b (mem_of_mem_splitCsv hv hb)

theorem length_rowData (stmt : Statement) : stmt.rowData.bytes.length < RECORD_SIZE := by
  have hfits := stmt.rowData.fits
  unfold RECORD_SIZE
  omega

theorem length_value {v : Bytes} (hv : v ∈ values stmt) : v.length < RECORD_SIZE :=
  length_lt_of_mem_parse (length_rowData stmt) hv

theorem normV_value {v : Bytes} (hv : v ∈ values stmt) : normV RECORD_SIZE v = trimUq v := by
  have hlen := length_value hv
  unfold normV
  rw [List.take_of_length_le (by omega)]

theorem rowNew_some {vals : List Bytes} {counter newId : Int} {row : Row}
    (h : tab.rowNew vals = (counter, some (row, newId))) :
    tab.ValuesFit vals ∧ ∃ auto, tab.rowId (tab.pkGiven vals) = (counter, some (newId, auto)) ∧
      row = (List.range tab.cols.length).map fun i =>
        trimUq (tab.rowSrc vals (vals.length != tab.cols.length) newId auto i) := by
  by_cases hfit : tab.ValuesFit vals
  · refine ⟨hfit, ?_⟩
    unfold TabVer.rowNew at h
    dsimp only at h
    split at h
    · cases h
    · unfold TabVer.pkGiven
      split at h
      · cases h
      · rename_i hid
        rw [hid]
        split at h
        · cases h
        · cases h
          exact ⟨_, rfl, rfl⟩
  · rw [TabVer.rowNew_of_misfit hfit] at h
    cases h

theorem insertId_some {vals : List Bytes} {pk : Nat} (hpk : tc.schema.pkIdx = some pk) {id : Int}
    {auto : Bool} (h : tc.insertId vals = .ok (id, auto)) :
    auto = tc.hasAutoId vals pk ∧
      (if auto then some tc.nextAutoId else parseLongValue ((vals[pk]?).getD [])) = some id := by
  unfold TableCache.insertId at h
  rw [hpk] at h
  dsimp only at h
  split at h
  · cases h
  · rename_i hval
    split at h
    · cases h
    · cases h
      exact ⟨rfl, hval⟩

/-- What both engines accept has the same PK value left to the counter. -/
theorem auto_iff (hs : SameTable tab tc) {pk : Nat} (hpk : tc.schema.pkIdx = some pk)
    {counter newId id : Int} {auto auto' : Bool} (hfit : tab.ValuesFit (values stmt))
    (hnew : tab.rowId (tab.pkGiven (values stmt)) = (counter, some (newId, auto')))
    (hid : tc.insertId (values stmt) = .ok (id, auto)) :
    auto = auto' ∧ (auto = true → id = newId) := by
  obtain ⟨hauto, hval⟩ := insertId_some hpk hid
  have hpk' : tab.pkIdx = some pk := hs.pkIdx.trans hpk
  have hlen := hs.length
  rw [TabVer.rowId_eq (by rw [hpk']; rfl)] at hnew
  have hout : auto = true ↔ tab.PkLeftOut (values stmt) := by
    simp only [TableCache.hasAutoId] at hauto
    by_cases hall : (values stmt).length = tab.cols.length
    · have hgiven : tab.pkGiven (values stmt) = (values stmt)[pk]? := by
        unfold TabVer.pkGiven
        rw [hpk', if_neg (by simpa using hall)]
        rfl
      have hno : ((values stmt).length + 1 == tc.schema.cols.length) = false := by
        rw [beq_eq_false_iff_ne]
        omega
      have hleft : tab.PkLeftOut (values stmt) ↔ ((values stmt)[pk]?).getD [] = [] ∨
          cmpV (((values stmt)[pk]?).getD []) (str "NULL") = true := by
        rw [← hgiven]
        rfl
      rw [hno, Bool.false_and, Bool.false_or] at hauto
      rw [hleft]
      cases hv : (values stmt)[pk]? with
      | none =>
          rw [hv] at hauto
          rw [hauto]
          simp
      | some v =>
          have hmem := List.mem_of_getElem? hv
          rw [hv] at hauto hval hleft
          simp only [Option.getD_some] at hauto hval hleft ⊢
          have hnull : cmpV v (str "NULL") = true ↔ trimUq v = str "NULL" := by
            unfold cmpV
            rw [beq_iff_eq, normV_value hmem]
            rfl
          have hshort : compareValue v (str "NULL") = true ↔ normV 256 v = str "NULL" := by
            unfold compareValue
            rw [beq_iff_eq]
            rfl
          by_cases hnil : v = []
          · rw [hauto, hnil]
            simp
          · have hauto' : auto = true ↔ normV 256 v = str "NULL" := by
              rw [hauto, ← hshort]
              simp [hnil]
            rw [hauto', hnull]
            simp only [hnil, false_or]
            constructor
            · intro h256
              by_contra hno
              have hparse : parseL v = none := by
                unfold parseL
                rw [h256]
                decide +kernel
              rw [if_neg (by simp [hleft, hnil, hnull, hno]), hgiven, hv, Option.getD_some,
                hparse] at hnew
              cases hnew
            · intro htrim
              obtain h256 | hnum := normV_of_null htrim
              · exact h256
              · by_contra hno
                rw [if_neg (mt hauto'.1 hno)] at hval
                have hdigits := parseLongValue_some hval
                rw [values_noNul hmem] at hdigits
                exact hnum hdigits
    · obtain hfit | ⟨hzero, hone⟩ := hfit
      · exact absurd hfit hall
      · obtain rfl : pk = 0 := Option.some.inj (hpk'.symm.trans hzero)
        have hleft : tab.PkLeftOut (values stmt) := by
          refine Or.inl ?_
          unfold TabVer.pkGiven
          rw [if_pos (by simpa using hall)]
          rfl
        rw [hauto, ← hlen, ← hone]
        simp [hleft]
  by_cases hleft : tab.PkLeftOut (values stmt)
  · rw [if_pos hleft] at hnew
    cases hnew
    have htrue := hout.2 hleft
    refine ⟨htrue, fun _ => ?_⟩
    rw [if_pos htrue] at hval
    rw [← Option.some.inj hval, hs.nextId]
  · rw [if_neg hleft] at hnew
    have hfalse : auto = false := Bool.eq_false_iff.2 (mt hout.1 hleft)
    refine ⟨?_, fun h => absurd h (by rw [hfalse]; decide)⟩
    split at hnew
    · cases hnew
    · cases hnew
      exact hfalse

/-! ## The values that are stored -/

/-- A text that comes through the line of an INSERT whole. -/
structure Storable (w : Bytes) : Prop where
  noQuote : quote ∉ w
  short : w.length < RECORD_SIZE
  quoted : comma ∈ w → w.length + 3 ≤ RECORD_SIZE

theorem Storable.normV_csvField {w : Bytes} (h : Storable w) :
    normV RECORD_SIZE (csvField w) = if comma ∈ w then w else trimUq w := by
  have hshort := h.short
  unfold normV
  split
  · rename_i hcomma
    have hlen := h.quoted hcomma
    rw [csvField_quoted hcomma hlen, List.take_of_length_le, trimUq_quoted]
    simp only [List.length_cons, List.length_append, List.length_nil]
    omega
  · rename_i hcomma
    rw [csvField_bare hcomma, List.take_of_length_le (by omega)]

theorem Storable.closed {w : Bytes} (h : Storable w) :
    fieldEnd false (csvField w) = some false := by
  by_cases hcomma : comma ∈ w
  · rw [csvField_quoted hcomma (h.quoted hcomma)]
    rw [fieldEnd, if_neg (by decide)]
    exact fieldEnd_append (fieldEnd_noQuote h.noQuote (Or.inl rfl))
  · rw [csvField_bare hcomma]
    exact fieldEnd_noQuote h.noQuote (Or.inr hcomma)

theorem columns_of_storable {ws : List Bytes} (hne : ws ≠ []) (hlen : ws.length ≤ MAX_COLS)
    (hws : ∀ w ∈ ws, Storable w) (hfit : (joinCsv (ws.map csvField)).length < RECORD_SIZE) :
    columns (joinCsv (ws.map csvField)) =
      ws.map fun w => if comma ∈ w then w else trimUq w := by
  have hsplits : Splits false (MAX_COLS - 1) (ws.map csvField) := by
    rw [splits_iff, List.length_map]
    refine ⟨by simpa using hne, by omega, ?_⟩
    intro j f hf
    rw [List.getElem?_map] at hf
    obtain ⟨w, hw, rfl⟩ := Option.map_eq_some_iff.1 hf
    have hend := (hws w (List.mem_of_getElem? hw)).closed
    exact ⟨fun _ => hend, fun _ => by rw [hend]; rfl⟩
  unfold columns
  rw [(parseCsvRow_eq_iff hfit).2 ⟨rfl, hsplits⟩, List.map_map]
  exact List.map_congr_left fun w hw => (hws w hw).normV_csvField

theorem printL_storable (n : Int) : Storable (printL n) ∧ comma ∉ printL n ∧
    trimUq (printL n) = printL n := by
  obtain ⟨hall, hlen⟩ := printL_plain n
  have hchar : ∀ c ∈ printL n, isSpace c = false ∧ c ≠ quote ∧ c ≠ comma := by
    intro c hc
    obtain hd | rfl := hall c hc
    · exact ⟨not_isSpace_of_isDigit hd, ne_of_isDigit hd (by decide), ne_of_isDigit hd (by decide)⟩
    · decide
  have hcomma : comma ∉ printL n := fun h => (hchar comma h).2.2 rfl
  have hquote : quote ∉ printL n := fun h => (hchar quote h).2.1 rfl
  refine ⟨⟨hquote, ?_, fun h => absurd h hcomma⟩, hcomma, ?_⟩
  · unfold RECORD_SIZE
    omega
  · refine trimUq_eq_self (fun c hc => (hchar c (List.mem_of_mem_head? hc)).1)
      (fun c hc => (hchar c (List.mem_of_getLast? hc)).1) ?_
    intro hhead
    exact absurd (List.mem_of_mem_head? hhead) hquote

theorem value_storable {v : Bytes} (hv : v ∈ values stmt) (hquote : quote ∉ trimUq v) :
    Storable (trimUq v) := by
  have hle := length_trimUq_le v
  have hlen := length_value hv
  refine ⟨hquote, by omega, ?_⟩
  intro hcomma
  obtain ⟨hjoin, hsplits⟩ := (parseCsvRow_eq_iff (length_rowData stmt)).1
    (rfl : parseCsvRow stmt.rowData.bytes = _)
  obtain ⟨-, -, hfields⟩ := splits_iff.1 hsplits
  obtain ⟨j, hj⟩ := List.mem_iff_getElem?.1 hv
  by_cases hlast : j < MAX_COLS - 1
  · -- a comma in a field that is cut out stands between quotes
    have hend := (hfields j v hj).2 hlast
    obtain ⟨a, b, hspace, hbare | hquoted⟩ := trimUq_around v
    · exfalso
      obtain ⟨x, y, hxy, -⟩ := List.eq_append_cons_of_mem hcomma
      rw [hbare, hxy, List.append_assoc, ← List.append_assoc, List.cons_append,
        fieldEnd_comma] at hend
      · cases hend
      · intro h
        obtain h | h := List.mem_append.1 h
        · exact absurd (hspace quote (List.mem_append_left b h)) (by decide)
        · exact hquote (hxy ▸ List.mem_append_left _ h)
    · have hcount := congrArg List.length hquoted
      simp only [List.length_append, List.length_cons] at hcount
      omega
  · obtain ⟨hlt, -⟩ := List.getElem?_eq_some_iff.1 hj
    have hsum := @length_joinCsv_of_mem (parseCsvRow stmt.rowData.bytes) _ hv
    have hrow := length_rowData stmt
    have hcols : MAX_COLS = 15 := rfl
    rw [hjoin] at hsum
    unfold values at hlt
    omega

/-! ## Where the values go -/

/-- The list has a value for every column, and the one of a PK in the first column is
empty or NULL. -/
def Displaced (tc : TableCache) (vals : List Bytes) : Prop :=
  tc.schema.pkIdx = some 0 ∧ vals.length = tc.schema.cols.length ∧ tc.hasAutoId vals 0 = true

instance (tc : TableCache) (vals : List Bytes) : Decidable (Displaced tc vals) :=
  inferInstanceAs (Decidable (_ ∧ _))

/-- Displaced values are all the same, and others have no blanks around them inside quotes
that are written again. -/
def InPlace (tc : TableCache) (vals : List Bytes) : Prop :=
  if Displaced tc vals then ∀ v ∈ vals, trimUq (trimUq v) = trimUq (vals.headD [])
  else ∀ v ∈ vals, comma ∈ v → trimUq (trimUq v) = trimUq v

instance (tc : TableCache) (vals : List Bytes) : Decidable (InPlace tc vals) :=
  inferInstanceAs (Decidable (if Displaced tc vals then
    ∀ v ∈ vals, trimUq (trimUq v) = trimUq (vals.headD [])
  else ∀ v ∈ vals, comma ∈ v → trimUq (trimUq v) = trimUq v))

theorem value_getD_storable (hquotes : ∀ v ∈ values stmt, quote ∉ trimUq v) (i : Nat) :
    Storable (trimUq ((values stmt)[i]?.getD [])) := by
  cases hv : (values stmt)[i]? with
  | none => exact ⟨List.not_mem_nil, by decide, fun h => absurd h List.not_mem_nil⟩
  | some v =>
      have hmem := List.mem_of_getElem? hv
      exact value_storable hmem (hquotes v hmem)

theorem normV_getD (i : Nat) : normV RECORD_SIZE ((values stmt)[i]?.getD []) =
    trimUq ((values stmt)[i]?.getD []) := by
  cases hv : (values stmt)[i]? with
  | none => rfl
  | some v => exact normV_value (List.mem_of_getElem? hv)

theorem insertSource_eq {id : Int} {auto : Bool} (i : Nat) :
    tc.insertSource (values stmt) id auto i =
      if auto = true ∧ tc.schema.pkIdx = some i then printL id
      else trimUq ((values stmt)[if auto = true ∧ tc.schema.pkIdx = some 0 then i - 1 else i]?.getD
        []) := by
  unfold TableCache.insertSource
  split
  · rfl
  · exact normV_getD _

theorem rowSrc_eq {newId : Int} {auto : Bool} (i : Nat) :
    trimUq (tab.rowSrc (values stmt) ((values stmt).length != tab.cols.length) newId auto i) =
      if auto = true ∧ tab.pkIdx = some i then printL newId
      else trimUq ((values stmt)[if (values stmt).length ≠ tab.cols.length ∧
        tab.pkIdx.any (· < i) = true then i - 1 else i]?.getD []) := by
  unfold TabVer.rowSrc
  by_cases hpk : tab.pkIdx = some i ∧ auto = true
  · rw [if_pos hpk, if_pos hpk.symm]
    exact (printL_storable newId).2.2
  · rw [if_neg hpk, if_neg (mt And.symm hpk)]
    simp only [bne_iff_ne, List.getD_eq_getElem?_getD]
    split <;> rfl

theorem leftOut_value {pk : Nat} (hpk : tab.pkIdx = some pk)
    (hall : (values stmt).length = tab.cols.length) (hleft : tab.PkLeftOut (values stmt)) :
    comma ∉ (values stmt)[pk]?.getD [] ∧
      trimUq (trimUq ((values stmt)[pk]?.getD [])) = trimUq ((values stmt)[pk]?.getD []) := by
  have hgiven : tab.pkGiven (values stmt) = (values stmt)[pk]? := by
    unfold TabVer.pkGiven
    rw [hpk, if_neg (by simpa using hall)]
    rfl
  unfold TabVer.PkLeftOut at hleft
  rw [hgiven] at hleft
  obtain hnil | hnull := hleft
  · rw [hnil]
    exact ⟨List.not_mem_nil, rfl⟩
  · unfold cmpV at hnull
    rw [beq_iff_eq, normV_getD] at hnull
    rw [← comma_mem_trimUq, hnull]
    decide +kernel

theorem auto_eq (hs : SameTable tab tc) {counter newId id : Int} {auto auto' : Bool}
    (hfit : tab.ValuesFit (values stmt))
    (hnew : tab.rowId (tab.pkGiven (values stmt)) = (counter, some (newId, auto')))
    (hid : tc.insertId (values stmt) = .ok (id, auto)) :
    auto = auto' ∧ (auto = true → id = newId ∧ tab.PkLeftOut (values stmt)) := by
  cases hpk : tc.schema.pkIdx with
  | none =>
      unfold TableCache.insertId at hid
      unfold TabVer.rowId at hnew
      rw [hpk] at hid
      rw [hs.pkIdx, hpk] at hnew
      cases hid
      cases hnew
      exact ⟨rfl, fun h => by cases h⟩
  | some pk =>
      obtain ⟨heq, hval⟩ := auto_iff hs hpk hfit hnew hid
      refine ⟨heq, fun h => ⟨hval h, ?_⟩⟩
      rw [TabVer.rowId_eq (by rw [hs.pkIdx, hpk]; rfl)] at hnew
      by_contra hleft
      rw [if_neg hleft] at hnew
      rw [heq] at h
      split at hnew
      · cases hnew
      · cases hnew
        cases h

/-- Column `i` of the line is read as the value that column `i` of the row has. -/
def SameColumn (tab : TabVer) (tc : TableCache) (vals : List Bytes) (newId id : Int) (auto : Bool)
    (i : Nat) : Prop :=
  (if comma ∈ tc.insertSource vals id auto i then tc.insertSource vals id auto i
    else trimUq (tc.insertSource vals id auto i)) =
  trimUq (trimUq (tab.rowSrc vals (vals.length != tab.cols.length) newId auto i))

theorem same_columns_iff_pointwise {newId id : Int} {row : Row} {line : Bytes}
    {auto : Bool} (hs : SameTable tab tc) (hquotes : ∀ v ∈ values stmt, quote ∉ trimUq v)
    (hrow : row = (List.range tab.cols.length).map fun i =>
      trimUq (tab.rowSrc (values stmt) ((values stmt).length != tab.cols.length) newId auto i))
    (hline : tc.BuildsLine (values stmt) id auto line) :
    columns line = row.map (normV RECORD_SIZE) ↔ ∀ i < tc.schema.cols.length,
      SameColumn tab tc (values stmt) newId id auto i := by
  have hsplits := ((parseCsvRow_eq_iff (length_rowData stmt)).1
    (rfl : parseCsvRow stmt.rowData.bytes = _)).2
  have hpos := List.length_pos_iff.2 hsplits.ne_nil
  have hfew := hline.few
  have hlen : (tc.insertSources (values stmt) id auto).length = tc.schema.cols.length :=
    TableCache.length_insertSources
  have hstorable : ∀ w ∈ tc.insertSources (values stmt) id auto, Storable w := by
    intro w hw
    obtain ⟨i, -, rfl⟩ := List.mem_map.1 hw
    rw [insertSource_eq]
    split
    · exact (printL_storable id).1
    · exact value_getD_storable hquotes _
  have hne : tc.insertSources (values stmt) id auto ≠ [] := by
    intro h
    rw [h, List.length_nil] at hlen
    unfold values at hfew
    omega
  have hcolumns := columns_of_storable hne (hlen.trans_le hs.few) hstorable
    (hline.text ▸ hline.fits)
  have hapi : ∀ i, normV RECORD_SIZE (trimUq (tab.rowSrc (values stmt)
      ((values stmt).length != tab.cols.length) newId auto i)) = trimUq (trimUq
        (tab.rowSrc (values stmt) ((values stmt).length != tab.cols.length) newId auto i)) := by
    intro i
    have hshort : (trimUq (tab.rowSrc (values stmt) ((values stmt).length != tab.cols.length)
        newId auto i)).length < RECORD_SIZE := by
      rw [rowSrc_eq]
      split
      · exact (printL_storable newId).1.short
      · exact (value_getD_storable hquotes _).short
    unfold normV
    rw [List.take_of_length_le (by omega)]
  rw [hline.text, hcolumns, hrow, TableCache.insertSources, List.map_map, List.map_map, hs.length,
    List.map_inj_left]
  simp only [List.mem_range, Function.comp_apply]
  refine forall₂_congr fun i _ => ?_
  rw [← hs.length, hapi i, SameColumn]

/-! ## Displaced values -/

/-- Column 0 has the id, and column `i + 1` of the line the value `i`. -/
theorem displaced_sources (hs : SameTable tab tc) {newId id : Int} {auto : Bool}
    (hdis : Displaced tc (values stmt)) (hid : tc.insertId (values stmt) = .ok (id, auto))
    (hsame : id = newId) :
    (tc.insertSource (values stmt) id auto 0 = printL id ∧
      trimUq (tab.rowSrc (values stmt) ((values stmt).length != tab.cols.length) newId auto 0) =
        printL id) ∧
    ∀ i, tc.insertSource (values stmt) id auto (i + 1) = trimUq ((values stmt)[i]?.getD []) ∧
      trimUq (tab.rowSrc (values stmt) ((values stmt).length != tab.cols.length) newId auto
        (i + 1)) = trimUq ((values stmt)[i + 1]?.getD []) := by
  obtain ⟨hpk, hall, hautoId⟩ := hdis
  have hauto : auto = true := (insertId_some hpk hid).1.trans hautoId
  have hlen := hs.length
  refine ⟨⟨?_, ?_⟩, fun i => ⟨?_, ?_⟩⟩
  · rw [insertSource_eq, if_pos ⟨hauto, hpk⟩]
  · rw [rowSrc_eq, if_pos ⟨hauto, hs.pkIdx.trans hpk⟩, hsame]
  · rw [insertSource_eq, if_neg (by simp [hpk]), if_pos ⟨hauto, hpk⟩, Nat.add_sub_cancel]
  · rw [rowSrc_eq, if_neg (by simp [hs.pkIdx, hpk]), if_neg (by simp [hall, hlen])]

theorem displaced_iff (hs : SameTable tab tc) {newId id : Int} {auto : Bool}
    (hdis : Displaced tc (values stmt)) (hid : tc.insertId (values stmt) = .ok (id, auto))
    (hleft : auto = true → id = newId ∧ tab.PkLeftOut (values stmt)) :
    (∀ i < tc.schema.cols.length, SameColumn tab tc (values stmt) newId id auto i) ↔
      ∀ v ∈ values stmt, trimUq (trimUq v) = trimUq ((values stmt).headD []) := by
  obtain ⟨hpk, hall, hautoId⟩ := hdis
  obtain ⟨hids, hout⟩ := hleft ((insertId_some hpk hid).1.trans hautoId)
  obtain ⟨⟨hsource₀, hrow₀⟩, hnext⟩ := displaced_sources hs ⟨hpk, hall, hautoId⟩ hid hids
  have hlen := hs.length
  obtain ⟨hcomma, hself⟩ := leftOut_value (hs.pkIdx.trans hpk) (hall.trans hlen.symm) hout
  rw [List.headD_eq_head?_getD, List.head?_eq_getElem?]
  -- a value that is written again as the first one has no comma either
  have hplain {i : Nat} (hi : trimUq (trimUq ((values stmt)[i]?.getD [])) =
      trimUq ((values stmt)[0]?.getD [])) : comma ∉ trimUq ((values stmt)[i]?.getD []) := by
    rw [← comma_mem_trimUq, hi, comma_mem_trimUq]
    exact hcomma
  constructor
  · intro h
    have hvals : ∀ i < (values stmt).length, trimUq (trimUq ((values stmt)[i]?.getD [])) =
        trimUq ((values stmt)[0]?.getD []) := by
      intro i hi
      induction i with
      | zero => exact hself
      | succ i ih =>
          have hi' := ih (by omega)
          have hcol := h (i + 1) (by omega)
          rw [SameColumn, (hnext i).1, (hnext i).2, if_neg (hplain hi'), hi'] at hcol
          exact hcol.symm
    intro v hv
    obtain ⟨i, hi⟩ := List.mem_iff_getElem?.1 hv
    obtain ⟨hlt, -⟩ := List.getElem?_eq_some_iff.1 hi
    have hval := hvals i hlt
    rwa [hi, Option.getD_some] at hval
  · intro h i hi
    have hvals : ∀ j < (values stmt).length, trimUq (trimUq ((values stmt)[j]?.getD [])) =
        trimUq ((values stmt)[0]?.getD []) := by
      intro j hj
      rw [List.getElem?_eq_getElem hj, Option.getD_some]
      exact h _ (List.getElem_mem hj)
    cases i with
    | zero => rw [SameColumn, hsource₀, hrow₀, if_neg (printL_storable id).2.1]
    | succ i =>
        have hi' := hvals i (by omega)
        rw [SameColumn, (hnext i).1, (hnext i).2, if_neg (hplain hi'), hi', hvals (i + 1) (by omega)]

/-! ## Values in place -/

/-- A list that is one value short leaves out a PK in the first column. -/
theorem auto_of_short (hs : SameTable tab tc) {id : Int} {auto : Bool}
    (hfit : tab.ValuesFit (values stmt)) (hid : tc.insertId (values stmt) = .ok (id, auto))
    (hshort : (values stmt).length ≠ tab.cols.length) :
    tc.schema.pkIdx = some 0 ∧ (values stmt).length + 1 = tc.schema.cols.length ∧ auto = true := by
  obtain ⟨hzero, hone⟩ := hfit.resolve_left hshort
  have hpk : tc.schema.pkIdx = some 0 := hs.pkIdx.symm.trans hzero
  have hone' : (values stmt).length + 1 = tc.schema.cols.length := hone.trans hs.length
  refine ⟨hpk, hone', ?_⟩
  rw [(insertId_some hpk hid).1]
  simp [TableCache.hasAutoId, hone']

theorem insertSource_eq_rowSrc (hs : SameTable tab tc) {newId id : Int} {auto : Bool}
    (hfit : tab.ValuesFit (values stmt)) (hdis : ¬ Displaced tc (values stmt))
    (hid : tc.insertId (values stmt) = .ok (id, auto)) (hsame : auto = true → id = newId)
    (i : Nat) : tc.insertSource (values stmt) id auto i =
      trimUq (tab.rowSrc (values stmt) ((values stmt).length != tab.cols.length) newId auto i) := by
  have hlen := hs.length
  rw [insertSource_eq, rowSrc_eq, hs.pkIdx]
  by_cases hi : auto = true ∧ tc.schema.pkIdx = some i
  · rw [if_pos hi, if_pos hi, hsame hi.1]
  · rw [if_neg hi, if_neg hi]
    congr 3
    -- both engines look one value further left, or neither does
    by_cases hshort : (values stmt).length ≠ tab.cols.length
    · obtain ⟨hpk, -, hauto⟩ := auto_of_short hs hfit hid hshort
      rw [if_pos ⟨hauto, hpk⟩]
      by_cases hpos : 0 < i
      · rw [if_pos ⟨hshort, by simpa [hpk] using hpos⟩]
      · obtain rfl : i = 0 := by omega
        exact absurd ⟨hauto, hpk⟩ hi
    · have hno : ¬ (auto = true ∧ tc.schema.pkIdx = some 0) := by
        rintro ⟨hauto, hpk⟩
        refine hdis ⟨hpk, by omega, ?_⟩
        rw [← (insertId_some hpk hid).1]
        exact hauto
      rw [if_neg hno, if_neg (fun h => hshort h.1)]

theorem column_of_value (hs : SameTable tab tc) {newId id : Int} {auto : Bool}
    (hfit : tab.ValuesFit (values stmt)) (hdis : ¬ Displaced tc (values stmt))
    (hid : tc.insertId (values stmt) = .ok (id, auto))
    (hleft : auto = true → id = newId ∧ tab.PkLeftOut (values stmt)) {j : Nat} {v : Bytes}
    (hj : (values stmt)[j]? = some v) (hcomma : comma ∈ v) :
    ∃ i < tc.schema.cols.length, tc.insertSource (values stmt) id auto i = trimUq v := by
  obtain ⟨hlt, -⟩ := List.getElem?_eq_some_iff.1 hj
  have hlen := hs.length
  by_cases hshort : (values stmt).length ≠ tab.cols.length
  · obtain ⟨hpk, hone, hauto⟩ := auto_of_short hs hfit hid hshort
    refine ⟨j + 1, by omega, ?_⟩
    rw [insertSource_eq, if_neg (by simp [hpk]), if_pos ⟨hauto, hpk⟩, Nat.add_sub_cancel, hj,
      Option.getD_some]
  · have hall : (values stmt).length = tab.cols.length := not_not.1 hshort
    refine ⟨j, by omega, ?_⟩
    rw [insertSource_eq_rowSrc hs hfit hdis hid (fun h => (hleft h).1), rowSrc_eq, if_neg,
      if_neg (fun h => hshort h.1), hj, Option.getD_some]
    rintro ⟨hauto, hpk⟩
    have hno := (leftOut_value hpk hall (hleft hauto).2).1
    rw [hj, Option.getD_some] at hno
    exact hno hcomma

theorem not_displaced_iff (hs : SameTable tab tc) {newId id : Int} {auto : Bool}
    (hfit : tab.ValuesFit (values stmt)) (hdis : ¬ Displaced tc (values stmt))
    (hid : tc.insertId (values stmt) = .ok (id, auto))
    (hleft : auto = true → id = newId ∧ tab.PkLeftOut (values stmt)) :
    (∀ i < tc.schema.cols.length, SameColumn tab tc (values stmt) newId id auto i) ↔
      ∀ v ∈ values stmt, comma ∈ v → trimUq (trimUq v) = trimUq v := by
  simp only [SameColumn, ← insertSource_eq_rowSrc hs hfit hdis hid fun h => (hleft h).1]
  constructor
  · intro h v hv hcomma
    obtain ⟨j, hj⟩ := List.mem_iff_getElem?.1 hv
    obtain ⟨i, hi, hw⟩ := column_of_value hs hfit hdis hid hleft hj hcomma
    have hcol := h i hi
    rw [hw, if_pos (comma_mem_trimUq.2 hcomma)] at hcol
    exact hcol.symm
  · intro h i hi
    split
    · rename_i hcomma
      rw [insertSource_eq] at hcomma ⊢
      split at hcomma
      · exact absurd hcomma (printL_storable id).2.1
      · rename_i hid'
        rw [if_neg hid']
        rw [comma_mem_trimUq] at hcomma
        cases hv : (values stmt)[if auto = true ∧ tc.schema.pkIdx = some 0 then i - 1 else i]? with
        | none =>
            rw [hv] at hcomma
            exact absurd hcomma List.not_mem_nil
        | some v =>
            rw [hv] at hcomma
            exact (h v (List.mem_of_getElem? hv) hcomma).symm
    · rfl

/-- The two engines store the same values for a VALUES list exactly when the legacy engine
leaves them in place. -/
theorem same_columns_iff {counter newId id : Int} {row : Row} {line : Bytes}
    (hs : SameTable tab tc) (hquotes : ∀ v ∈ values stmt, quote ∉ trimUq v)
    (hnew : tab.rowNew (values stmt) = (counter, some (row, newId)))
    (hbuild : tc.buildInsertRow (values stmt) = .ok (id, line)) :
    columns line = row.map (normV RECORD_SIZE) ↔ InPlace tc (values stmt) := by
  obtain ⟨hfit, auto', hid, hrow⟩ := rowNew_some hnew
  obtain ⟨auto, hline⟩ := TableCache.buildInsertRow_ok hbuild
  obtain ⟨rfl, hleft⟩ := auto_eq hs hfit hid hline.idOk
  rw [same_columns_iff_pointwise hs hquotes hrow hline, InPlace]
  by_cases hdis : Displaced tc (values stmt)
  · rw [if_pos hdis]
    exact displaced_iff hs hdis hline.idOk hleft
  · rw [if_neg hdis]
    exact not_displaced_iff hs hfit hdis hline.idOk hleft

end Engines

/-- The table `id(PK),name` of the API engine. -/
def peopleTab : TabVer where
  name := str "people"
  cols := [⟨strncpy 49 (str "id"), .pk⟩, ⟨strncpy 49 (str "name"), .normal⟩]
  pkIdx := some 0
  ukIdx := []
  rows := []
  rowCap := 0
  slots := 0
  nextId := 1
  verId := 1
  pkTree := Bptree.create Int
  ukTree := []

def peopleCache : TableCache := openTable (str "id(PK),name")

theorem people_same : SameTable peopleTab peopleCache :=
  ⟨by decide +kernel, by decide +kernel, by decide +kernel, by decide +kernel, by decide +kernel⟩

def insertOf (text : String) : Statement := { rowData := strncpy 1023 (str text) }

theorem people_named : columns (str "7,a") = [str "7", str "a"].map (normV RECORD_SIZE) :=
  (@same_columns_iff peopleTab peopleCache (insertOf "7,a") 8 7 7 [str "7", str "a"] (str "7,a")
    people_same (by decide +kernel) (by decide +kernel) (by decide +kernel)).2 (by decide +kernel)

/-- `VALUES (NULL, a)`: the legacy engine stores the NULL as the name. -/
theorem null_displaces :
    (∀ v ∈ values (insertOf "NULL,a"), quote ∉ trimUq v) ∧
    peopleTab.rowNew (values (insertOf "NULL,a")) = (2, some ([str "1", str "a"], 1)) ∧
    peopleCache.buildInsertRow (values (insertOf "NULL,a")) = .ok (1, str "1,NULL") ∧
    columns (str "1,NULL") ≠ [str "1", str "a"].map (normV RECORD_SIZE) := by
  refine ⟨?_, ?_, ?_, ?_⟩
  all_goals decide +kernel

end MiniDbms.Legacy
