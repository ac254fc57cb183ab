import MiniDbms.Legacy.Fields

/-!
# The line that INSERT builds

A line that `build_insert_row` accepts has one field for each column: the value that was
checked against the constraints, in quotes where it holds a comma.
-/

namespace MiniDbms.Legacy

namespace TableCache

variable {tc : TableCache} {vals : List Bytes} {id : Int} {auto : Bool}

/-- What a column adds to the line. -/
def columnText (tc : TableCache) (vals : List Bytes) (id : Int) (auto : Bool) (i : Nat) : Bytes :=
  csvField (tc.insertSource vals id auto i) ++
    if i + 1 < tc.schema.cols.length then [comma] else []

theorem buildColumn_ok {line line' : Bytes} {column : ColumnInfo × Nat}
    (h : tc.buildColumn vals id auto line column = .ok line') :
    tc.checkSource column.2 column.1.type (tc.insertSource vals id auto column.2) = .ok () ∧
      line' = line ++ tc.columnText vals id auto column.2 ∧ line'.length < RECORD_SIZE := by
  unfold buildColumn at h
  simp only [bind, Except.bind] at h
  split at h
  · cases h
  · rename_i u hcheck
    change (if RECORD_SIZE ≤ line.length + (tc.columnText vals id auto column.2).length
      then Except.error InsertError.rowTooLong
      else .ok (line ++ tc.columnText vals id auto column.2)) = .ok line' at h
    by_cases hroom : RECORD_SIZE ≤ line.length + (tc.columnText vals id auto column.2).length
    · rw [if_pos hroom] at h
      cases h
    · rw [if_neg hroom] at h
      cases h
      refine ⟨hcheck, rfl, ?_⟩
      rw [List.length_append]
      omega

theorem buildColumns_ok : ∀ {columns : List (ColumnInfo × Nat)} {line line' : Bytes},
    columns.foldlM (tc.buildColumn vals id auto) line = .ok line' →
      line' = line ++ (columns.map fun e => tc.columnText vals id auto e.2).flatten ∧
        (line.length < RECORD_SIZE → line'.length < RECORD_SIZE) ∧
        ∀ e ∈ columns,
          tc.checkSource e.2 e.1.type (tc.insertSource vals id auto e.2) = .ok ()
  | [], line, line', h => by
      cases h
      simp
  | e :: columns, line, line', h => by
      rw [List.foldlM_cons] at h
      simp only [bind, Except.bind] at h
      split at h
      · cases h
      · rename_i next hnext
        obtain ⟨hcheck, hline, hroom⟩ := buildColumn_ok hnext
        obtain ⟨hrest, hfit, hall⟩ := buildColumns_ok h
        refine ⟨?_, fun _ => hfit hroom, ?_⟩
        · rw [hrest, hline, List.map_cons, List.flatten_cons, List.append_assoc]
        · intro e' he'
          obtain rfl | he' := List.mem_cons.1 he'
          · exact hcheck
          · exact hall e' he'

/-- The values that `build_insert_row` checks. -/
def insertSources (tc : TableCache) (vals : List Bytes) (id : Int) (auto : Bool) : List Bytes :=
  (List.range tc.schema.cols.length).map (tc.insertSource vals id auto)

/-- What `build_insert_row` returns. -/
structure BuildsLine (tc : TableCache) (vals : List Bytes) (id : Int) (auto : Bool)
    (line : Bytes) : Prop where
  few : vals.length ≤ tc.schema.cols.length
  idOk : tc.insertId vals = .ok (id, auto)
  text : line = joinCsv ((tc.insertSources vals id auto).map csvField)
  fits : line.length < RECORD_SIZE
  checks : ∀ i column, tc.schema.cols[i]? = some column →
    tc.checkSource i column.type (tc.insertSource vals id auto i) = .ok ()

theorem buildInsertRow_ok {line : Bytes} (h : tc.buildInsertRow vals = .ok (id, line)) :
    ∃ auto, tc.BuildsLine vals id auto line := by
  unfold buildInsertRow at h
  split at h
  · cases h
  · rename_i hfew
    simp only [bind, Except.bind] at h
    split at h
    · cases h
    · rename_i idAuto hid
      obtain ⟨id', auto⟩ := idAuto
      simp only at h
      split at h
      · cases h
      · rename_i line' hline
        cases h
        obtain ⟨htext, hfit, hall⟩ := buildColumns_ok hline
        refine ⟨auto, by omega, hid, ?_, hfit (by decide), ?_⟩
        · rw [htext, List.nil_append, ← joinCsv_pieces _ 0]
          congr 1
          apply List.ext_getElem
          · simp [insertSources]
          · intro j hj hj'
            have hlt : j < tc.schema.cols.length := by simpa using hj
            have hlast : j + 1 < tc.schema.cols.length ↔ ¬ j + 1 = tc.schema.cols.length := by
              omega
            simp only [List.getElem_map, List.getElem_zipIdx, insertSources, List.length_map,
              List.length_range, List.getElem_range, Nat.zero_add, columnText, hlast, ite_not]
        · intro i column hi
          refine hall (column, i) ?_
          rw [List.mem_zipIdx_iff_getElem?]
          exact hi

theorem length_insertSources :
    (tc.insertSources vals id auto).length = tc.schema.cols.length := by
  simp [insertSources]

end TableCache

/-! ## The bytes of the values -/

theorem printL_plain (n : Int) :
    (∀ c ∈ printL n, isDigit c = true ∨ c = 45) ∧ (printL n).length ≤ 21 := by
  have hdigits : ∀ (fuel m : Nat) (acc : Bytes), (∀ c ∈ acc, isDigit c = true) →
      (∀ c ∈ printDigits fuel m acc, isDigit c = true) ∧
        (printDigits fuel m acc).length ≤ acc.length + fuel := by
    intro fuel
    induction fuel with
    | zero => exact fun m acc hacc => ⟨hacc, le_rfl⟩
    | succ fuel ih =>
        intro m acc hacc
        have hdigit : isDigit (UInt8.ofNat (48 + m % 10)) = true := by
          have hall : ∀ d < 10, isDigit (UInt8.ofNat (48 + d)) = true := by decide +kernel
          exact hall _ (Nat.mod_lt m (by omega))
        have hacc' : ∀ c ∈ UInt8.ofNat (48 + m % 10) :: acc, isDigit c = true :=
          List.forall_mem_cons.2 ⟨hdigit, hacc⟩
        rw [printDigits]
        split
        · exact ⟨hacc', by simp⟩
        · obtain ⟨h1, h2⟩ := ih (m / 10) _ hacc'
          refine ⟨h1, h2.trans ?_⟩
          rw [List.length_cons]
          omega
  obtain ⟨hall, hlen⟩ := hdigits 20 n.natAbs [] (by simp)
  unfold printL
  split
  · refine ⟨List.forall_mem_cons.2 ⟨Or.inr rfl, fun c hc => Or.inl (hall c hc)⟩, ?_⟩
    rw [List.length_cons]
    exact Nat.succ_le_succ hlen
  · exact ⟨fun c hc => Or.inl (hall c hc), hlen.trans (by simp)⟩

theorem mem_of_mem_normV {size : Nat} {s : Bytes} {c : UInt8} (h : c ∈ normV size s) : c ∈ s := by
  obtain ⟨a, b, -, hs⟩ := trimUq_around (s.take (size - 1))
  have hc : c ∈ trimUq (s.take (size - 1)) := h
  have hmem : c ∈ s.take (size - 1) := by
    obtain hs | hs := hs <;> rw [hs] <;> simp [hc]
  exact List.mem_of_mem_take hmem

theorem TableCache.insertSources_noNul {tc : TableCache} {vals : List Bytes} {id : Int}
    {auto : Bool} (hvals : ∀ v ∈ vals, ∀ c ∈ v, c ≠ 0) :
    ∀ w ∈ tc.insertSources vals id auto, ∀ c ∈ w, c ≠ 0 := by
  intro w hw c hc
  obtain ⟨i, -, rfl⟩ := List.mem_map.1 hw
  simp only [insertSource] at hc
  by_cases hpk : auto = true ∧ tc.schema.pkIdx = some i
  · rw [if_pos hpk] at hc
    obtain hd | rfl := (printL_plain id).1 c hc
    · exact ne_of_isDigit hd (by decide)
    · decide
  · rw [if_neg hpk] at hc
    have hmem := mem_of_mem_normV hc
    cases hv : vals[if auto = true ∧ tc.schema.pkIdx = some 0 then i - 1 else i]? with
    | none =>
        rw [hv] at hmem
        exact absurd hmem List.not_mem_nil
    | some v =>
        rw [hv] at hmem
        exact hvals v (List.mem_of_getElem? hv) c hmem

end MiniDbms.Legacy
