import MiniDbms.Legacy.Insert
import Mathlib.Algebra.Order.BigOperators.Group.List
import Mathlib.Algebra.Order.Group.Nat

/-!
# Fields of a row

`parse_csv_row` cuts a row at the commas outside quotes.  Putting commas between fields
is its inverse on the lists that it can return, and such a list is known by the commas
in its fields.
-/

namespace MiniDbms.Legacy

/-- The quote state behind a text in which no comma splits. -/
def fieldEnd : Bool → Bytes → Option Bool
  | q, [] => some q
  | q, c :: cs =>
    let q := if c = quote then !q else q
    if c = comma && !q then none else fieldEnd q cs

def joinCsv : List Bytes → Bytes
  | [] => []
  | [f] => f
  | f :: g :: fs => f ++ comma :: joinCsv (g :: fs)

/-- The fields that can be cut out from this quote state on, with room for `left` more
behind the first. -/
def Splits : Bool → Nat → List Bytes → Prop
  | _, _, [] => False
  | _, 0, _ :: fs => fs = []
  | q, _ + 1, [f] => (fieldEnd q f).isSome = true
  | q, left + 1, f :: g :: fs => fieldEnd q f = some false ∧ Splits false left (g :: fs)

theorem Splits.ne_nil {q : Bool} {left : Nat} {fs : List Bytes} (h : Splits q left fs) :
    fs ≠ [] := by
  rintro rfl
  cases left <;> exact h

theorem splitLoop_zero (q : Bool) (s : Bytes) : splitLoop q 0 s = [s] := by
  cases s <;> rfl

theorem splitLoop_splits : ∀ (s : Bytes) (q : Bool) (left : Nat),
    Splits q left (splitLoop q left s) ∧ joinCsv (splitLoop q left s) = s
  | [], q, left => by
      cases left with
      | zero => exact ⟨rfl, rfl⟩
      | succ left => exact ⟨rfl, rfl⟩
  | c :: cs, q, 0 => by
      rw [splitLoop_zero]
      exact ⟨rfl, rfl⟩
  | c :: cs, q, left + 1 => by
      rw [splitLoop, if_neg (Nat.succ_ne_zero left)]
      simp only [Nat.add_sub_cancel]
      by_cases hsplit : (c = comma && !(if c = quote then !q else q)) = true
      · rw [if_pos hsplit]
        simp only [Bool.and_eq_true, decide_eq_true_eq, Bool.not_eq_true'] at hsplit
        obtain ⟨rfl, hq⟩ := hsplit
        rw [if_neg (by decide)] at hq
        obtain rfl := hq
        obtain ⟨hs, hjoin⟩ := splitLoop_splits cs false left
        rw [if_neg (by decide)]
        cases hfs : splitLoop false left cs with
        | nil => exact absurd hfs hs.ne_nil
        | cons f fs =>
            rw [hfs] at hs hjoin
            exact ⟨⟨rfl, hs⟩, congrArg (comma :: ·) hjoin⟩
      · rw [if_neg hsplit]
        obtain ⟨hs, hjoin⟩ := splitLoop_splits cs (if c = quote then !q else q) (left + 1)
        cases hfs : splitLoop (if c = quote then !q else q) (left + 1) cs with
        | nil => exact absurd hfs hs.ne_nil
        | cons f fs =>
            rw [hfs] at hs hjoin
            have hend : fieldEnd q (c :: f) = fieldEnd (if c = quote then !q else q) f := by
              rw [fieldEnd]
              exact if_neg hsplit
            rw [consField]
            cases fs with
            | nil =>
                refine ⟨?_, congrArg (c :: ·) hjoin⟩
                rw [Splits, hend]
                exact hs
            | cons g fs =>
                refine ⟨?_, congrArg (c :: ·) hjoin⟩
                rw [Splits, hend]
                exact hs

/-- A text without a comma that splits is put in front of the first field. -/
theorem splitLoop_append {left : Nat} {rest : Bytes} : ∀ {f : Bytes} {q q' : Bool},
    fieldEnd q f = some q' →
      splitLoop q (left + 1) (f ++ rest) =
        (splitLoop q' (left + 1) rest).modifyHead (f ++ ·)
  | [], q, q', h => by
      cases h
      cases hfs : splitLoop q (left + 1) rest with
      | nil => exact absurd hfs (splitLoop_splits rest q (left + 1)).1.ne_nil
      | cons g fs => simp [hfs]
  | c :: f, q, q', h => by
      rw [fieldEnd] at h
      by_cases hsplit : (c = comma && !(if c = quote then !q else q)) = true
      · rw [if_pos hsplit] at h
        cases h
      · rw [if_neg hsplit] at h
        rw [List.cons_append, splitLoop, if_neg (Nat.succ_ne_zero left), if_neg hsplit,
          splitLoop_append h]
        cases hfs : splitLoop q' (left + 1) rest with
        | nil => exact absurd hfs (splitLoop_splits rest q' (left + 1)).1.ne_nil
        | cons g fs => rfl

theorem splitLoop_join : ∀ {fs : List Bytes} {q : Bool} {left : Nat},
    Splits q left fs → splitLoop q left (joinCsv fs) = fs
  | [], q, left, h => absurd rfl h.ne_nil
  | [f], q, 0, _ => splitLoop_zero q f
  | [f], q, left + 1, h => by
      obtain ⟨q', hq'⟩ := Option.isSome_iff_exists.1 h
      have hloop := @splitLoop_append left [] f q q' hq'
      rw [List.append_nil] at hloop
      rw [joinCsv, hloop]
      simp [splitLoop]
  | f :: g :: fs, q, 0, h => by cases h
  | f :: g :: fs, q, left + 1, h => by
      have hcomma : splitLoop false (left + 1) (comma :: joinCsv (g :: fs)) =
          [] :: splitLoop false left (joinCsv (g :: fs)) := by
        rw [splitLoop, if_neg (Nat.succ_ne_zero left), if_pos (by decide)]
        rfl
      rw [joinCsv, splitLoop_append h.1, hcomma, splitLoop_join h.2]
      simp

theorem splitLoop_eq_iff {q : Bool} {left : Nat} {s : Bytes} {fs : List Bytes} :
    splitLoop q left s = fs ↔ joinCsv fs = s ∧ Splits q left fs := by
  constructor
  · rintro rfl
    exact (splitLoop_splits s q left).symm
  · rintro ⟨rfl, h⟩
    exact splitLoop_join h

theorem parseCsvRow_eq_iff {row : Bytes} {fs : List Bytes} (hrow : row.length < RECORD_SIZE) :
    parseCsvRow row = fs ↔ joinCsv fs = row ∧ Splits false (MAX_COLS - 1) fs := by
  unfold parseCsvRow splitCsv
  rw [List.take_of_length_le (by omega)]
  exact splitLoop_eq_iff

/-- What the `j`-th of `n` fields is like. -/
def FieldOk (left n j : Nat) (f : Bytes) : Prop :=
  (j + 1 < n → fieldEnd false f = some false) ∧ (j < left → (fieldEnd false f).isSome = true)

theorem splits_iff : ∀ {fs : List Bytes} {left : Nat}, Splits false left fs ↔
    fs ≠ [] ∧ fs.length ≤ left + 1 ∧ ∀ j f, fs[j]? = some f → FieldOk left fs.length j f
  | [], left => by
      constructor
      · exact fun h => absurd rfl h.ne_nil
      · exact fun h => absurd rfl h.1
  | [f], 0 => by
      constructor
      · intro _
        refine ⟨List.cons_ne_nil _ _, le_rfl, ?_⟩
        intro j g hj
        refine ⟨fun h => ?_, fun h => absurd h (Nat.not_lt_zero j)⟩
        simp only [List.length_cons, List.length_nil] at h
        omega
      · exact fun _ => rfl
  | f :: g :: fs, 0 => by
      constructor
      · intro h
        cases h
      · rintro ⟨-, h, -⟩
        simp only [List.length_cons] at h
        omega
  | [f], left + 1 => by
      constructor
      · intro h
        refine ⟨List.cons_ne_nil _ _, by simp, ?_⟩
        intro j g hj
        cases j with
        | zero =>
            cases hj
            exact ⟨fun h => absurd h (by simp), fun _ => h⟩
        | succ j => cases hj
      · exact fun h => (h.2.2 0 f rfl).2 (Nat.succ_pos left)
  | f :: g :: fs, left + 1 => by
      rw [Splits, splits_iff]
      constructor
      · rintro ⟨hf, -, hlen, hall⟩
        refine ⟨List.cons_ne_nil _ _, ?_, ?_⟩
        · simp only [List.length_cons] at hlen ⊢
          omega
        · intro j g' hj
          cases j with
          | zero =>
              cases hj
              exact ⟨fun _ => hf, fun _ => by rw [hf]; rfl⟩
          | succ j =>
              obtain ⟨h1, h2⟩ := hall j g' hj
              refine ⟨fun h => h1 ?_, fun h => h2 (by omega)⟩
              simp only [List.length_cons] at h ⊢
              omega
      · rintro ⟨-, hlen, hall⟩
        refine ⟨(hall 0 f rfl).1 (by simp), List.cons_ne_nil _ _, ?_, ?_⟩
        · simp only [List.length_cons] at hlen ⊢
          omega
        · intro j g' hj
          obtain ⟨h1, h2⟩ := hall (j + 1) g' hj
          refine ⟨fun h => h1 ?_, fun h => h2 (by omega)⟩
          simp only [List.length_cons] at h ⊢
          omega

theorem splits_set_iff {fs : List Bytes} {left k : Nat} {c : Bytes} (hk : k < fs.length) :
    Splits false left (fs.set k c) ↔
      fs.length ≤ left + 1 ∧ FieldOk left fs.length k c ∧
        ∀ j ≠ k, ∀ f, fs[j]? = some f → FieldOk left fs.length j f := by
  have hne : fs.set k c ≠ [] := by
    intro h
    have := congrArg List.length h
    simp only [List.length_set, List.length_nil] at this
    omega
  rw [splits_iff, List.length_set]
  constructor
  · rintro ⟨-, hlen, hall⟩
    refine ⟨hlen, hall k c (List.getElem?_set_self hk), fun j hjk f hf => hall j f ?_⟩
    rw [List.getElem?_set_ne (Ne.symm hjk), hf]
  · rintro ⟨hlen, hself, hother⟩
    refine ⟨hne, hlen, fun j f hf => ?_⟩
    by_cases hjk : j = k
    · rw [hjk, List.getElem?_set_self hk] at hf
      rw [hjk, ← Option.some.inj hf]
      exact hself
    · rw [List.getElem?_set_ne (Ne.symm hjk)] at hf
      exact hother j hjk f hf

/-- In the other quote state every comma that did not split does. -/
theorem fieldEnd_not : ∀ {f : Bytes} {q q' : Bool}, fieldEnd q f = some q' → comma ∈ f →
    fieldEnd (!q) f = none
  | [], _, _, _, hcomma => absurd hcomma List.not_mem_nil
  | c :: f, q, q', h, hcomma => by
      rw [fieldEnd] at h ⊢
      by_cases hc : c = comma
      · subst hc
        have hne : ¬ comma = quote := by decide
        simp only [if_neg hne] at h ⊢
        cases q with
        | false => simp at h
        | true => simp
      · have hcomma := (List.mem_cons.1 hcomma).resolve_left (Ne.symm hc)
        have hno : ∀ b : Bool, ¬ (decide (c = comma) && !b) = true := by simp [hc]
        rw [if_neg (hno _)] at h ⊢
        have ih := fieldEnd_not h hcomma
        by_cases hq : c = quote
        · rw [if_pos hq] at ih ⊢
          exact ih
        · rw [if_neg hq] at ih ⊢
          exact ih

theorem joinCsv_pieces : ∀ (fs : List Bytes) (i : Nat),
    ((fs.zipIdx i).map fun e => e.1 ++ if e.2 + 1 = i + fs.length then [] else [comma]).flatten =
      joinCsv fs
  | [], i => rfl
  | [f], i => by simp [joinCsv]
  | f :: g :: fs, i => by
      have ih := joinCsv_pieces (g :: fs) (i + 1)
      have hlen : i + 1 + (g :: fs).length = i + (f :: g :: fs).length := by
        simp only [List.length_cons]
        omega
      have hno : ¬ i + 1 = i + (f :: g :: fs).length := by
        simp only [List.length_cons]
        omega
      rw [hlen] at ih
      rw [List.zipIdx_cons, List.map_cons, List.flatten_cons, ih, joinCsv]
      simp only [if_neg hno, List.append_assoc, List.singleton_append]

/-! ## Commas -/

theorem unquote_cases (t : Bytes) : unquote t = t ∨ t = quote :: (unquote t ++ [quote]) := by
  unfold unquote
  split
  · rename_i hquoted
    obtain ⟨hhead, hlen, hlast⟩ := hquoted
    right
    cases t with
    | nil => cases hhead
    | cons c rest =>
        obtain rfl : c = quote := Option.some.inj hhead
        have hne : rest ≠ [] := by
          rintro rfl
          simp at hlen
        rw [List.getLast?_cons_of_ne_nil hne, List.getLast?_eq_getLast_of_ne_nil hne] at hlast
        rw [List.tail_cons, ← Option.some.inj hlast, List.dropLast_append_getLast]
  · exact Or.inl rfl

theorem trimUq_around (s : Bytes) : ∃ a b, (∀ c ∈ a ++ b, isSpace c = true) ∧
    (s = a ++ (trimUq s ++ b) ∨ s = a ++ quote :: (trimUq s ++ quote :: b)) := by
  have hfront : s = s.takeWhile isSpace ++ s.dropWhile isSpace :=
    (List.takeWhile_append_dropWhile).symm
  have hback : s.dropWhile isSpace = trimWs s ++ (s.dropWhile isSpace).rtakeWhile isSpace := by
    unfold trimWs
    exact List.rdropWhile_append_rtakeWhile.symm
  have htext := hfront.trans (congrArg (s.takeWhile isSpace ++ ·) hback)
  refine ⟨s.takeWhile isSpace, (s.dropWhile isSpace).rtakeWhile isSpace, ?_, ?_⟩
  · intro c hc
    obtain hc | hc := List.mem_append.1 hc
    · exact List.mem_takeWhile_imp hc
    · exact List.mem_rtakeWhile_imp hc
  · unfold trimUq
    obtain hbare | hquoted := unquote_cases (trimWs s)
    · rw [hbare]
      exact Or.inl htext
    · right
      rw [hquoted] at htext
      simpa using htext

theorem length_trimUq_le (s : Bytes) : (trimUq s).length ≤ s.length := by
  obtain ⟨a, b, -, hs⟩ := trimUq_around s
  obtain hs | hs := hs
  all_goals
    have hlen := congrArg List.length hs
    simp only [List.length_append, List.length_cons] at hlen
    omega

theorem count_comma_space {a : Bytes} (ha : ∀ c ∈ a, isSpace c = true) : a.count comma = 0 :=
  List.count_eq_zero_of_not_mem fun hc => absurd (ha comma hc) (by decide)

theorem count_comma_trimUq (s : Bytes) : (trimUq s).count comma = s.count comma := by
  obtain ⟨a, b, hspace, hs⟩ := trimUq_around s
  have ha := count_comma_space fun c hc => hspace c (List.mem_append_left b hc)
  have hb := count_comma_space fun c hc => hspace c (List.mem_append_right a hc)
  have hquote : (quote == comma) = false := by decide
  obtain hs | hs := hs
  · conv_rhs => rw [hs]
    rw [List.count_append, List.count_append, ha, hb]
    omega
  · conv_rhs => rw [hs]
    rw [List.count_append, List.count_cons, List.count_append, List.count_cons, ha, hb, hquote]
    simp

theorem comma_mem_trimUq {s : Bytes} : comma ∈ trimUq s ↔ comma ∈ s := by
  rw [← List.count_pos_iff, count_comma_trimUq, List.count_pos_iff]

theorem count_comma_normV {s : Bytes} (hs : s.length < RECORD_SIZE) :
    (normV RECORD_SIZE s).count comma = s.count comma := by
  unfold normV
  rw [List.take_of_length_le (by omega), count_comma_trimUq]

theorem csvField_quoted {v : Bytes} (hcomma : comma ∈ v) (hv : v.length + 3 ≤ RECORD_SIZE) :
    csvField v = quote :: (v ++ [quote]) := by
  unfold csvField
  rw [if_pos hcomma, List.take_of_length_le (by omega), List.cons_append]

theorem csvField_uncut {v : Bytes} (hcomma : comma ∈ v)
    (hv : (csvField v).length + 1 < RECORD_SIZE) : csvField v = quote :: (v ++ [quote]) := by
  refine csvField_quoted hcomma ?_
  unfold csvField at hv
  rw [if_pos hcomma] at hv
  simp only [List.length_append, List.length_cons, List.length_take, List.length_nil] at hv
  omega

theorem csvField_bare {v : Bytes} (hcomma : comma ∉ v) : csvField v = v := if_neg hcomma

/-- Quoting takes no comma away, where the buffer has room for the value. -/
theorem count_comma_csvField {v : Bytes} (hv : (csvField v).length + 1 < RECORD_SIZE) :
    (csvField v).count comma = v.count comma := by
  by_cases hcomma : comma ∈ v
  · have hquote : (quote == comma) = false := by decide
    rw [csvField_uncut hcomma hv, List.count_cons, List.count_append, List.count_singleton, hquote]
    simp
  · rw [csvField_bare hcomma]

theorem trimUq_quoted (v : Bytes) : trimUq (quote :: (v ++ [quote])) = v := by
  have htrim : trimWs (quote :: (v ++ [quote])) = quote :: (v ++ [quote]) := by
    have hspace : isSpace quote = false := by decide
    unfold trimWs
    rw [List.dropWhile_cons_of_neg (by rw [hspace]; decide), ← List.cons_append,
      List.rdropWhile_concat_neg _ _ _ (by rw [hspace]; decide)]
  unfold trimUq unquote
  rw [htrim, if_pos]
  · simp
  · refine ⟨rfl, by simp, ?_⟩
    rw [← List.cons_append, List.getLast?_concat]

theorem fieldEnd_append_none {r : Bytes} : ∀ {f : Bytes} {q : Bool}, fieldEnd q f = none →
    fieldEnd q (f ++ r) = none
  | [], _, h => by cases h
  | c :: f, q, h => by
      rw [List.cons_append, fieldEnd]
      rw [fieldEnd] at h
      by_cases hsplit : (c = comma && !(if c = quote then !q else q)) = true
      · rw [if_pos hsplit]
      · rw [if_neg hsplit] at h ⊢
        exact fieldEnd_append_none h

theorem fieldEnd_noQuote : ∀ {f : Bytes} {q : Bool}, quote ∉ f → (q = true ∨ comma ∉ f) →
    fieldEnd q f = some q
  | [], _, _, _ => rfl
  | c :: f, q, hquote, hcomma => by
      rw [List.mem_cons, not_or] at hquote
      have hc : ¬ c = quote := fun h => hquote.1 h.symm
      have hno : ¬ (c = comma && !(if c = quote then !q else q)) = true := by
        rw [if_neg hc]
        obtain rfl | hcomma := hcomma
        · simp
        · rw [List.mem_cons, not_or] at hcomma
          simp [Ne.symm hcomma.1]
      rw [fieldEnd, if_neg hno, if_neg hc]
      exact fieldEnd_noQuote hquote.2 (hcomma.imp_right fun h h' => h (List.mem_cons_of_mem c h'))

theorem fieldEnd_comma : ∀ {f rest : Bytes}, quote ∉ f → fieldEnd false (f ++ comma :: rest) = none
  | [], rest, _ => by
      rw [List.nil_append, fieldEnd, if_pos (by decide)]
  | c :: f, rest, hquote => by
      rw [List.mem_cons, not_or] at hquote
      have hc : ¬ c = quote := fun h => hquote.1 h.symm
      rw [List.cons_append, fieldEnd, if_neg hc]
      split
      · rfl
      · exact fieldEnd_comma hquote.2

theorem fieldEnd_append {r : Bytes} : ∀ {f : Bytes} {q q' : Bool}, fieldEnd q f = some q' →
    fieldEnd q (f ++ r) = fieldEnd q' r
  | [], _, _, h => by
      cases h
      rfl
  | c :: f, q, q', h => by
      rw [fieldEnd] at h
      rw [List.cons_append, fieldEnd]
      by_cases hsplit : (c = comma && !(if c = quote then !q else q)) = true
      · rw [if_pos hsplit] at h
        cases h
      · rw [if_neg hsplit] at h ⊢
        exact fieldEnd_append h

/-- Quotes around a field that has its commas inside quotes make them split. -/
theorem fieldEnd_requoted {f : Bytes} (hf : (fieldEnd false f).isSome = true)
    (hcomma : comma ∈ f) : fieldEnd false (quote :: (f ++ [quote])) = none := by
  obtain ⟨q, hq⟩ := Option.isSome_iff_exists.1 hf
  have hnone : fieldEnd true f = none := fieldEnd_not hq hcomma
  rw [fieldEnd, if_neg (by decide)]
  exact fieldEnd_append_none hnone

/-- A joined list is known by its text and the commas in its fields. -/
theorem joinCsv_inj : ∀ {fs gs : List Bytes},
    fs.map (·.count comma) = gs.map (·.count comma) → joinCsv fs = joinCsv gs → fs = gs
  | [], gs, hcount, _ => by
      rw [List.map_nil, eq_comm, List.map_eq_nil_iff] at hcount
      exact hcount.symm
  | f :: fs, [], hcount, _ => by cases hcount
  | f :: fs, g :: gs, hcount, hjoin => by
      rw [List.map_cons, List.map_cons, List.cons.injEq] at hcount
      obtain ⟨hhead, htail⟩ := hcount
      have hlen := congrArg List.length htail
      rw [List.length_map, List.length_map] at hlen
      cases fs with
      | nil =>
          obtain rfl := List.eq_nil_of_length_eq_zero hlen.symm
          rw [joinCsv, joinCsv] at hjoin
          rw [hjoin]
      | cons f' fs =>
          cases gs with
          | nil => cases hlen
          | cons g' gs =>
              rw [joinCsv, joinCsv] at hjoin
              -- one of the two fields ends first, and then the other one holds its comma
              have hsame : f = g := by
                obtain ⟨a, ha, hrest⟩ | ⟨a, ha, hrest⟩ := List.append_eq_append_iff.1 hjoin
                · cases a with
                  | nil => rw [ha, List.append_nil]
                  | cons c a =>
                      obtain ⟨rfl, -⟩ := List.cons.inj hrest
                      rw [ha, List.count_append, List.count_cons_self] at hhead
                      omega
                · cases a with
                  | nil => rw [ha, List.append_nil]
                  | cons c a =>
                      obtain ⟨rfl, -⟩ := List.cons.inj hrest
                      rw [ha, List.count_append, List.count_cons_self] at hhead
                      omega
              subst hsame
              rw [List.append_cancel_left_eq, List.cons.injEq] at hjoin
              rw [joinCsv_inj htail hjoin.2]

/-- The values in the columns of a row. -/
def columns (row : Bytes) : List Bytes := (parseCsvRow row).map (normV RECORD_SIZE)

theorem count_joinCsv : ∀ {fs : List Bytes}, fs ≠ [] →
    (joinCsv fs).count comma + 1 = (fs.map (·.count comma)).sum + fs.length
  | [], h => absurd rfl h
  | [f], _ => by simp [joinCsv]
  | f :: g :: fs, _ => by
      have ih := count_joinCsv (List.cons_ne_nil g fs)
      rw [joinCsv, List.count_append, List.count_cons_self, List.map_cons, List.sum_cons,
        List.length_cons]
      omega

theorem mem_joinCsv {c : UInt8} : ∀ {fs : List Bytes}, c ∈ joinCsv fs →
    c = comma ∨ ∃ f ∈ fs, c ∈ f
  | [f], h => Or.inr ⟨f, List.mem_cons_self, h⟩
  | f :: g :: fs, h => by
      rw [joinCsv, List.mem_append, List.mem_cons] at h
      obtain h | h | h := h
      · exact Or.inr ⟨f, List.mem_cons_self, h⟩
      · exact Or.inl h
      · obtain h | ⟨f', hf', h⟩ := mem_joinCsv h
        · exact Or.inl h
        · exact Or.inr ⟨f', List.mem_cons_of_mem f hf', h⟩

theorem length_joinCsv : ∀ {fs : List Bytes}, fs ≠ [] →
    (joinCsv fs).length + 1 = (fs.map List.length).sum + fs.length
  | [], h => absurd rfl h
  | [f], _ => by simp [joinCsv]
  | f :: g :: fs, _ => by
      have ih := length_joinCsv (List.cons_ne_nil g fs)
      simp only [joinCsv, List.length_append, List.length_cons, List.map_cons,
        List.sum_cons] at ih ⊢
      omega

theorem length_joinCsv_of_mem {fs : List Bytes} {f : Bytes} (hf : f ∈ fs) :
    f.length + fs.length ≤ (joinCsv fs).length + 1 := by
  rw [length_joinCsv (List.ne_nil_of_mem hf)]
  have hle := List.le_sum_of_mem (List.mem_map_of_mem (f := List.length) hf)
  omega

theorem length_lt_of_mem_parse {row f : Bytes} (hrow : row.length < RECORD_SIZE)
    (hf : f ∈ parseCsvRow row) : f.length < RECORD_SIZE := by
  obtain ⟨hjoin, hsplits⟩ := (parseCsvRow_eq_iff hrow).1 (rfl : parseCsvRow row = _)
  have hlen := length_joinCsv_of_mem hf
  have hpos := List.length_pos_iff.2 hsplits.ne_nil
  rw [hjoin] at hlen
  omega

/-- A row that is put together from fields has given values exactly when the fields are cut
out again and have these values. -/
theorem columns_join_iff {fs vs : List Bytes} (hfit : (joinCsv fs).length < RECORD_SIZE)
    (hcount : fs.map (·.count comma) = vs.map (·.count comma)) :
    columns (joinCsv fs) = vs ↔
      Splits false (MAX_COLS - 1) fs ∧ fs.map (normV RECORD_SIZE) = vs := by
  unfold columns
  constructor
  · intro h
    obtain ⟨hjoin, hsplits⟩ := (parseCsvRow_eq_iff hfit).1 (rfl : parseCsvRow (joinCsv fs) = _)
    have hsame : parseCsvRow (joinCsv fs) = fs := by
      refine joinCsv_inj ?_ hjoin
      rw [hcount, ← h, List.map_map]
      refine List.map_congr_left fun f hf => ?_
      exact (count_comma_normV (length_lt_of_mem_parse hfit hf)).symm
    rw [hsame] at hsplits h
    exact ⟨hsplits, h⟩
  · rintro ⟨hsplits, hvs⟩
    rw [(parseCsvRow_eq_iff hfit).2 ⟨rfl, hsplits⟩]
    exact hvs

end MiniDbms.Legacy
