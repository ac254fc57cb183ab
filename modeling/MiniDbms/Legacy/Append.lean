import MiniDbms.Legacy.Line
import MiniDbms.Legacy.Frame
import MiniDbms.Db.Shape

/-!
# The record that INSERT appends

The records of a file are its lines behind the header, as the loader reads them.  A line
that is put behind the file is one more record when the file ends a line there and the
line itself can be read back.
-/

namespace MiniDbms.Legacy

/-- The rows of the lines; one that is too long cannot be read. -/
def records : List Bytes → Option (List Bytes)
  | [] => some []
  | line :: lines =>
    match chomp RECORD_SIZE line with
    | none => none
    | some row => (records lines).map fun rows => if row = [] then rows else row :: rows

/-- The records of a file, without the header. -/
def fileRecords (file : Bytes) : Option (List Bytes) :=
  records (readLines RECORD_SIZE file).tail

/-- A line that `fgets` does not read on when more text follows. -/
def EndsLine (chunk : Bytes) : Prop :=
  chunk.getLast? = some 10 ∨ chunk.length = RECORD_SIZE - 1

/-- The last line of a file has its line feed, or it fills the buffer. -/
def Finished (file : Bytes) : Prop :=
  ∀ chunk ∈ (readLines RECORD_SIZE file).getLast?, EndsLine chunk

/-! ## Reading on -/

theorem records_append : ∀ (a b : List Bytes), records (a ++ b) =
    (records a).bind fun ra => (records b).map (ra ++ ·)
  | [], b => by simp [records]
  | line :: a, b => by
      rw [List.cons_append, records, records, records_append a b]
      cases chomp RECORD_SIZE line with
      | none => rfl
      | some row =>
          cases records a with
          | none => rfl
          | some ra =>
              cases records b with
              | none => rfl
              | some rb =>
                  by_cases hrow : row = []
                  · simp [hrow]
                  · simp [hrow]

theorem fgets_full {s rest : Bytes} (hs : s.all (· != 10) = true)
    (hlen : s.length = RECORD_SIZE - 1) : fgets RECORD_SIZE (s ++ rest) = (s, rest) := by
  have hbody : ((s ++ rest).take (RECORD_SIZE - 1)).takeWhile (· != 10) = s := by
    rw [← hlen, List.take_left, List.takeWhile_eq_self_iff]
    exact fun c hc => List.all_eq_true.1 hs c hc
  unfold fgets
  simp only [hbody]
  rw [if_neg (by omega), List.drop_left]

/-- How a text starts: with a line, with a full buffer, or it is the start of a line. -/
theorem fgets_start (file : Bytes) :
    (∃ body rest, file = body ++ 10 :: rest ∧ Fits RECORD_SIZE body) ∨
    (∃ s rest, file = s ++ rest ∧ s.all (· != 10) = true ∧ s.length = RECORD_SIZE - 1) ∨
    Fits RECORD_SIZE file := by
  have hsize : RECORD_SIZE = 1024 := rfl
  have hsplit : file.takeWhile (· != 10) ++ file.dropWhile (· != 10) = file :=
    List.takeWhile_append_dropWhile
  have hall : (file.takeWhile (· != 10)).all (· != 10) = true := List.all_takeWhile
  by_cases hfull : RECORD_SIZE - 1 ≤ (file.takeWhile (· != 10)).length
  · refine Or.inr (Or.inl ⟨(file.takeWhile (· != 10)).take (RECORD_SIZE - 1),
      (file.takeWhile (· != 10)).drop (RECORD_SIZE - 1) ++ file.dropWhile (· != 10), ?_, ?_, ?_⟩)
    · rw [← List.append_assoc, List.take_append_drop, hsplit]
    · rw [List.all_eq_true] at hall ⊢
      exact fun c hc => hall c (List.mem_of_mem_take hc)
    · rw [List.length_take]
      omega
  · have hfits : Fits RECORD_SIZE (file.takeWhile (· != 10)) := ⟨by omega, hall⟩
    cases hrest : file.dropWhile (· != 10) with
    | nil =>
        rw [hrest, List.append_nil] at hsplit
        exact Or.inr (Or.inr (hsplit ▸ hfits))
    | cons c rest =>
        have hc : c = 10 := by
          have hhead := List.head?_dropWhile_not (· != (10 : UInt8)) file
          rw [hrest] at hhead
          simpa using hhead
        rw [hrest, hc] at hsplit
        exact Or.inl ⟨_, rest, hsplit.symm, hfits⟩

theorem endsLine_line (body : Bytes) : EndsLine (body ++ [10]) :=
  Or.inl (by rw [List.getLast?_concat])

theorem not_endsLine {l : Bytes} (h : Fits RECORD_SIZE l) : ¬ EndsLine l := by
  rintro (hlast | hlen)
  · have hmem := List.mem_of_getLast? hlast
    exact absurd (List.all_eq_true.1 h.noFeed 10 hmem) (by decide)
  · have hshort := h.short
    omega

theorem readLines_append (file : Bytes) :
    (Finished file ∧ ∀ x, readLines RECORD_SIZE (file ++ x) =
      readLines RECORD_SIZE file ++ readLines RECORD_SIZE x) ∨
    (¬ Finished file ∧ ∃ front l, Fits RECORD_SIZE l ∧ l ≠ [] ∧
      readLines RECORD_SIZE file = front ++ [l] ∧
      ∀ x, readLines RECORD_SIZE (file ++ x) = front ++ readLines RECORD_SIZE (l ++ x)) := by
  have hsize : 1 < RECORD_SIZE := by decide
  -- by induction on the length, one line at a time
  induction hn : file.length using Nat.strong_induction_on generalizing file with
  | _ n ih =>
    have hfirst : ∀ chunk rest, EndsLine chunk → file = chunk ++ rest → chunk ≠ [] →
        (∀ x, fgets RECORD_SIZE (file ++ x) = (chunk, rest ++ x)) →
        (Finished file ∧ ∀ x, readLines RECORD_SIZE (file ++ x) =
          readLines RECORD_SIZE file ++ readLines RECORD_SIZE x) ∨
        (¬ Finished file ∧ ∃ front l, Fits RECORD_SIZE l ∧ l ≠ [] ∧
          readLines RECORD_SIZE file = front ++ [l] ∧
          ∀ x, readLines RECORD_SIZE (file ++ x) = front ++ readLines RECORD_SIZE (l ++ x)) := by
      intro chunk rest hends hfile hne hread
      have hlines : ∀ x, readLines RECORD_SIZE (file ++ x) =
          chunk :: readLines RECORD_SIZE (rest ++ x) := by
        intro x
        have hnil : file ++ x ≠ [] := by
          rw [hfile]
          simp [hne]
        rw [readLines_cons hnil hsize, hread x]
      have hself : readLines RECORD_SIZE file = chunk :: readLines RECORD_SIZE rest := by
        have := hlines []
        rwa [List.append_nil, List.append_nil] at this
      have hlast : Finished file ↔ Finished rest := by
        unfold Finished
        rw [hself]
        cases hrest : readLines RECORD_SIZE rest with
        | nil => simp [hends]
        | cons c cs => rw [List.getLast?_cons_cons]
      have hshort : rest.length < n := by
        rw [← hn, hfile, List.length_append]
        have := List.length_pos_iff.2 hne
        omega
      rw [hlast]
      obtain ⟨hfin, happ⟩ | ⟨hfin, front, l, hfits, hl, hrest, happ⟩ := ih _ hshort rest rfl
      · refine Or.inl ⟨hfin, fun x => ?_⟩
        rw [hlines, hself, happ, List.cons_append]
      · refine Or.inr ⟨hfin, chunk :: front, l, hfits, hl, ?_, fun x => ?_⟩
        · rw [hself, hrest, List.cons_append]
        · rw [hlines, happ, List.cons_append]
    obtain ⟨body, rest, hfile, hfits⟩ | ⟨s, rest, hfile, hs, hlen⟩ | hfits := fgets_start file
    · refine hfirst (body ++ [10]) rest (endsLine_line body) ?_ (by simp) fun x => ?_
      · rw [hfile]
        simp
      · rw [hfile, List.append_assoc, List.cons_append]
        exact fgets_line hfits
    · refine hfirst s rest (Or.inr hlen) hfile ?_ fun x => ?_
      · rintro rfl
        simp [RECORD_SIZE] at hlen
      · rw [hfile, List.append_assoc]
        exact fgets_full hs hlen
    · by_cases hnil : file = []
      · left
        subst hnil
        refine ⟨?_, fun x => ?_⟩
        · intro chunk hchunk
          rw [readLines_nil] at hchunk
          cases hchunk
        · rw [readLines_nil, List.nil_append, List.nil_append]
      · right
        have hself : readLines RECORD_SIZE file = [file] := by
          rw [readLines_cons hnil hsize, fgets_last hfits]
          simp only [readLines_nil]
        refine ⟨?_, [], file, hfits, hnil, hself, fun x => rfl⟩
        intro hfin
        exact not_endsLine hfits (hfin file (by rw [hself]; rfl))

theorem chomp_noEnd {line row : Bytes} (h : chomp RECORD_SIZE line = some row) :
    row.all (!isLineEnd ·) = true := by
  unfold chomp at h
  split at h
  · cases h
  · cases h
    exact List.all_takeWhile

theorem records_noEnd : ∀ {lines rows : List Bytes}, records lines = some rows →
    ∀ row ∈ rows, row.all (!isLineEnd ·) = true
  | [], rows, h => by
      cases h
      simp
  | line :: lines, rows, h => by
      rw [records] at h
      cases hrow : chomp RECORD_SIZE line with
      | none =>
          rw [hrow] at h
          cases h
      | some row =>
          rw [hrow] at h
          obtain ⟨rest, hrest, rfl⟩ := Option.map_eq_some_iff.1 h
          have ih := records_noEnd hrest
          by_cases hnil : row = []
          · rw [if_pos hnil]
            exact ih
          · rw [if_neg hnil]
            exact List.forall_mem_cons.2 ⟨chomp_noEnd hrow, ih⟩

theorem records_singleton (line : Bytes) : records [line] =
    (chomp RECORD_SIZE line).map fun row => if row = [] then [] else [row] := by
  rw [records]
  cases chomp RECORD_SIZE line <;> rfl

/-! ## The line of a new row -/

/-- A text that can be a line of its own. -/
structure PlainLine (text : Bytes) : Prop where
  noNul : ∀ c ∈ text, c ≠ 0
  noEnd : text.all (!isLineEnd ·) = true

theorem PlainLine.noFeed {text : Bytes} (h : PlainLine text) : text.all (· != 10) = true := by
  rw [List.all_eq_true]
  intro c hc
  have hend := List.all_eq_true.1 h.noEnd c hc
  rw [bne_iff_ne]
  rintro rfl
  exact absurd hend (by decide)

theorem PlainLine.chomp {text : Bytes} (h : PlainLine text) (hlen : text.length + 1 < RECORD_SIZE) :
    chomp RECORD_SIZE (text ++ [10]) = some text := by
  refine chomp_text (fun c hc => ⟨h.noNul c hc, ?_⟩) ?_ (by omega)
  · have hend := List.all_eq_true.1 h.noEnd c hc
    simpa using hend
  · intro c hc
    rw [List.mem_singleton.1 hc]
    decide

/-- A text that fills the buffer is not a line. -/
theorem PlainLine.chomp_full {text : Bytes} (h : PlainLine text)
    (hlen : text.length = RECORD_SIZE - 1) : Legacy.chomp RECORD_SIZE text = none := by
  unfold Legacy.chomp
  rw [cstr_eq_self h.noNul, if_pos ⟨h.noEnd, hlen⟩]

theorem readLines_line {text : Bytes} (h : PlainLine text) (hlen : text.length + 1 < RECORD_SIZE) :
    readLines RECORD_SIZE (text ++ [10]) = [text ++ [10]] := by
  have hline := @fgets_line RECORD_SIZE text [] ⟨by omega, h.noFeed⟩
  rw [readLines_cons (by simp) (by decide), hline, readLines_nil]

theorem records_line {text : Bytes} (h : PlainLine text) (hlen : text.length < RECORD_SIZE) :
    records (readLines RECORD_SIZE (text ++ [10])) =
      if text.length + 1 < RECORD_SIZE then some (if text = [] then [] else [text]) else none := by
  split
  · rename_i hshort
    rw [readLines_line h hshort, records_singleton, h.chomp hshort]
    rfl
  · rename_i hfull
    have hread := @fgets_full text [10] h.noFeed (by omega)
    rw [readLines_cons (by simp) (by decide), hread, records, h.chomp_full (by omega)]

/-! ## A row that lost its start -/

theorem cons_eq_concat {a b : UInt8} : ∀ {w : Bytes}, a :: w = w ++ [b] → a = b ∧ ∀ c ∈ w, c = a
  | [], h => by
      cases h
      exact ⟨rfl, by simp⟩
  | c :: w, h => by
      obtain ⟨rfl, h⟩ := List.cons.inj h
      obtain ⟨hab, hall⟩ := cons_eq_concat h
      exact ⟨hab, List.forall_mem_cons.2 ⟨rfl, hall⟩⟩

/-- A quoted value without its start does not give the value. -/
theorem normV_suffix_ne {w g front : Bytes} (hfront : front ≠ [])
    (hfit : (csvField w).length + 1 < RECORD_SIZE) (h : csvField w = front ++ g) :
    normV RECORD_SIZE g ≠ w := by
  intro hnorm
  have hpos := List.length_pos_iff.2 hfront
  have hlen := congrArg List.length h
  rw [List.length_append] at hlen
  have htrim : trimUq g = w := by
    unfold normV at hnorm
    rwa [List.take_of_length_le (by omega)] at hnorm
  have hle := length_trimUq_le g
  rw [htrim] at hle
  by_cases hcomma : comma ∈ w
  · rw [csvField_uncut hcomma hfit] at h hlen
    simp only [List.length_cons, List.length_append, List.length_nil] at hlen
    obtain ⟨a, b, hspace, hg⟩ := trimUq_around g
    rw [htrim] at hg
    have hquote : isSpace quote = false := by decide
    obtain hg | hg := hg
    · have hglen := congrArg List.length hg
      simp only [List.length_append] at hglen
      -- the front is the first quote, or that and the first byte of the value
      cases front with
      | nil => exact hfront rfl
      | cons q front =>
          rw [List.cons_append] at h
          obtain ⟨-, h⟩ := List.cons.inj h
          simp only [List.length_cons] at hlen
          cases front with
          | nil =>
              rw [List.nil_append] at h
              simp only [List.length_nil] at hlen
              cases a with
              | nil =>
                  rw [List.nil_append, ← h, List.append_cancel_left_eq] at hg
                  have := hspace quote (by rw [← hg]; simp)
                  rw [hquote] at this
                  cases this
              | cons c a =>
                  simp only [List.length_cons] at hglen
                  have ha : a = [] := List.eq_nil_of_length_eq_zero (by omega)
                  have hb : b = [] := List.eq_nil_of_length_eq_zero (by omega)
                  rw [ha, hb, List.append_nil, ← h, List.singleton_append] at hg
                  have hc := (cons_eq_concat hg.symm).1
                  have := hspace c (by simp)
                  rw [hc, hquote] at this
                  cases this
          | cons c front =>
              simp only [List.length_cons] at hlen
              have hnil : front = [] := List.eq_nil_of_length_eq_zero (by omega)
              have ha : a = [] := List.eq_nil_of_length_eq_zero (by omega)
              have hb : b = [] := List.eq_nil_of_length_eq_zero (by omega)
              rw [ha, hb, List.append_nil, List.nil_append] at hg
              rw [hnil, hg, List.singleton_append] at h
              obtain ⟨hc, hall⟩ := cons_eq_concat h.symm
              have := hall comma hcomma
              rw [hc] at this
              exact absurd this (by decide)
    · have hglen := congrArg List.length hg
      simp only [List.length_append, List.length_cons] at hglen
      omega
  · rw [csvField_bare hcomma] at hlen
    omega

theorem columns_suffix_ne {ws : List Bytes} {front rest : Bytes} (hne : ws ≠ [])
    (hfront : front ≠ []) (hfit : (joinCsv (ws.map csvField)).length + 1 < RECORD_SIZE)
    (h : joinCsv (ws.map csvField) = front ++ rest) : columns rest ≠ ws := by
  intro hcols
  have hlen := congrArg List.length h
  rw [List.length_append] at hlen
  have hfits : ∀ w ∈ ws, (csvField w).length + 1 < RECORD_SIZE := by
    intro w hw
    have hmem := length_joinCsv_of_mem (List.mem_map_of_mem (f := csvField) hw)
    have hpos := List.length_pos_iff.2 hne
    rw [List.length_map] at hmem
    omega
  have hcounts : (ws.map csvField).map (·.count comma) = ws.map (·.count comma) := by
    rw [List.map_map]
    exact List.map_congr_left fun w hw => count_comma_csvField (hfits w hw)
  have hrest : rest.length < RECORD_SIZE := by omega
  obtain ⟨hjoin, hsplits⟩ := (parseCsvRow_eq_iff hrest).1 (rfl : parseCsvRow rest = _)
  have hparse : (parseCsvRow rest).map (·.count comma) = ws.map (·.count comma) := by
    rw [← hcols, columns, List.map_map]
    refine List.map_congr_left fun f hf => ?_
    exact (count_comma_normV (length_lt_of_mem_parse hrest hf)).symm
  have hnumber := congrArg List.length hparse
  rw [List.length_map, List.length_map] at hnumber
  have hne' : ws.map csvField ≠ [] := by simpa using hne
  -- the front has no comma, so the first field alone loses text
  have hno : front.count comma = 0 := by
    have h1 := count_joinCsv hne'
    have h2 := count_joinCsv hsplits.ne_nil
    rw [h, List.count_append, hcounts, List.length_map] at h1
    rw [hjoin, hparse] at h2
    omega
  cases hgs : parseCsvRow rest with
  | nil => exact hsplits.ne_nil hgs
  | cons g gs =>
      have hjoin' : joinCsv (ws.map csvField) = joinCsv ((front ++ g) :: gs) := by
        rw [h, ← hjoin, hgs]
        cases gs with
        | nil => rfl
        | cons g' gs => rw [joinCsv, joinCsv, List.append_assoc]
      have hsame := @joinCsv_inj _ ((front ++ g) :: gs) (by
        rw [hcounts, ← hparse, hgs, List.map_cons, List.map_cons, List.count_append, hno,
          Nat.zero_add]) hjoin'
      cases hws : ws with
      | nil => exact hne hws
      | cons w ws' =>
          rw [hws, List.map_cons] at hsame
          obtain ⟨hfield, -⟩ := List.cons.inj hsame
          rw [columns, hgs, hws, List.map_cons] at hcols
          exact normV_suffix_ne hfront (hfits w (by rw [hws]; exact List.mem_cons_self)) hfield
            (List.cons.inj hcols).1

/-! ## Text behind an unfinished line -/

/-- A line that is cut in it is cut at the same place when more text follows. -/
theorem chomp_append {l r x : Bytes} (hshort : l.length < RECORD_SIZE - 1)
    (h : chomp RECORD_SIZE l = some r) (hplain : ¬ PlainLine l) :
    chomp RECORD_SIZE (l ++ x) = some r := by
  unfold chomp at h ⊢
  have hle : (cstr l).length ≤ l.length := (List.takeWhile_sublist _).length_le
  rw [if_neg (by omega)] at h
  rw [← Option.some.inj h]
  by_cases hnul : ∀ c ∈ l, c ≠ 0
  · -- the line end is in front of the text
    have hend : l.all (!isLineEnd ·) = false := Bool.eq_false_iff.2 fun hall => hplain ⟨hnul, hall⟩
    have hcut : cstr (l ++ x) = l ++ cstr x := by
      unfold cstr
      exact List.takeWhile_append_of_pos fun c hc => by simpa using hnul c hc
    rw [hcut, cstr_eq_self hnul, if_neg (by rw [List.all_append, hend]; simp)]
    congr 1
    obtain ⟨c, hc, hend⟩ := List.all_eq_false.1 hend
    rw [List.takeWhile_append, if_neg]
    intro hlen
    have hself := List.takeWhile_eq_self_iff.1
      ((List.takeWhile_prefix (l := l) (!isLineEnd ·)).eq_of_length hlen) c hc
    exact hend hself
  · have hcut : cstr (l ++ x) = cstr l := by
      unfold cstr
      rw [List.takeWhile_append, if_neg]
      intro hlen
      refine hnul fun c hc => ?_
      have hself := List.takeWhile_eq_self_iff.1
        ((List.takeWhile_prefix (l := l) (· != 0)).eq_of_length hlen) c hc
      simpa using hself
    rw [hcut, if_neg (by omega)]

theorem PlainLine.append {l x : Bytes} (hl : PlainLine l) (hx : PlainLine x) :
    PlainLine (l ++ x) := by
  refine ⟨fun c hc => (List.mem_append.1 hc).elim (hl.noNul c) (hx.noNul c), ?_⟩
  rw [List.all_append, hl.noEnd, hx.noEnd]
  rfl

theorem PlainLine.sub {l x : Bytes} (hl : PlainLine l) (hx : x ⊆ l) : PlainLine x := by
  refine ⟨fun c hc => hl.noNul c (hx hc), ?_⟩
  rw [List.all_eq_true]
  exact fun c hc => List.all_eq_true.1 hl.noEnd c (hx hc)

theorem readLines_unfinished {l text : Bytes} (hl : Fits RECORD_SIZE l) (htext : PlainLine text)
    (hlen : text.length + 1 < RECORD_SIZE) :
    readLines RECORD_SIZE (l ++ (text ++ [10])) = [l ++ text ++ [10]] ∨
    ∃ front rest, text = front ++ rest ∧ front ≠ [] ∧ (l ++ front).length = RECORD_SIZE - 1 ∧
      readLines RECORD_SIZE (l ++ (text ++ [10])) = [l ++ front, rest ++ [10]] := by
  have hshort := hl.short
  have hfeed : ∀ {x : Bytes}, x ⊆ text → (l ++ x).all (· != 10) = true := by
    intro x hx
    rw [List.all_append, hl.noFeed, (htext.sub hx).noFeed]
    rfl
  by_cases hroom : (l ++ text).length + 2 ≤ RECORD_SIZE
  · left
    have hline := @fgets_line RECORD_SIZE (l ++ text) []
      ⟨hroom, hfeed (List.Subset.refl text)⟩
    rw [← List.append_assoc, readLines_cons (by simp) (by decide), hline, readLines_nil]
  · right
    rw [List.length_append] at hroom
    have hfront : (text.take (RECORD_SIZE - 1 - l.length)).length = RECORD_SIZE - 1 - l.length := by
      rw [List.length_take]
      omega
    refine ⟨text.take (RECORD_SIZE - 1 - l.length), text.drop (RECORD_SIZE - 1 - l.length),
      (List.take_append_drop _ _).symm, ?_, ?_, ?_⟩
    · intro hnil
      rw [hnil] at hfront
      simp only [List.length_nil] at hfront
      omega
    · rw [List.length_append, hfront]
      omega
    · have hrest := @readLines_line (text.drop (RECORD_SIZE - 1 - l.length))
        (htext.sub (List.drop_subset _ _)) (by rw [List.length_drop]; omega)
      have hread := @fgets_full (l ++ text.take (RECORD_SIZE - 1 - l.length))
        (text.drop (RECORD_SIZE - 1 - l.length) ++ [10]) (hfeed (List.take_subset _ _))
        (by rw [List.length_append, hfront]; omega)
      have hall : l ++ (text ++ [10]) = l ++ text.take (RECORD_SIZE - 1 - l.length) ++
          (text.drop (RECORD_SIZE - 1 - l.length) ++ [10]) := by
        rw [List.append_assoc, ← List.append_assoc (text.take _), List.take_append_drop]
      rw [hall, readLines_cons (by simp) (by decide), hread, hrest]

/-! ## One more record -/

/-- The file has one more record than before, with these values in its columns. -/
def AppendsRecord (base file : Bytes) (ws : List Bytes) : Prop :=
  ∃ old row, fileRecords base = some old ∧ fileRecords file = some (old ++ [row]) ∧ columns row = ws

/-- A file and the values of a new row that make one more record. -/
structure CleanAppend (base : Bytes) (ws : List Bytes) : Prop where
  finished : Finished base
  noEnd : ∀ w ∈ ws, w.all (!isLineEnd ·) = true
  nonempty : joinCsv (ws.map csvField) ≠ []
  short : (joinCsv (ws.map csvField)).length + 1 < RECORD_SIZE
  closed : Splits false (MAX_COLS - 1) (ws.map csvField)
  kept : ∀ w ∈ ws, normV RECORD_SIZE (csvField w) = w

section Append

variable {base : Bytes} {ws : List Bytes}

theorem mem_csvField {c : UInt8} {w : Bytes} (h : c ∈ csvField w) : c = quote ∨ c ∈ w := by
  unfold csvField at h
  split at h
  · rw [List.cons_append, List.mem_cons, List.mem_append, List.mem_singleton] at h
    obtain h | h | h := h
    · exact Or.inl h
    · exact Or.inr (List.mem_of_mem_take h)
    · exact Or.inl h
  · exact Or.inr h

theorem plainLine_join (hnul : ∀ w ∈ ws, ∀ c ∈ w, c ≠ 0)
    (hend : ∀ w ∈ ws, w.all (!isLineEnd ·) = true) : PlainLine (joinCsv (ws.map csvField)) := by
  have hall : ∀ c ∈ joinCsv (ws.map csvField), c ≠ 0 ∧ (!isLineEnd c) = true := by
    intro c hc
    obtain rfl | ⟨f, hf, hc⟩ := mem_joinCsv hc
    · decide
    · obtain ⟨w, hw, rfl⟩ := List.mem_map.1 hf
      obtain rfl | hc := mem_csvField hc
      · decide
      · exact ⟨hnul w hw c hc, List.all_eq_true.1 (hend w hw) c hc⟩
  exact ⟨fun c hc => (hall c hc).1, List.all_eq_true.2 fun c hc => (hall c hc).2⟩

theorem columns_noEnd {row : Bytes} (hrow : row.all (!isLineEnd ·) = true) :
    ∀ w ∈ columns row, w.all (!isLineEnd ·) = true := by
  intro w hw
  obtain ⟨f, hf, rfl⟩ := List.mem_map.1 hw
  rw [List.all_eq_true] at hrow ⊢
  exact fun c hc => hrow c (mem_of_mem_splitCsv hf (mem_of_mem_normV hc))

theorem readLines_ne_nil (hbase : base ≠ []) : readLines RECORD_SIZE base ≠ [] := by
  rw [readLines_cons hbase (by decide)]
  exact List.cons_ne_nil _ _

/-- Behind an unfinished line there is no new record with the values. -/
theorem not_appends_unfinished (hfin : ¬ Finished base) (hne : ws ≠ [])
    (hplain : PlainLine (joinCsv (ws.map csvField)))
    (hlen : (joinCsv (ws.map csvField)).length + 1 < RECORD_SIZE) :
    ¬ AppendsRecord base (base ++ (joinCsv (ws.map csvField) ++ [10])) ws := by
  rintro ⟨old, row, hold, hnew, hcols⟩
  obtain ⟨h, -⟩ | ⟨-, front, l, hl, hlne, hread, hmore⟩ := readLines_append base
  · exact hfin h
  have hshort := hl.short
  rw [fileRecords, hread] at hold
  rw [fileRecords, hmore] at hnew
  obtain hone | ⟨start, rest, htext, hstart, hfull, htwo⟩ := readLines_unfinished hl hplain hlen
  · -- the new row is part of the unfinished line
    rw [hone] at hnew
    cases front with
    | nil =>
        rw [List.nil_append, List.tail_cons, records] at hnew
        have := congrArg List.length (Option.some.inj hnew)
        simp at this
    | cons header front =>
        rw [List.cons_append, List.tail_cons, records_append, records_singleton] at hold hnew
        obtain ⟨ra, hra, hold⟩ := Option.bind_eq_some_iff.1 hold
        rw [hra, Option.bind_some] at hnew
        obtain ⟨rb, hrb, rfl⟩ := Option.map_eq_some_iff.1 hold
        obtain ⟨r, hr, rfl⟩ := Option.map_eq_some_iff.1 hrb
        obtain ⟨rb', hrb', hnew⟩ := Option.map_eq_some_iff.1 hnew
        obtain ⟨r', hr', rfl⟩ := Option.map_eq_some_iff.1 hrb'
        have hcount := congrArg List.length hnew
        simp only [List.length_append, List.length_singleton] at hcount
        by_cases hlplain : PlainLine l
        · have hself := @chomp_text RECORD_SIZE l []
            (fun c hc => ⟨hlplain.noNul c hc, by
              simpa using List.all_eq_true.1 hlplain.noEnd c hc⟩) (by simp) hl.short
          rw [List.append_nil, hr] at hself
          rw [Option.some.inj hself, if_neg hlne, List.length_singleton] at hcount
          split at hcount
          all_goals
            simp only [List.length_nil, List.length_cons] at hcount
            omega
        · have hsame := chomp_append (x := joinCsv (ws.map csvField) ++ [10]) (by omega) hr hlplain
          rw [← List.append_assoc, hr'] at hsame
          rw [Option.some.inj hsame] at hcount
          omega
  · -- the buffer ends in the new row, and what is left of it is read as a record
    rw [htwo] at hnew
    have hrest : PlainLine rest := hplain.sub (by rw [htext]; exact List.subset_append_right _ _)
    have hrestlen : rest.length + 1 < RECORD_SIZE := by
      rw [htext, List.length_append] at hlen
      omega
    have hcut : ∀ r, records [rest ++ [10]] = some r → r = [row] → False := by
      intro r hr hrow
      have hline := records_line hrest (by omega)
      rw [readLines_line hrest hrestlen, if_pos hrestlen, hr] at hline
      rw [hrow, Option.some.injEq] at hline
      split at hline
      · cases hline
      · obtain rfl := (List.cons.inj hline).1
        exact columns_suffix_ne hne hstart hlen htext hcols
    cases front with
    | nil =>
        have hnil : old = [] := by
          rw [List.nil_append, List.tail_cons, records] at hold
          exact (Option.some.inj hold).symm
        rw [hnil] at hnew
        exact hcut _ hnew rfl
    | cons header front =>
        rw [List.cons_append, List.tail_cons, records_append, records_singleton] at hold
        obtain ⟨ra, hra, hold⟩ := Option.bind_eq_some_iff.1 hold
        obtain ⟨rb, hrb, rfl⟩ := Option.map_eq_some_iff.1 hold
        obtain ⟨r, hr, rfl⟩ := Option.map_eq_some_iff.1 hrb
        have htwo' : [l ++ start, rest ++ [10]] = [l ++ start] ++ [rest ++ [10]] := rfl
        rw [List.cons_append, List.tail_cons, records_append, hra, Option.bind_some, htwo',
          records_append, records_singleton] at hnew
        have hstartPlain : PlainLine start :=
          hplain.sub (by rw [htext]; exact List.subset_append_left _ _)
        by_cases hlplain : PlainLine l
        · rw [(hlplain.append hstartPlain).chomp_full hfull] at hnew
          cases hnew
        · rw [chomp_append (by omega) hr hlplain, Option.map_some, Option.bind_some] at hnew
          obtain ⟨rc, hrc, hnew⟩ := Option.map_eq_some_iff.1 hnew
          obtain ⟨rd, hrd, rfl⟩ := Option.map_eq_some_iff.1 hrc
          rw [← List.append_assoc, List.append_cancel_left_eq] at hnew
          exact hcut rd hrd hnew

theorem appends_finished_iff (hfin : Finished base) (hbase : base ≠ []) {old : List Bytes}
    (hold : fileRecords base = some old) (hplain : PlainLine (joinCsv (ws.map csvField)))
    (hlen : (joinCsv (ws.map csvField)).length < RECORD_SIZE) :
    AppendsRecord base (base ++ (joinCsv (ws.map csvField) ++ [10])) ws ↔
      joinCsv (ws.map csvField) ≠ [] ∧ (joinCsv (ws.map csvField)).length + 1 < RECORD_SIZE ∧
        columns (joinCsv (ws.map csvField)) = ws := by
  have hnew : fileRecords (base ++ (joinCsv (ws.map csvField) ++ [10])) =
      (records (readLines RECORD_SIZE (joinCsv (ws.map csvField) ++ [10]))).map (old ++ ·) := by
    obtain ⟨-, happ⟩ | ⟨h, -⟩ := readLines_append base
    · rw [fileRecords, happ, List.tail_append_of_ne_nil (readLines_ne_nil hbase), records_append]
      rw [fileRecords] at hold
      rw [hold]
      rfl
    · exact absurd hfin h
  rw [records_line hplain hlen] at hnew
  constructor
  · rintro ⟨old', row, hold', hrow, hcols⟩
    rw [hold, Option.some.injEq] at hold'
    rw [hnew, ← hold'] at hrow
    split at hrow
    · rename_i hshort
      rw [Option.map_some, Option.some.injEq, List.append_cancel_left_eq] at hrow
      split at hrow
      · cases hrow
      · rename_i hne
        rw [(List.cons.inj hrow).1]
        exact ⟨by rwa [(List.cons.inj hrow).1] at hne, by rwa [(List.cons.inj hrow).1] at hshort,
          hcols⟩
    · cases hrow
  · rintro ⟨hne, hshort, hcols⟩
    rw [if_pos hshort, if_neg hne] at hnew
    exact ⟨old, _, hold, hnew, hcols⟩

theorem joinCsv_short (hlen : (joinCsv (ws.map csvField)).length + 1 < RECORD_SIZE) :
    ∀ w ∈ ws, (csvField w).length + 1 < RECORD_SIZE := by
  intro w hw
  have hmem := length_joinCsv_of_mem (List.mem_map_of_mem (f := csvField) hw)
  have hpos := List.length_pos_of_mem hw
  rw [List.length_map] at hmem
  omega

theorem columns_line_iff (hlen : (joinCsv (ws.map csvField)).length + 1 < RECORD_SIZE) :
    columns (joinCsv (ws.map csvField)) = ws ↔ Splits false (MAX_COLS - 1) (ws.map csvField) ∧
      ∀ w ∈ ws, normV RECORD_SIZE (csvField w) = w := by
  have hcounts : (ws.map csvField).map (·.count comma) = ws.map (·.count comma) := by
    rw [List.map_map]
    exact List.map_congr_left fun w hw => count_comma_csvField (joinCsv_short hlen w hw)
  rw [columns_join_iff (by omega) hcounts, List.map_map]
  refine and_congr_right fun _ => ?_
  conv_lhs => rhs; rw [← List.map_id ws]
  rw [List.map_inj_left]
  rfl

/-- A new row makes one more record exactly when nothing in it or in front of it is in the
way.  A line that leaves no room for its line feed is left out behind an unfinished line. -/
theorem appends_iff (hbase : base ≠ []) (hne : ws ≠ []) (hnul : ∀ w ∈ ws, ∀ c ∈ w, c ≠ 0)
    (hlen : (joinCsv (ws.map csvField)).length < RECORD_SIZE) {old : List Bytes}
    (hold : fileRecords base = some old) :
    (CleanAppend base ws →
      AppendsRecord base (base ++ (joinCsv (ws.map csvField) ++ [10])) ws) ∧
    ((joinCsv (ws.map csvField)).length + 1 < RECORD_SIZE ∨ Finished base →
      AppendsRecord base (base ++ (joinCsv (ws.map csvField) ++ [10])) ws → CleanAppend base ws) := by
  constructor
  · intro h
    have hplain := plainLine_join hnul h.noEnd
    rw [appends_finished_iff h.finished hbase hold hplain hlen, columns_line_iff h.short]
    exact ⟨h.nonempty, h.short, h.closed, h.kept⟩
  · intro hroom h
    have hend : ∀ w ∈ ws, w.all (!isLineEnd ·) = true := by
      obtain ⟨old', row, -, hnew, hcols⟩ := h
      rw [← hcols]
      exact columns_noEnd (records_noEnd hnew row (by simp))
    have hplain := plainLine_join hnul hend
    have hfin : Finished base := by
      by_contra hfin
      exact not_appends_unfinished hfin hne hplain (hroom.resolve_right hfin) h
    obtain ⟨hnonempty, hshort, hcols⟩ :=
      (appends_finished_iff hfin hbase hold hplain hlen).1 h
    obtain ⟨hclosed, hkept⟩ := (columns_line_iff hshort).1 hcols
    exact ⟨hfin, hend, hnonempty, hshort, hclosed, hkept⟩

end Append

/-! ## The statement -/

namespace TableCache

variable {tc tc' : TableCache}

/-- The values that `build_insert_row` checks against the constraints. -/
def checkedValues (tc : TableCache) (vals : List Bytes) : List Bytes :=
  match tc.insertId vals with
  | .ok (id, auto) => tc.insertSources vals id auto
  | .error _ => []

/-- The file that the new row is put behind: the one of the table, or the compacted one. -/
def appendBase (tc : TableCache) (hasDelta : Bool) : Bytes :=
  if tc.compacts hasDelta then tc.compactText.getD [] else tc.file

theorem appendRecordFile_file (h : tc.writePos = none) (row : Bytes) :
    (tc.appendRecordFile row).file = tc.file ++ (row ++ [10]) := by
  unfold appendRecordFile
  rw [h, ← List.append_assoc]

theorem soughtFor_eq_self (h : tc.writePos = none) (line : Bytes) : tc.soughtFor line = tc := by
  unfold soughtFor seekEnd
  rw [h, Option.map_none, ← h]
  split <;> rfl

theorem insertBuilt_file (hpos : tc.writePos = none) {id id' : Int} {line : Bytes}
    (h : tc.insertBuilt id line = (tc', .ok id')) : tc'.file = tc.file ++ (line ++ [10]) := by
  unfold insertBuilt at h
  split at h
  · cases h
  · split at h
    · split at h
      · cases h
      · rename_i happ
        cases h
        have hsource := source_appendRecordCsvIndexed happ
        rw [appendRecordFile_file (hsource.writePos.trans hpos), hsource.file]
    · cases h
      exact appendRecordFile_file hpos line

theorem fileRecords_of_load {file : Bytes} {delta : Option Bytes}
    (h : loadTableContents file delta = some tc) : ∃ old, fileRecords file = some old := by
  obtain ⟨scan, hscan, -⟩ := Option.bind_eq_some_iff.1 h
  have hlines : ∀ (lines : List Bytes) (scan scan' : Scan),
      lines.foldlM (scanLine delta.isSome) scan = some scan' → ∃ rows, records lines = some rows := by
    intro lines
    induction lines with
    | nil => exact fun _ _ _ => ⟨[], rfl⟩
    | cons line lines ih =>
        intro scan scan' h
        rw [List.foldlM_cons] at h
        obtain ⟨next, hnext, h⟩ := Option.bind_eq_some_iff.1 h
        obtain ⟨row, hrow, -⟩ := Option.bind_eq_some_iff.1 hnext
        obtain ⟨rows, hrows⟩ := ih next scan' h
        rw [records, hrow, hrows]
        exact ⟨_, rfl⟩
  obtain ⟨rows, hrows⟩ := hlines _ _ _ hscan
  refine ⟨rows, ?_⟩
  unfold fileRecords
  by_cases hfile : file = []
  · have hnil : (fgets RECORD_SIZE []).2 = [] := by decide +kernel
    rw [hfile, hnil, readLines_nil] at hrows
    rw [hfile, readLines_nil]
    exact hrows
  · rw [readLines_cons hfile (by decide), List.tail_cons]
    exact hrows

/-- INSERT appends exactly one record with the checked values exactly when the values can be
read back from their line and the file has ended its last one. -/
theorem insert_appends_iff {file : Bytes} {delta : Option Bytes} {rowData : Bytes} {newId : Int}
    (hload : loadTableContents file delta = some tc)
    (hinsert : tc.insertRowData delta.isSome rowData = (some tc', .ok newId)) :
    (CleanAppend (tc.appendBase delta.isSome) (tc.checkedValues (parseCsvRow (cstr rowData))) →
      AppendsRecord (tc.appendBase delta.isSome) tc'.file
        (tc.checkedValues (parseCsvRow (cstr rowData)))) ∧
    ((joinCsv ((tc.checkedValues (parseCsvRow (cstr rowData))).map csvField)).length + 1 <
        RECORD_SIZE ∨ Finished (tc.appendBase delta.isSome) →
      (AppendsRecord (tc.appendBase delta.isSome) tc'.file
        (tc.checkedValues (parseCsvRow (cstr rowData))) ↔
      CleanAppend (tc.appendBase delta.isSome)
        (tc.checkedValues (parseCsvRow (cstr rowData))))) := by
  unfold insertRowData at hinsert
  split at hinsert
  · cases hinsert
  · rename_i idValue line hbuild
    obtain ⟨auto, hline⟩ := buildInsertRow_ok hbuild
    have hvals : ∀ v ∈ parseCsvRow (cstr rowData), ∀ c ∈ v, c ≠ 0 := fun v hv c hc =>
      ne_zero_of_mem_cstr (mem_of_mem_splitCsv hv hc)
    have hws : tc.checkedValues (parseCsvRow (cstr rowData)) =
        tc.insertSources (parseCsvRow (cstr rowData)) idValue auto := by
      unfold checkedValues
      rw [hline.idOk]
    have hcols : 0 < tc.schema.cols.length := by
      have hfew := hline.few
      have hpos : 0 < (parseCsvRow (cstr rowData)).length :=
        List.length_pos_iff.2 (splitLoop_splits _ false (MAX_COLS - 1)).1.ne_nil
      omega
    have hne : tc.insertSources (parseCsvRow (cstr rowData)) idValue auto ≠ [] := by
      intro h
      have hlen := @length_insertSources tc (parseCsvRow (cstr rowData)) idValue auto
      rw [h, List.length_nil] at hlen
      omega
    have hnul := @insertSources_noNul tc _ idValue auto hvals
    have hlen : (joinCsv ((tc.insertSources (parseCsvRow (cstr rowData)) idValue auto).map
        csvField)).length < RECORD_SIZE := by
      rw [← hline.text]
      exact hline.fits
    -- the table that the row is put into, and the file behind it
    obtain ⟨base, hbase, hbaseNe, old, hold, hfile⟩ : ∃ base, tc.appendBase delta.isSome = base ∧
        base ≠ [] ∧ ∃ old, fileRecords base = some old ∧ tc'.file = base ++ (line ++ [10]) := by
      have hdone : ∀ {r : TableCache × Except InsertError Int},
          r.map some id = (some tc', .ok newId) → r = (tc', .ok newId) := by
        rintro ⟨t, e⟩ hr
        obtain ⟨ht, he⟩ := Prod.mk.inj hr
        rw [Option.some.inj ht]
        exact congrArg _ he
      by_cases hcompact : tc.compacts delta.isSome
      · rw [if_pos hcompact] at hinsert
        split at hinsert
        · cases hinsert
        · rename_i text htext
          split at hinsert
          · cases hinsert
          · rename_i tc₁ hload₁
            have hsource₁ := source_loadTableContents hload₁
            have hfile₁ : tc₁.file = text := hsource₁.file
            refine ⟨text, ?_, ?_, ?_⟩
            · unfold appendBase
              rw [if_pos hcompact, htext, Option.getD_some]
            · obtain ⟨rows, -, rfl⟩ := Option.map_eq_some_iff.1 htext
              unfold headerText
              rw [if_neg (by rintro hnil; rw [hnil] at hcols; exact Nat.lt_irrefl 0 hcols)]
              simp
            · obtain ⟨old, hold⟩ := fileRecords_of_load hload₁
              refine ⟨old, hold, ?_⟩
              rw [soughtFor_eq_self hsource₁.writePos] at hinsert
              rw [insertBuilt_file hsource₁.writePos (hdone hinsert), hfile₁]
      · rw [if_neg hcompact] at hinsert
        have hsource := source_loadTableContents hload
        obtain ⟨old, hold⟩ := fileRecords_of_load hload
        have hfile : tc.file = file := hsource.file
        rw [soughtFor_eq_self hsource.writePos] at hinsert
        refine ⟨tc.file, ?_, ?_, old, ?_, insertBuilt_file hsource.writePos (hdone hinsert)⟩
        · unfold appendBase
          rw [if_neg hcompact]
        · intro hnil
          rw [hfile] at hnil
          rw [hsource.schema, hnil] at hcols
          revert hcols
          decide +kernel
        · rw [hfile]
          exact hold
    rw [hws, hbase, hfile, hline.text]
    obtain ⟨henough, hneeded⟩ := appends_iff hbaseNe hne hnul hlen hold
    exact ⟨henough, fun hroom => ⟨hneeded hroom, henough⟩⟩

end TableCache

/-! ## A file without its last line feed -/

def endedFile : Bytes := str "id(PK),name\n1,a\n"

theorem endedFile_loads : (loadTableContents endedFile none).isSome = true := by decide +kernel

def endedTable : TableCache := (loadTableContents endedFile none).get endedFile_loads

theorem ended_insert_ok : (endedTable.insertRowData false (str "2,b")).1.isSome = true ∧
    (endedTable.insertRowData false (str "2,b")).2 = .ok 2 := by decide +kernel

theorem ended_insert_appends : ∃ tc', endedTable.insertRowData false (str "2,b") =
    (some tc', .ok 2) ∧ AppendsRecord (endedTable.appendBase false) tc'.file
      (endedTable.checkedValues (parseCsvRow (cstr (str "2,b")))) := by
  obtain ⟨hsome, hok⟩ := ended_insert_ok
  have hinsert : endedTable.insertRowData false (str "2,b") =
      (some ((endedTable.insertRowData false (str "2,b")).1.get hsome), .ok 2) :=
    Prod.ext (Option.some_get hsome).symm hok
  refine ⟨_, hinsert, ((@TableCache.insert_appends_iff endedTable _ _ none _ _
    (Option.some_get endedFile_loads).symm hinsert).2 (Or.inl (by decide +kernel))).2 ⟨?_, ?_, ?_,
      ?_, ?_, ?_⟩⟩
  · intro chunk hchunk
    have hlast : (readLines RECORD_SIZE (endedTable.appendBase false)).getLast? =
        some (str "1,a\n") := by decide +kernel
    change (readLines RECORD_SIZE (endedTable.appendBase false)).getLast? = some chunk at hchunk
    rw [hlast] at hchunk
    rw [← Option.some.inj hchunk]
    exact Or.inl (by decide +kernel)
  · decide +kernel
  · decide +kernel
  · decide +kernel
  · have hvalues : (endedTable.checkedValues (parseCsvRow (cstr (str "2,b")))).map csvField =
        [str "2", str "b"] := by decide +kernel
    have hlast : (fieldEnd false (str "b")).isSome = true := by decide +kernel
    rw [hvalues]
    exact ⟨by decide +kernel, hlast⟩
  · decide +kernel

/-- The same file without its last line feed. -/
def openFile : Bytes := str "id(PK),name\n1,a"

theorem openFile_loads : (loadTableContents openFile none).isSome = true := by decide +kernel

/-- The new row runs into the last one. -/
theorem open_insert_merges : ∃ tc, loadTableContents openFile none = some tc ∧
    (tc.insertRowData false (str "2,b")).2 = .ok 2 ∧
    fileRecords openFile = some [str "1,a"] ∧
    ∀ tc', (tc.insertRowData false (str "2,b")).1 = some tc' →
      fileRecords tc'.file = some [str "1,a2,b"] ∧
      ¬ AppendsRecord openFile tc'.file (tc.checkedValues (parseCsvRow (cstr (str "2,b")))) := by
  have hold : fileRecords openFile = some [str "1,a"] := by decide +kernel
  refine ⟨(loadTableContents openFile none).get openFile_loads,
    (Option.some_get openFile_loads).symm, by decide +kernel, hold, fun tc' htc' => ?_⟩
  have hnew : ((((loadTableContents openFile none).get openFile_loads).insertRowData false
      (str "2,b")).1.bind fun tc => fileRecords tc.file) = some [str "1,a2,b"] := by
    decide +kernel
  rw [htc', Option.bind_some] at hnew
  refine ⟨hnew, ?_⟩
  rintro ⟨old, row, hold', hnew', -⟩
  rw [hold, Option.some.injEq] at hold'
  rw [hnew, ← hold'] at hnew'
  have hlen := congrArg List.length (Option.some.inj hnew')
  simp at hlen

end MiniDbms.Legacy
