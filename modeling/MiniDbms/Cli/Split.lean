import MiniDbms.Cli.Main
import MiniDbms.Lib.Lists

/-!
# The read loop and the reference split

The reference is followed from the middle of a file on, with the piece that is open there.
The loop keeps up with it line by line, as long as no comment is cut by the end of the
line buffer, none stands in a line that `execute_sql_line_fast` takes, and white space in
front of a statement does not fill the statement buffer.
-/

namespace MiniDbms.Cli

/-! ## A split from the middle of a file -/

/-- The text without its comments as the loop has it: a comment goes with the end of its
line. -/
def joinComments : Bool → Bool → Bytes → Bytes
  | _, _, [] => []
  | true, q, c :: cs => joinComments (c != 10) q cs
  | false, q, c :: cs =>
    if c = 45 && !q && cs.head? = some 45 then joinComments true q cs
    else c :: joinComments false (if c = 39 then !q else q) cs

/-- The pieces of a text behind the open piece. -/
def piecesOf (q : Bool) (piece text : Bytes) : List Bytes :=
  match splitStatements q text with
  | [] => [piece]
  | first :: pieces => (piece ++ first) :: pieces

def piecesFrom (comment q : Bool) (piece s : Bytes) : List Bytes :=
  piecesOf q piece (joinComments comment q s)

variable {q : Bool} {piece cs : Bytes} {c : UInt8}

theorem splitStatements_ne_nil (q : Bool) (s : Bytes) : splitStatements q s ≠ [] := by
  cases s with
  | nil => simp [splitStatements]
  | cons c s =>
      rw [splitStatements]
      generalize (if c = 39 then !q else q) = q'
      cases (c = 59 && !q') with
      | true => simp
      | false => cases splitStatements q' s <;> simp

theorem piecesOf_start (q : Bool) (s : Bytes) : piecesOf q [] s = splitStatements q s := by
  unfold piecesOf
  cases hs : splitStatements q s with
  | nil => exact absurd hs (splitStatements_ne_nil q s)
  | cons first pieces => rfl

theorem piecesOf_nil : piecesOf q piece [] = [piece] := by
  unfold piecesOf
  simp [splitStatements]

theorem piecesOf_semicolon (h : (c = 59 && !(if c = 39 then !q else q)) = true) :
    piecesOf q piece (c :: cs) = piece :: piecesOf (if c = 39 then !q else q) [] cs := by
  rw [piecesOf_start]
  unfold piecesOf
  rw [splitStatements, if_pos h]
  dsimp only
  rw [List.append_nil]

theorem piecesOf_char (h : ¬ (c = 59 && !(if c = 39 then !q else q)) = true) :
    piecesOf q piece (c :: cs) = piecesOf (if c = 39 then !q else q) (piece ++ [c]) cs := by
  unfold piecesOf
  rw [splitStatements]
  rw [if_neg h]
  cases splitStatements (if c = 39 then !q else q) cs with
  | nil => rfl
  | cons first pieces =>
      dsimp only
      rw [List.append_assoc]
      rfl

theorem piecesFrom_nil (comment : Bool) : piecesFrom comment q piece [] = [piece] := by
  unfold piecesFrom
  cases comment <;> exact piecesOf_nil

theorem piecesFrom_comment : piecesFrom true q piece (c :: cs) =
    piecesFrom (c != 10) q piece cs := rfl

theorem piecesFrom_dash (h : (c = 45 && !q && cs.head? = some 45) = true) :
    piecesFrom false q piece (c :: cs) = piecesFrom true q piece cs := by
  unfold piecesFrom
  rw [joinComments, if_pos h]

theorem piecesFrom_semicolon (hno : ¬ (c = 45 && !q && cs.head? = some 45) = true)
    (h : (c = 59 && !(if c = 39 then !q else q)) = true) :
    piecesFrom false q piece (c :: cs) =
      piece :: piecesFrom false (if c = 39 then !q else q) [] cs := by
  unfold piecesFrom
  rw [joinComments, if_neg hno]
  exact piecesOf_semicolon h

theorem piecesFrom_char (hno : ¬ (c = 45 && !q && cs.head? = some 45) = true)
    (h : ¬ (c = 59 && !(if c = 39 then !q else q)) = true) :
    piecesFrom false q piece (c :: cs) =
      piecesFrom false (if c = 39 then !q else q) (piece ++ [c]) cs := by
  unfold piecesFrom
  rw [joinComments, if_neg hno]
  exact piecesOf_char h

theorem piecesFrom_skip {l rest : Bytes} (hl : 10 ∉ l) :
    piecesFrom true q piece (l ++ 10 :: rest) = piecesFrom false q piece rest := by
  induction l with
  | nil => rfl
  | cons d l ih =>
      rw [List.mem_cons, not_or] at hl
      rw [List.cons_append, piecesFrom_comment, bne_iff_ne.2 (Ne.symm hl.1)]
      exact ih hl.2

theorem piecesFrom_skip_end {l : Bytes} (hl : 10 ∉ l) :
    piecesFrom true q piece l = [piece] := by
  induction l with
  | nil => exact piecesFrom_nil true
  | cons d l ih =>
      rw [List.mem_cons, not_or] at hl
      rw [piecesFrom_comment, bne_iff_ne.2 (Ne.symm hl.1)]
      exact ih hl.2

theorem space_spec (c : UInt8) (h : isSpace c = true) : c ≠ 45 ∧ c ≠ 39 ∧ c ≠ 59 := by
  revert c
  exact forall_byte (by decide +kernel)

theorem piecesFrom_spaces {ws rest : Bytes} (hws : ws.all isSpace = true) :
    piecesFrom false q piece (ws ++ rest) = piecesFrom false q (piece ++ ws) rest := by
  induction ws generalizing piece with
  | nil => rw [List.nil_append, List.append_nil]
  | cons d ws ih =>
      rw [List.all_cons, Bool.and_eq_true] at hws
      obtain ⟨hdash, hquote, hsemi⟩ := space_spec d hws.1
      rw [List.cons_append, piecesFrom_char (by simp [hdash]) (by simp [hsemi]), if_neg hquote,
        ih hws.2, List.append_assoc]
      rfl

/-! ## What the loop has to be spared -/

/-- The line ends with its newline, or the file ends with it. -/
def Ends (line rest : Bytes) : Prop := rest = [] ∨ line.getLast? = some 10

instance (line rest : Bytes) : Decidable (Ends line rest) := inferInstanceAs (Decidable (_ ∨ _))

/-- A comment outside quotes. -/
def hasComment : Bool → Bytes → Bool
  | _, [] => false
  | q, c :: cs =>
    (c = 45 && !q && cs.head? = some 45) || hasComment (if c = 39 then !q else q) cs

def SqlEvent.hasComment : SqlEvent → Bool
  | .statement text => Cli.hasComment false text
  | .tooLong => false

/-- A line that the character loop handles, `rest` being the file behind it: a comment ends
with the line, the line does not end between two dashes, and what fills the buffer does not
start with white space. -/
def LoopFine (rest : Bytes) : ReadState → Bytes → Prop
  | _, [] => True
  | st, c :: cs =>
    if c = 45 && !st.q && cs.head? = some 45 then Ends cs rest
    else
      (cs = [] → c = 45 → st.q = false → rest.head? ≠ some 45) ∧
      if c = 59 && !(if c = 39 then !st.q else st.q) then
        LoopFine rest { buf := [], q := if c = 39 then !st.q else st.q, tooLong := false } cs
      else if st.buf.length < MAX_SQL_LEN - 1 then
        LoopFine rest { st with buf := st.buf ++ [c], q := if c = 39 then !st.q else st.q } cs
      else
        (∀ b ∈ st.buf.head?, isSpace b = false) ∧
          LoopFine rest { st with q := if c = 39 then !st.q else st.q, tooLong := true } cs

instance (rest : Bytes) : (st : ReadState) → (line : Bytes) → Decidable (LoopFine rest st line)
  | _, [] => isTrue trivial
  | st, c :: cs =>
    have (st' : ReadState) : Decidable (LoopFine rest st' cs) := instDecidableLoopFine rest st' cs
    by unfold LoopFine; infer_instance

/-- A line that `execute_sql_line_fast` takes: a comment line ends in it, and a statement
holds no comment. -/
def FastFine (line rest : Bytes) (events : List SqlEvent) : Prop :=
  ((skipSqlSpaces line).take 2 = [45, 45] → Ends line rest) ∧
    ∀ e ∈ events, e.hasComment = false

instance (line rest : Bytes) (events : List SqlEvent) : Decidable (FastFine line rest events) :=
  inferInstanceAs (Decidable (_ ∧ _))

def LineFine (st : ReadState) (line rest : Bytes) : Prop :=
  (∀ b ∈ line, b ≠ 0) ∧
    match if st.buf = [] then executeSqlLineFast line else none with
    | some events => FastFine line rest events
    | none => LoopFine rest st line

instance (st : ReadState) (line rest : Bytes) : Decidable (LineFine st line rest) := by
  unfold LineFine
  cases (if st.buf = [] then executeSqlLineFast line else none) with
  | some events =>
      exact @instDecidableAnd _ (FastFine line rest events) (List.decidableBAll _ line) inferInstance
  | none =>
      exact @instDecidableAnd _ (LoopFine rest st line) (List.decidableBAll _ line) inferInstance

/-- Every line of the file is read so. -/
def FileFine : Nat → ReadState → Bytes → Prop
  | 0, _, _ => True
  | fuel + 1, st, file =>
    file = [] ∨
      (LineFine st (fgets file) (file.drop (fgets file).length) ∧
        FileFine fuel (readLine st (cstr (fgets file))).1 (file.drop (fgets file).length))

instance : (fuel : Nat) → (st : ReadState) → (file : Bytes) → Decidable (FileFine fuel st file)
  | 0, _, _ => isTrue trivial
  | fuel + 1, _, _ =>
    have (st' : ReadState) (file' : Bytes) : Decidable (FileFine fuel st' file') :=
      instDecidableFileFine fuel st' file'
    inferInstanceAs (Decidable (_ ∨ (_ ∧ _)))

/-! ## The character loop -/

/-- The buffer holds the open piece without some white space in front, or the first part
of one that is too long. -/
structure Holds (st : ReadState) (piece : Bytes) : Prop where
  idle : st.buf = [] → st.q = false ∧ st.tooLong = false
  short : st.buf.length ≤ MAX_SQL_LEN - 1
  fit : st.tooLong = false → ∃ ws : Bytes, ws.all isSpace = true ∧ piece = ws ++ st.buf
  long : st.tooLong = true → ∃ ws more : Bytes, ws.all isSpace = true ∧
    piece = ws ++ (st.buf ++ more) ∧ more ≠ [] ∧ st.buf.length = MAX_SQL_LEN - 1 ∧
    ∀ b ∈ st.buf.head?, isSpace b = false

theorem skipSqlSpaces_append {ws s : Bytes} (hws : ws.all isSpace = true) :
    skipSqlSpaces (ws ++ s) = skipSqlSpaces s := by
  induction ws with
  | nil => rfl
  | cons d ws ih =>
      rw [List.all_cons, Bool.and_eq_true] at hws
      unfold skipSqlSpaces
      rw [List.cons_append, List.dropWhile_cons_of_pos hws.1]
      exact ih hws.2

theorem statementText_append {ws s : Bytes} (hws : ws.all isSpace = true) :
    statementText (ws ++ s) = statementText s := by
  unfold statementText
  rw [skipSqlSpaces_append hws]

theorem length_skip_le (s : Bytes) : (skipSqlSpaces s).length ≤ s.length :=
  (List.dropWhile_sublist _).length_le

theorem reportPiece_fit {ws s : Bytes} (hws : ws.all isSpace = true)
    (hlen : s.length ≤ MAX_SQL_LEN - 1) :
    reportPiece (ws ++ s) = (SqlEvent.statement s).visible := by
  unfold reportPiece SqlEvent.visible
  rw [skipSqlSpaces_append hws, statementText_append hws,
    if_neg (Nat.not_lt.2 ((length_skip_le s).trans hlen))]

theorem Holds.finish {st : ReadState} (h : Holds st piece) :
    reportPiece piece = st.finish.visible := by
  unfold ReadState.finish
  cases hlong : st.tooLong with
  | false =>
      obtain ⟨ws, hws, rfl⟩ := h.fit hlong
      exact reportPiece_fit hws h.short
  | true =>
      obtain ⟨ws, more, hws, rfl, hmore, hfull, hhead⟩ := h.long hlong
      have hskip : skipSqlSpaces (st.buf ++ more) = st.buf ++ more := by
        cases hbuf : st.buf with
        | nil =>
            rw [hbuf] at hfull
            exact absurd hfull (by decide)
        | cons b buf =>
            rw [hbuf] at hhead
            unfold skipSqlSpaces
            rw [List.cons_append, List.dropWhile_cons_of_neg (by rw [hhead b rfl]; simp)]
      have hlen : MAX_SQL_LEN - 1 < (st.buf ++ more).length := by
        rw [List.length_append, hfull]
        have := List.length_pos_iff.2 hmore
        omega
      unfold reportPiece
      rw [skipSqlSpaces_append hws, hskip, if_pos hlen]
      rfl

theorem Holds.append {st : ReadState} (h : Holds st piece) (c : UInt8)
    (hroom : st.buf.length < MAX_SQL_LEN - 1) (q : Bool) :
    Holds { st with buf := st.buf ++ [c], q := q } (piece ++ [c]) := by
  refine ⟨by simp, ?_, ?_, ?_⟩
  · dsimp only
    rw [List.length_append, List.length_singleton]
    omega
  · intro hfit
    obtain ⟨ws, hws, rfl⟩ := h.fit hfit
    exact ⟨ws, hws, by simp⟩
  · intro hlong
    obtain ⟨_, _, _, _, _, hfull, _⟩ := h.long hlong
    omega

theorem Holds.overrun {st : ReadState} (h : Holds st piece) (c : UInt8)
    (hfull : ¬ st.buf.length < MAX_SQL_LEN - 1) (hhead : ∀ b ∈ st.buf.head?, isSpace b = false)
    (q : Bool) : Holds { st with q := q, tooLong := true } (piece ++ [c]) := by
  have hlen : st.buf.length = MAX_SQL_LEN - 1 := by
    have := h.short
    omega
  refine ⟨fun hnil => ?_, h.short, by simp, fun _ => ?_⟩
  · dsimp only at hnil
    rw [hnil] at hlen
    exact absurd hlen (by decide)
  · cases hlong : st.tooLong with
    | false =>
        obtain ⟨ws, hws, rfl⟩ := h.fit hlong
        exact ⟨ws, [c], hws, by simp, by simp, hlen, hhead⟩
    | true =>
        obtain ⟨ws, more, hws, rfl, -, -, -⟩ := h.long hlong
        exact ⟨ws, more ++ [c], hws, by simp, by simp, hlen, hhead⟩

/-- The reference behind a line, told by the events of the line. -/
def KeepsUp (rest : Bytes) (q : Bool) (piece line : Bytes) (r : ReadState × List SqlEvent) : Prop :=
  ∃ piece', Holds r.1 piece' ∧
    (piecesFrom false q piece (line ++ rest)).filterMap reportPiece =
      r.2.filterMap SqlEvent.visible ++
        (piecesFrom false r.1.q piece' rest).filterMap reportPiece

theorem comment_ends {rest : Bytes} (hline : 10 ∉ cs.dropLast) (hends : Ends cs rest) :
    piecesFrom true q piece (cs ++ rest) = piecesFrom false q piece rest := by
  rcases List.eq_nil_or_concat cs with rfl | ⟨l, d, rfl⟩
  · rcases hends with rfl | hlast
    · rw [List.append_nil, piecesFrom_nil, piecesFrom_nil]
    · cases hlast
  · rw [List.concat_eq_append, List.dropLast_concat] at hline
    by_cases hd : d = 10
    · rw [hd, List.concat_eq_append, List.append_assoc]
      exact piecesFrom_skip hline
    · have hrest : rest = [] := by
        refine hends.resolve_right fun hlast => hd ?_
        rw [List.concat_eq_append, List.getLast?_concat] at hlast
        exact Option.some.inj hlast
      rw [hrest, List.append_nil, piecesFrom_nil]
      refine piecesFrom_skip_end ?_
      rw [List.concat_eq_append, List.mem_append, List.mem_singleton, not_or]
      exact ⟨hline, fun h => hd h.symm⟩

theorem charLoop_keepsUp {rest : Bytes} {line : Bytes} (hline : 10 ∉ line.dropLast) :
    ∀ {st : ReadState} {piece : Bytes}, Holds st piece → LoopFine rest st line →
      KeepsUp rest st.q piece line (charLoop st line) := by
  induction line with
  | nil =>
      intro st piece h _
      exact ⟨piece, h, rfl⟩
  | cons c cs ih =>
      intro st piece h hfine
      have hcs : 10 ∉ cs.dropLast := by
        intro hmem
        cases cs with
        | nil => cases hmem
        | cons d cs => exact hline (List.mem_cons_of_mem c hmem)
      rw [charLoop]
      rw [LoopFine] at hfine
      by_cases hdash : (c = 45 && !st.q && cs.head? = some 45) = true
      · -- the rest of the line is a comment
        rw [if_pos hdash] at hfine ⊢
        refine ⟨piece, h, ?_⟩
        have hdash' : (c = 45 && !st.q && (cs ++ rest).head? = some 45) = true := by
          cases cs with
          | nil => simp at hdash
          | cons d cs => exact hdash
        rw [List.cons_append, piecesFrom_dash hdash', comment_ends hcs hfine]
        rfl
      · rw [if_neg hdash] at hfine ⊢
        obtain ⟨hcut, hfine⟩ := hfine
        have hdash' : ¬ (c = 45 && !st.q && (cs ++ rest).head? = some 45) = true := by
          cases cs with
          | nil =>
              intro hd
              simp only [Bool.and_eq_true, decide_eq_true_eq, Bool.not_eq_true',
                List.nil_append] at hd
              exact hcut rfl hd.1.1 hd.1.2 hd.2
          | cons d cs => exact hdash
        dsimp only
        generalize hq : (if c = 39 then !st.q else st.q) = q at hfine ⊢
        by_cases hsemi : (c = 59 && !q) = true
        · -- the statement ends here
          rw [if_pos hsemi] at hfine ⊢
          have hfalse : q = false := by
            rw [Bool.and_eq_true] at hsemi
            simpa using hsemi.2
          have hstart : Holds { buf := [], q := q, tooLong := false } [] :=
            ⟨fun _ => ⟨hfalse, rfl⟩, Nat.zero_le _, fun _ => ⟨[], rfl, rfl⟩, by simp⟩
          obtain ⟨piece', hholds, hpieces⟩ := ih hcs hstart hfine
          refine ⟨piece', hholds, ?_⟩
          rw [List.cons_append, piecesFrom_semicolon hdash' (by rw [hq]; exact hsemi), hq]
          have hfin := h.finish
          dsimp only at hpieces ⊢
          cases hvis : st.finish.visible with
          | none =>
              rw [hvis] at hfin
              rw [List.filterMap_cons_none hfin, List.filterMap_cons_none hvis]
              exact hpieces
          | some e =>
              rw [hvis] at hfin
              rw [List.filterMap_cons_some hfin, List.filterMap_cons_some hvis, hpieces]
              rfl
        · rw [if_neg hsemi] at hfine ⊢
          have hchar := @piecesFrom_char st.q piece (cs ++ rest) c hdash'
            (by rw [hq]; exact hsemi)
          rw [hq] at hchar
          by_cases hroom : st.buf.length < MAX_SQL_LEN - 1
          · rw [if_pos hroom] at hfine ⊢
            obtain ⟨piece', hholds, hpieces⟩ := ih hcs (h.append c hroom q) hfine
            exact ⟨piece', hholds, by rw [List.cons_append, hchar]; exact hpieces⟩
          · rw [if_neg hroom] at hfine ⊢
            obtain ⟨piece', hholds, hpieces⟩ := ih hcs (h.overrun c hroom hfine.1 q) hfine.2
            exact ⟨piece', hholds, by rw [List.cons_append, hchar]; exact hpieces⟩

/-! ## Lines with one statement -/

theorem semicolons_single {s : Bytes} : ∀ {q : Bool} {n i : Nat}, semicolons q n s = [i] →
    ∃ text after, s = text ++ 59 :: after ∧ i = n + text.length ∧
      (hasComment q text = false → ∀ piece rest,
        piecesFrom false q piece (s ++ rest) =
          (piece ++ text) :: piecesFrom false false [] (after ++ rest)) := by
  induction s with
  | nil => exact fun h => nomatch h
  | cons c s ih =>
      intro q n i h
      rw [semicolons] at h
      by_cases hsemi : (c = 59 && !(if c = 39 then !q else q)) = true
      · rw [if_pos hsemi] at h
        obtain ⟨rfl, -⟩ := List.cons.inj h
        have hc : c = 59 := by
          rw [Bool.and_eq_true, decide_eq_true_eq] at hsemi
          exact hsemi.1
        have hq : (if c = 39 then !q else q) = false := by
          rw [Bool.and_eq_true] at hsemi
          simpa using hsemi.2
        refine ⟨[], s, by rw [hc]; rfl, rfl, fun _ piece rest => ?_⟩
        rw [List.cons_append, piecesFrom_semicolon (by simp [hc]) hsemi, hq, List.append_nil]
      · rw [if_neg hsemi] at h
        obtain ⟨text, after, rfl, rfl, hpieces⟩ := ih h
        refine ⟨c :: text, after, rfl, by rw [List.length_cons]; omega, fun hno piece rest => ?_⟩
        rw [hasComment, Bool.or_eq_false_iff] at hno
        have hdash : ¬ (c = 45 && !q && (text ++ 59 :: after ++ rest).head? = some 45) = true := by
          cases text with
          | nil => simp
          | cons d text => exact Bool.eq_false_iff.1 hno.1
        rw [List.cons_append, piecesFrom_char hdash hsemi, hpieces hno.2, List.append_assoc]
        rfl

theorem skip_split (line : Bytes) : ∃ ws, ws.all isSpace = true ∧ line = ws ++ skipSqlSpaces line :=
  ⟨line.takeWhile isSpace, List.all_takeWhile, List.takeWhile_append_dropWhile.symm⟩

theorem fast_keepsUp {st : ReadState} {line rest piece : Bytes} {events : List SqlEvent}
    (hidle : st.buf = []) (h : Holds st piece) (hline : 10 ∉ line.dropLast)
    (hlen : line.length ≤ MAX_SQL_LEN - 1) (hfast : executeSqlLineFast line = some events)
    (hfine : FastFine line rest events) : KeepsUp rest st.q piece line (st, events) := by
  obtain ⟨hq, hlong⟩ := h.idle hidle
  obtain ⟨ws₀, hws₀, rfl⟩ := h.fit hlong
  rw [hidle, List.append_nil] at h ⊢
  obtain ⟨ws, hws, hsplit⟩ := skip_split line
  have hspaces : ∀ {piece : Bytes}, piece.all isSpace = true → Holds st piece := by
    intro piece hp
    refine ⟨h.idle, h.short, fun _ => ⟨piece, hp, by rw [hidle, List.append_nil]⟩, ?_⟩
    intro ht
    rw [hlong] at ht
    cases ht
  have hboth : (ws₀ ++ ws).all isSpace = true := by rw [List.all_append, hws₀, hws]; rfl
  unfold KeepsUp
  dsimp only
  rw [hq]
  unfold executeSqlLineFast at hfast
  dsimp only at hfast
  split at hfast
  · rename_i hempty
    cases hfast
    rcases hempty with hblank | hdash
    · -- a blank line
      rw [hblank, List.append_nil] at hsplit
      refine ⟨ws₀ ++ ws, hspaces hboth, ?_⟩
      rw [hsplit, piecesFrom_spaces hws]
      rfl
    · -- a comment line
      refine ⟨ws₀ ++ ws, hspaces hboth, ?_⟩
      have hends := hfine.1 hdash
      generalize skipSqlSpaces line = s at hsplit hdash
      match s, hdash with
      | a :: b :: s, hdash =>
        simp only [List.take_succ_cons, List.take_zero, List.cons.injEq, and_true] at hdash
        obtain ⟨rfl, rfl⟩ := hdash
        rw [hsplit] at hends hline ⊢
        have hends' : Ends (45 :: s) rest := by
          refine hends.imp_right fun hlast => ?_
          rw [List.getLast?_append_of_ne_nil _ (by simp), List.getLast?_cons_cons] at hlast
          exact hlast
        have hline' : 10 ∉ (45 :: s).dropLast := by
          intro hmem
          apply hline
          rw [List.dropLast_append_of_ne_nil (by simp)]
          exact List.mem_append_right _ (List.mem_cons_of_mem 45 hmem)
        rw [List.append_assoc, piecesFrom_spaces hws, List.cons_append,
          piecesFrom_dash (by simp), comment_ends hline' hends']
        rfl
  · split at hfast
    · rename_i i hone
      split at hfast
      · rename_i hafter
        cases hfast
        obtain ⟨text, after, hs, rfl, hpieces⟩ := semicolons_single hone
        rw [Nat.zero_add, hs, List.drop_append] at hafter
        simp only [Nat.add_sub_cancel_left, List.drop_succ_cons, List.drop_zero,
          List.drop_of_length_le (Nat.le_succ text.length), List.nil_append] at hafter
        have htext : (skipSqlSpaces line).take (0 + text.length) = text := by
          rw [Nat.zero_add, hs, List.take_left' rfl]
        rw [htext] at hfine ⊢
        have hno : hasComment false text = false := hfine.2 _ List.mem_cons_self
        refine ⟨after, hspaces hafter, ?_⟩
        have htl : text.length ≤ MAX_SQL_LEN - 1 := by
          have hl := congrArg List.length hsplit
          rw [hs, List.length_append, List.length_append, List.length_cons] at hl
          omega
        have hreport := @reportPiece_fit (ws₀ ++ ws) text hboth htl
        have hline : piecesFrom false false ws₀ (line ++ rest) =
            (ws₀ ++ ws ++ text) :: piecesFrom false false after rest := by
          rw [hsplit, List.append_assoc, piecesFrom_spaces hws, hpieces hno,
            piecesFrom_spaces hafter]
          rfl
        rw [hline]
        cases hvis : (SqlEvent.statement text).visible with
        | none =>
            rw [hvis] at hreport
            rw [List.filterMap_cons_none hreport, List.filterMap_cons_none hvis]
            rfl
        | some e =>
            rw [hvis] at hreport
            rw [List.filterMap_cons_some hreport, List.filterMap_cons_some hvis]
            rfl
      · cases hfast
    · cases hfast

/-! ## Whole files -/

theorem fgets_spec (file : Bytes) : fgets file <+: file ∧ 10 ∉ (fgets file).dropLast ∧
    (fgets file).length ≤ MAX_SQL_LEN - 1 ∧ (file ≠ [] → fgets file ≠ []) := by
  have hlen : (file.take (MAX_SQL_LEN - 1)).length ≤ MAX_SQL_LEN - 1 := List.length_take_le _ _
  have hfirst : file.take (MAX_SQL_LEN - 1) <+: file := List.take_prefix _ _
  have hne : file ≠ [] → file.take (MAX_SQL_LEN - 1) ≠ [] := by
    intro hfile hnil
    rw [List.take_eq_nil_iff] at hnil
    exact hnil.elim (by decide) hfile
  unfold fgets
  generalize file.take (MAX_SQL_LEN - 1) = head at hlen hfirst hne
  have hsplit : head = head.takeWhile (· != 10) ++ head.dropWhile (· != 10) :=
    List.takeWhile_append_dropWhile.symm
  have hno : 10 ∉ head.takeWhile (· != 10) := by
    intro hmem
    exact absurd (List.mem_takeWhile_imp hmem) (by decide)
  dsimp only
  cases hdrop : head.dropWhile (· != 10) with
  | nil =>
      rw [hdrop, List.append_nil] at hsplit
      rw [← hsplit] at hno
      exact ⟨hfirst, fun hmem => hno (List.mem_of_mem_dropLast hmem), hlen, hne⟩
  | cons d more =>
      have hd : d = 10 := by
        have hhead := List.head_dropWhile_not (· != 10) (l := head) (by rw [hdrop]; simp)
        simpa [hdrop] using hhead
      dsimp only
      rw [hdrop, hd] at hsplit
      generalize head.takeWhile (· != 10) = l at hsplit hno
      have hfront : l ++ [10] <+: head := ⟨more, by rw [hsplit]; simp⟩
      refine ⟨hfront.trans hfirst, ?_, hfront.length_le.trans hlen, by simp⟩
      rw [List.dropLast_concat]
      exact hno

theorem readLine_keepsUp {st : ReadState} {file piece : Bytes} (h : Holds st piece)
    (hfine : LineFine st (fgets file) (file.drop (fgets file).length)) :
    KeepsUp (file.drop (fgets file).length) st.q piece (fgets file)
      (readLine st (cstr (fgets file))) := by
  obtain ⟨-, hline, hlen, -⟩ := fgets_spec file
  obtain ⟨hnul, hfine⟩ := hfine
  rw [cstr_eq_self hnul]
  unfold readLine
  cases hfast : (if st.buf = [] then executeSqlLineFast (fgets file) else none) with
  | none =>
      rw [hfast] at hfine
      exact charLoop_keepsUp hline h hfine
  | some events =>
      rw [hfast] at hfine
      split at hfast
      · rename_i hidle
        exact fast_keepsUp hidle h hline hlen hfast hfine
      · cases hfast

theorem readLoop_keepsUp {fuel : Nat} : ∀ {st : ReadState} {file piece : Bytes},
    file.length ≤ fuel → Holds st piece → FileFine fuel st file →
      (readLoop fuel st file).filterMap SqlEvent.visible =
        (piecesFrom false st.q piece file).filterMap reportPiece := by
  have hend : ∀ {st : ReadState} {piece : Bytes}, Holds st piece →
      (if st.buf = [] then [] else [st.finish]).filterMap SqlEvent.visible =
        (piecesFrom false st.q piece []).filterMap reportPiece := by
    intro st piece h
    rw [piecesFrom_nil]
    have hfin := h.finish
    by_cases hbuf : st.buf = []
    · have hblank : st.finish.visible = none := by
        unfold ReadState.finish
        rw [(h.idle hbuf).2, hbuf]
        rfl
      rw [if_pos hbuf, List.filterMap_cons_none (hfin.trans hblank)]
      rfl
    · rw [if_neg hbuf]
      simp only [List.filterMap_cons, List.filterMap_nil, hfin]
  induction fuel with
  | zero =>
      intro st file piece hfuel h _
      obtain rfl : file = [] := List.eq_nil_of_length_eq_zero (Nat.le_zero.1 hfuel)
      exact hend h
  | succ fuel ih =>
      intro st file piece hfuel h hfine
      rw [readLoop]
      by_cases hfile : file = []
      · rw [if_pos hfile, hfile]
        exact hend h
      · obtain ⟨hfirst, -, -, hne⟩ := fgets_spec file
        obtain ⟨hline, hrest⟩ := hfine.resolve_left hfile
        obtain ⟨piece', hholds, hpieces⟩ := readLine_keepsUp h hline
        have hpos := List.length_pos_iff.2 (hne hfile)
        have hshort : (file.drop (fgets file).length).length ≤ fuel := by
          rw [List.length_drop]
          omega
        rw [if_neg hfile, List.filterMap_append, ih hshort hholds hrest, ← hpieces,
          List.prefix_iff_eq_append.1 hfirst]

/-- In every run whose lines are all read so, `main` executes the file as it stands with
every comment taken away together with the end of its line. -/
theorem executed_joined {file : Bytes} (h : FileFine file.length {} file) :
    executed file = (piecesFrom false false [] file).filterMap reportPiece := by
  have hstart : Holds {} [] :=
    ⟨fun _ => ⟨rfl, rfl⟩, Nat.zero_le _, fun _ => ⟨[], rfl, rfl⟩, by simp⟩
  exact readLoop_keepsUp le_rfl hstart h

end MiniDbms.Cli
