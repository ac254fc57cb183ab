import MiniDbms.Cli.Split

/-!
# The reference split

The reference keeps the line feed behind a comment, the loop loses it with the comment.
Squeezed, the two texts are the same statement as long as the comment does not stand
directly between two bytes that are not white space.
-/

namespace MiniDbms.Cli

/-- A comment between `piece` and `next` joins nothing when it goes with the end of its
line. -/
def JoinsNothing (piece : Bytes) (next : Option UInt8) : Prop :=
  (skipSqlSpaces piece = [] ∨ skipSqlSpaces piece = byteOrderMark) ∨
    piece.getLast?.any isSpace = true ∨ next.all (fun b => isSpace b || b == 59) = true

instance (piece : Bytes) (next : Option UInt8) : Decidable (JoinsNothing piece next) :=
  inferInstanceAs (Decidable (_ ∨ _))

/-- The statement is too long with the line feeds of its comments if it is without. -/
def SameLength (piece kept : Bytes) : Prop :=
  MAX_SQL_LEN - 1 < (skipSqlSpaces piece).length ↔ MAX_SQL_LEN - 1 < (skipSqlSpaces kept).length

instance (piece kept : Bytes) : Decidable (SameLength piece kept) :=
  inferInstanceAs (Decidable (_ ↔ _))

/-- No comment of the text behind an open piece joins two tokens, and none makes a
statement too long.  `kept` is the open piece with the line feeds of its comments. -/
def Apart : Bool → Bool → Bytes → Bytes → Bytes → Prop
  | _, _, piece, kept, [] => SameLength piece kept
  | true, q, piece, kept, c :: cs =>
    if c = 10 then Apart false q piece (kept ++ [c]) cs else Apart true q piece kept cs
  | false, q, piece, kept, c :: cs =>
    if c = 45 && !q && cs.head? = some 45 then
      JoinsNothing piece (stripComments true q cs)[1]? ∧ Apart true q piece kept cs
    else if c = 59 && !(if c = 39 then !q else q) then
      SameLength piece kept ∧ Apart false (if c = 39 then !q else q) [] [] cs
    else Apart false (if c = 39 then !q else q) (piece ++ [c]) (kept ++ [c]) cs

instance : (comment q : Bool) → (piece kept text : Bytes) →
    Decidable (Apart comment q piece kept text)
  | comment, _, piece, kept, [] => by
    cases comment <;> exact inferInstanceAs (Decidable (SameLength piece kept))
  | true, q, piece, kept, c :: cs =>
    have (comment : Bool) (kept : Bytes) : Decidable (Apart comment q piece kept cs) :=
      instDecidableApart comment q piece kept cs
    by unfold Apart; infer_instance
  | false, q, piece, kept, c :: cs =>
    have (comment q : Bool) (piece kept : Bytes) : Decidable (Apart comment q piece kept cs) :=
      instDecidableApart comment q piece kept cs
    by unfold Apart; infer_instance

/-! ## Squeezed texts -/

/-- Whether a text that starts in quotes, or outside them, ends in quotes. -/
def quoted (q : Bool) (s : Bytes) : Bool := s.foldl (fun q c => if c = 39 then !q else q) q

/-- The text is empty or starts with white space. -/
def StartsFree (s : Bytes) : Prop := s.head?.all isSpace = true

theorem isSpace_lf : isSpace 10 = true := by decide

theorem quoted_cons (q : Bool) (c : UInt8) (s : Bytes) :
    quoted q (c :: s) = quoted (if c = 39 then !q else q) s := rfl

theorem quoted_append (q : Bool) (s more : Bytes) :
    quoted q (s ++ more) = quoted (quoted q s) more := List.foldl_append

theorem quoted_spaces {ws s : Bytes} (hws : ws.all isSpace = true) (q : Bool) :
    quoted q (ws ++ s) = quoted q s := by
  induction ws with
  | nil => rfl
  | cons d ws ih =>
      rw [List.all_cons, Bool.and_eq_true] at hws
      rw [List.cons_append, quoted_cons, if_neg (space_spec d hws.1).2.1]
      exact ih hws.2

theorem squeeze_space {gap : Bool} {c : UInt8} (h : isSpace c = true) (s : Bytes) :
    squeeze gap false (c :: s) = squeeze true false s := by
  rw [squeeze, if_pos (by rw [h]; rfl)]

theorem squeeze_free {more : Bytes} (h : StartsFree more) (gap : Bool) :
    squeeze gap false more = squeeze true false more := by
  cases more with
  | nil => rfl
  | cons d more => rw [squeeze_space h, squeeze_space h]

/-- A line feed outside quotes goes unseen next to white space. -/
theorem squeeze_lf {s more : Bytes} {gap q : Bool} (hq : quoted q s = false)
    (h : s.getLast?.any isSpace = true ∨ StartsFree more) :
    squeeze gap q (s ++ 10 :: more) = squeeze gap q (s ++ more) := by
  induction s generalizing gap q with
  | nil =>
      obtain rfl : q = false := hq
      rw [List.nil_append, List.nil_append, squeeze_space isSpace_lf]
      exact (squeeze_free (h.resolve_left (by simp)) gap).symm
  | cons c s ih =>
      rw [quoted_cons] at hq
      rw [List.cons_append, List.cons_append, squeeze, squeeze]
      cases s with
      | nil =>
          -- the only byte of the text is the one in front of the line feed
          change (if c = 39 then !q else q) = false at hq
          rw [List.nil_append, List.nil_append]
          by_cases hc : isSpace c = true
          · have hq' : q = false := by rwa [if_neg (space_spec c hc).2.1] at hq
            rw [hq', hc, squeeze_space isSpace_lf]
            rfl
          · have hmore := squeeze_free (h.resolve_left (by simpa using hc)) false
            rw [hq, squeeze_space isSpace_lf, hmore]
            simp [hc]
      | cons d s =>
          rw [List.getLast?_cons_cons] at h
          have hrest : ∀ gap, squeeze gap (if c = 39 then !q else q) (d :: s ++ 10 :: more) =
              squeeze gap (if c = 39 then !q else q) (d :: s ++ more) := fun gap => ih hq h
          by_cases hspace : (!q && isSpace c) = true
          · have hc : c ≠ 39 := (space_spec c (Bool.and_eq_true _ _ ▸ hspace).2).2.1
            rw [if_neg hc] at hrest
            rw [if_pos hspace, if_pos hspace, hrest]
          · rw [if_neg hspace, if_neg hspace, hrest]

theorem skipSqlSpaces_spaces {s : Bytes} (h : skipSqlSpaces s = []) : s.all isSpace = true := by
  rw [List.all_eq_true]
  exact List.dropWhile_eq_nil_iff.1 h

theorem skipSqlSpaces_front {s : Bytes} (h : skipSqlSpaces s ≠ []) (more : Bytes) :
    skipSqlSpaces (s ++ more) = skipSqlSpaces s ++ more := by
  obtain ⟨ws, hws, hs⟩ := skip_split s
  have hfirst : skipSqlSpaces (skipSqlSpaces s ++ more) = skipSqlSpaces s ++ more := by
    have hhead := List.head_dropWhile_not isSpace h
    change isSpace ((skipSqlSpaces s).head h) = false at hhead
    generalize skipSqlSpaces s = s' at h hhead
    cases s' with
    | nil => exact absurd rfl h
    | cons b s' =>
        rw [List.head_cons] at hhead
        unfold skipSqlSpaces
        rw [List.cons_append, List.dropWhile_cons_of_neg (by rw [hhead]; simp)]
  calc skipSqlSpaces (s ++ more)
      = skipSqlSpaces (ws ++ (skipSqlSpaces s ++ more)) := by
        rw [← List.append_assoc, ← hs]
    _ = skipSqlSpaces (skipSqlSpaces s ++ more) := skipSqlSpaces_append hws
    _ = skipSqlSpaces s ++ more := hfirst

theorem skipSqlSpaces_squeeze (more : Bytes) :
    skipSqlSpaces (squeeze true false more) = skipSqlSpaces (squeeze false false more) := by
  cases more with
  | nil => rfl
  | cons c more =>
      by_cases hc : isSpace c = true
      · rw [squeeze_space hc, squeeze_space hc]
      · have hno : ¬ (!false && isSpace c) = true := hc
        rw [squeeze, squeeze, if_neg hno, if_neg hno]
        rfl

theorem statementText_congr {s t : Bytes}
    (h : squeeze false false (skipSqlSpaces s) = squeeze false false (skipSqlSpaces t)) :
    statementText s = statementText t := by
  unfold statementText
  rw [h]

/-- Behind a byte order mark white space goes unseen as at the front. -/
theorem statementText_mark {s : Bytes} (h : skipSqlSpaces s = byteOrderMark) (more : Bytes) :
    statementText (s ++ 10 :: more) = statementText (s ++ more) := by
  have hne : skipSqlSpaces s ≠ [] := by rw [h]; exact List.cons_ne_nil _ _
  have hmark : ∀ t, squeeze false false (byteOrderMark ++ t) =
      byteOrderMark ++ squeeze false false t := fun t => rfl
  have hdrop : ∀ t, statementText (s ++ t) =
      if skipSqlSpaces (squeeze false false t) = [] then none
      else some (skipSqlSpaces (squeeze false false t)) := by
    intro t
    unfold statementText
    rw [skipSqlSpaces_front hne, h, hmark]
    rfl
  rw [hdrop, hdrop, squeeze_space isSpace_lf, skipSqlSpaces_squeeze]

theorem statementText_lf {s more : Bytes} (hq : quoted false s = false)
    (h : (skipSqlSpaces s = [] ∨ skipSqlSpaces s = byteOrderMark) ∨
      s.getLast?.any isSpace = true ∨ StartsFree more) :
    statementText (s ++ 10 :: more) = statementText (s ++ more) := by
  obtain ⟨ws, hws, hs⟩ := skip_split s
  by_cases hblank : skipSqlSpaces s = []
  · have hall : (s ++ [10]).all isSpace = true := by
      rw [List.all_append, skipSqlSpaces_spaces hblank]
      rfl
    rw [List.append_cons, statementText_append hall,
      statementText_append (skipSqlSpaces_spaces hblank)]
  · rcases h with hfront | hnear
    · exact statementText_mark (hfront.resolve_left hblank) more
    · refine statementText_congr ?_
      rw [skipSqlSpaces_front hblank, skipSqlSpaces_front hblank]
      rw [hs, quoted_spaces hws] at hq
      rw [hs, List.getLast?_append_of_ne_nil _ hblank] at hnear
      exact squeeze_lf hq hnear

/-! ## The two splits side by side -/

/-- The open piece of the loop stands for the open piece of the reference.  Behind a
comment, with `b` set, only a text that starts with white space may follow. -/
structure StandsFor (comment b q : Bool) (piece kept s : Bytes) : Prop where
  same : ∀ more, (b = true → StartsFree more) →
    statementText (piece ++ more) = statementText (kept ++ more)
  quote : quoted false piece = q
  next : comment = false → b = true →
    q = false ∧ (stripComments false q s).head?.all (fun b => isSpace b || b == 59) = true
  behind : comment = true → q = false ∧ JoinsNothing piece (stripComments true q s)[1]?

namespace StandsFor

variable {comment b q : Bool} {piece kept cs : Bytes} {c : UInt8}

theorem fresh (cs : Bytes) : StandsFor false false false [] [] cs :=
  ⟨fun _ _ => rfl, rfl, fun _ h => (by cases h), fun h => (by cases h)⟩

theorem report {s : Bytes} (h : StandsFor comment b q piece kept s)
    (hlen : SameLength piece kept) : reportPiece piece = reportPiece kept := by
  have hsame := h.same [] (fun _ => rfl)
  rw [List.append_nil, List.append_nil] at hsame
  unfold reportPiece
  rw [hsame]
  exact if_congr hlen rfl rfl

theorem dash (h : StandsFor false b q piece kept (c :: cs))
    (hdash : (c = 45 && !q && cs.head? = some 45) = true)
    (hjoin : JoinsNothing piece (stripComments true q cs)[1]?) :
    StandsFor true b q piece kept cs := by
  refine ⟨h.same, h.quote, fun hno => (by cases hno), fun _ => ⟨?_, hjoin⟩⟩
  rw [Bool.and_eq_true, Bool.and_eq_true] at hdash
  simpa using hdash.1.2

theorem inside (h : StandsFor true b q piece kept (c :: cs)) (hc : c ≠ 10) :
    StandsFor true b q piece kept cs := by
  refine ⟨h.same, h.quote, fun hno => (by cases hno), fun _ => ?_⟩
  have hbehind := h.behind rfl
  rwa [stripComments, if_neg hc] at hbehind

theorem lineFeed (h : StandsFor true b q piece kept (10 :: cs)) :
    ∃ b', StandsFor false b' q piece (kept ++ [10]) cs := by
  obtain ⟨hq, hjoin⟩ := h.behind rfl
  have hquote : quoted false piece = false := h.quote.trans hq
  have hlf : ∀ more, statementText (kept ++ [10] ++ more) = statementText (piece ++ 10 :: more) := by
    intro more
    rw [List.append_assoc]
    exact (h.same (10 :: more) (fun _ => isSpace_lf)).symm
  rw [stripComments, if_pos rfl] at hjoin
  rcases hjoin with hfront | hlast | hnext
  · refine ⟨false, fun more _ => ?_, h.quote, fun _ hb => (by cases hb), fun hc => (by cases hc)⟩
    rw [hlf, statementText_lf hquote (Or.inl hfront)]
  · refine ⟨false, fun more _ => ?_, h.quote, fun _ hb => (by cases hb), fun hc => (by cases hc)⟩
    rw [hlf, statementText_lf hquote (Or.inr (Or.inl hlast))]
  · refine ⟨true, fun more hmore => ?_, h.quote, fun _ _ => ⟨hq, ?_⟩, fun hc => (by cases hc)⟩
    · rw [hlf, statementText_lf hquote (Or.inr (Or.inr (hmore rfl)))]
    · rwa [List.getElem?_cons_succ, ← List.head?_eq_getElem?] at hnext

theorem char (h : StandsFor false b q piece kept (c :: cs))
    (hno : ¬ (c = 45 && !q && cs.head? = some 45) = true)
    (hsemi : ¬ (c = 59 && !(if c = 39 then !q else q)) = true) :
    StandsFor false false (if c = 39 then !q else q) (piece ++ [c]) (kept ++ [c]) cs := by
  refine ⟨fun more _ => ?_, ?_, fun _ hb => (by cases hb), fun hc => (by cases hc)⟩
  · rw [List.append_assoc, List.append_assoc]
    refine h.same (c :: more) (fun hb => ?_)
    obtain ⟨hq, hnext⟩ := h.next rfl hb
    rw [stripComments, if_neg hno, List.head?_cons, Option.all_some, Bool.or_eq_true] at hnext
    refine hnext.resolve_right fun hc => hsemi ?_
    rw [eq_of_beq hc, hq]
    rfl
  · rw [quoted_append, h.quote]
    rfl

end StandsFor

/-- The loop's split of a text and the reference are the same statements. -/
theorem piecesFrom_kept {s : Bytes} : ∀ {comment b q : Bool} {piece kept : Bytes},
    StandsFor comment b q piece kept s → Apart comment q piece kept s →
      (piecesFrom comment q piece s).filterMap reportPiece =
        (piecesOf q kept (stripComments comment q s)).filterMap reportPiece := by
  induction s with
  | nil =>
      intro comment b q piece kept h hapart
      have hlen : SameLength piece kept := by cases comment <;> exact hapart
      have hstrip : stripComments comment q [] = [] := by cases comment <;> rfl
      rw [piecesFrom_nil, hstrip, piecesOf_nil, List.filterMap_cons, List.filterMap_cons,
        h.report hlen]
  | cons c cs ih =>
      intro comment b q piece kept h hapart
      cases comment with
      | true =>
          rw [Apart] at hapart
          rw [piecesFrom_comment, stripComments]
          by_cases hc : c = 10
          · subst hc
            rw [if_pos rfl] at hapart ⊢
            obtain ⟨b', hline⟩ := h.lineFeed
            have hq : q = false := (h.behind rfl).1
            rw [piecesOf_char (by simp [hq])]
            exact ih hline hapart
          · rw [if_neg hc] at hapart ⊢
            rw [bne_iff_ne.2 hc]
            exact ih (h.inside hc) hapart
      | false =>
          rw [Apart] at hapart
          rw [stripComments]
          by_cases hdash : (c = 45 && !q && cs.head? = some 45) = true
          · rw [if_pos hdash] at hapart ⊢
            rw [piecesFrom_dash hdash]
            exact ih (h.dash hdash hapart.1) hapart.2
          · rw [if_neg hdash] at hapart ⊢
            by_cases hsemi : (c = 59 && !(if c = 39 then !q else q)) = true
            · rw [if_pos hsemi] at hapart
              have hq : (if c = 39 then !q else q) = false := by
                rw [Bool.and_eq_true] at hsemi
                simpa using hsemi.2
              have hrest := ih (StandsFor.fresh cs) (hq ▸ hapart.2)
              rw [piecesFrom_semicolon hdash hsemi, piecesOf_semicolon hsemi, hq,
                List.filterMap_cons, List.filterMap_cons, h.report hapart.1, hrest]
            · rw [if_neg hsemi] at hapart
              rw [piecesFrom_char hdash hsemi, piecesOf_char hsemi]
              exact ih (h.char hdash hsemi) hapart

/-! ## Whole files -/

/-- A comment that touches a word joins it to the next line. -/
example : executed (str "SELECT a--all\nFROM t;") = [.statement (str "SELECT aFROM t")] := by
  decide +kernel

end MiniDbms.Cli
