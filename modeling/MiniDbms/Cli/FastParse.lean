import MiniDbms.Cli.FastPath
import MiniDbms.Sql.Faithful

/-!
# The fast paths beside the parser

On a text that both a fast path and the parser accept, they read the same tokens, so the
text is a rendering of the statement that the fast path executes.
-/

namespace MiniDbms.Cli

open Sql

variable {p p' : Parser} {text t q : Bytes} {ls : List Lexeme}

/-- The tokens in front of the current one render `ls`, and `t` is the text from it on. -/
def Reaches (text : Bytes) (ls : List Lexeme) (p : Parser) (t : Bytes) : Prop :=
  ∃ b, Before p b t ∧ Grows false text ls b t

theorem Reaches.start (h : Before p false t) : Reaches t [] p t :=
  ⟨false, h, fun _ _ hrest => hrest⟩

/-! ## Keywords -/

theorem skipSqlSpaces_eq {ws rest : Bytes} (hws : ws.all isSpace = true)
    (hrest : ∀ c ∈ rest.head?, isSpace c = false) : skipSqlSpaces (ws ++ rest) = rest :=
  (span_append hws hrest).2

theorem toUpper_of_toLower {c d : UInt8} (h : toLower c = toLower d) : toUpper c = toUpper d := by
  have hall : ∀ c, toUpper (toLower c) = toUpper c := forall_byte (by decide +kernel)
  rw [← hall c, h, hall d]

theorem keywordMatchCi_upper {s kw : Bytes} (h : keywordMatchCi s kw = true) :
    (s.take kw.length).map toUpper = kw.map toUpper := by
  induction kw generalizing s with
  | nil => simp
  | cons k kw ih =>
      cases s with
      | nil => cases h
      | cons c s =>
          rw [keywordMatchCi, Bool.and_eq_true, beq_iff_eq] at h
          rw [List.length_cons, List.take_succ_cons, List.map_cons, List.map_cons, ih h.2,
            toUpper_of_toLower h.1]

theorem afterKeyword_eq_some {kw : Bytes} (h : afterKeyword t kw = some q) :
    keywordMatchCi (skipSqlSpaces t) kw = true ∧ q = (skipSqlSpaces t).drop kw.length := by
  unfold afterKeyword at h
  dsimp only at h
  split at h
  · rename_i hmatch
    cases h
    exact ⟨hmatch, rfl⟩
  · cases h

theorem Reaches.keyword (h : Reaches text ls p t) {k : Keyword} {kw : Bytes}
    (htype : p.currentToken.type = k.type) (hfast : afterKeyword t kw = some q)
    (hlen : kw.length = k.text.length) : kw.map toUpper = k.text ∧ q = p.lexer ∧
      Reaches text (ls ++ [.keyword k]) p.advance p.lexer := by
  obtain ⟨b, hb, hg⟩ := h
  obtain ⟨ws, c, w, hws, htext, hc, hw, hend, hupper⟩ := hb.keyword_text htype
  obtain ⟨hb', hg'⟩ := hb.keyword htype
  obtain ⟨hmatch, hq⟩ := afterKeyword_eq_some hfast
  have hspace : ∀ d ∈ (c :: w ++ p.lexer).head?, isSpace d = false := by
    intro d hd
    cases hd
    exact (wordStart_spec c hc).2.1
  have hskip : skipSqlSpaces t = c :: w ++ p.lexer := by rw [htext, skipSqlSpaces_eq hws hspace]
  have hcw : (c :: w).length = kw.length := by
    rw [hlen, ← hupper, List.length_map]
  rw [hskip] at hmatch hq
  have hkw := keywordMatchCi_upper hmatch
  rw [List.take_left' hcw] at hkw
  rw [List.drop_left' hcw] at hq
  exact ⟨hkw.symm.trans hupper, hq, true, hb', hg.trans hg'⟩

/-! ## Identifiers -/

theorem readSqlIdentifier_eq_some {n : Nat} {buf : CBuf n} {c : UInt8} {rest : Bytes}
    (hskip : skipSqlSpaces t = c :: rest) (h : readSqlIdentifier t n = some (buf, q)) :
    ((c :: rest).takeWhile isIdentChar).length ≤ n ∧
      buf = strncpy n ((c :: rest).takeWhile isIdentChar) ∧
      q = (c :: rest).dropWhile isIdentChar := by
  unfold readSqlIdentifier at h
  rw [hskip] at h
  dsimp only at h
  split at h
  · split at h
    · cases h
    · rename_i hlen
      cases h
      exact ⟨Nat.le_of_not_lt hlen, rfl, rfl⟩
  · cases h

theorem identChar_word (c : UInt8) (h : isWordChar c = true) :
    isIdentChar c = true ∨ (c = 45 ∨ c = 46) ∧ isSpace c = false := by
  revert c
  exact forall_byte (by decide +kernel)

theorem isWordChar_of_ident (c : UInt8) (h : isIdentChar c = true) : isWordChar c = true := by
  revert c
  exact forall_byte (by decide +kernel)

theorem ident_span {w rest : Bytes} (hw : w.all isWordChar = true)
    (hrest : ∀ d ∈ rest.head?, isWordChar d = false)
    (hgo : ∀ d ∈ ((w ++ rest).dropWhile isIdentChar).head?, d ≠ 45 ∧ d ≠ 46) :
    (w ++ rest).takeWhile isIdentChar = w ∧ (w ++ rest).dropWhile isIdentChar = rest := by
  have hstop : ∀ d ∈ rest.head?, isIdentChar d = false := by
    intro d hd
    refine Bool.eq_false_iff.2 fun hid => ?_
    exact Bool.false_ne_true ((hrest d hd).symm.trans (isWordChar_of_ident d hid))
  induction w with
  | nil => exact span_append rfl hstop
  | cons c w ih =>
      rw [List.all_cons, Bool.and_eq_true] at hw
      rcases identChar_word c hw.1 with hid | ⟨hdash, -⟩
      · rw [List.cons_append, List.dropWhile_cons_of_pos hid] at hgo
        obtain ⟨htake, hdrop⟩ := ih hw.2 hgo
        rw [List.cons_append, List.takeWhile_cons_of_pos hid, List.dropWhile_cons_of_pos hid,
          htake, hdrop]
        exact ⟨rfl, rfl⟩
      · have hnot : ¬ isIdentChar c = true := by
          rcases hdash with rfl | rfl <;> decide
        rw [List.cons_append, List.dropWhile_cons_of_neg hnot] at hgo
        obtain ⟨h₁, h₂⟩ := hgo c rfl
        rcases hdash with rfl | rfl
        · exact absurd rfl h₁
        · exact absurd rfl h₂

theorem dash_spec (d : UInt8) (h : d = 45 ∨ d = 46) :
    isSpace d = false ∧ ∀ k : UInt8, isAlpha k = true → toLower d ≠ toLower k := by
  have hall : ∀ k : UInt8, isAlpha k = true → toLower k ≠ 45 ∧ toLower k ≠ 46 :=
    forall_byte (by decide +kernel)
  rcases h with rfl | rfl
  · exact ⟨rfl, fun k hk heq => (hall k hk).1 heq.symm⟩
  · exact ⟨rfl, fun k hk heq => (hall k hk).2 heq.symm⟩

theorem no_dash_of_keyword {k : UInt8} {kw : Bytes} (hk : isAlpha k = true)
    (h : afterKeyword t (k :: kw) = some q) : ∀ d ∈ t.head?, d ≠ 45 ∧ d ≠ 46 := by
  obtain ⟨hmatch, -⟩ := afterKeyword_eq_some h
  intro d hd
  by_contra hdash
  rw [not_and_or, not_not, not_not] at hdash
  obtain ⟨hspace, hne⟩ := dash_spec d hdash
  cases t with
  | nil => cases hd
  | cons c t =>
      cases hd
      have hskip : skipSqlSpaces (d :: t) = d :: t := by
        unfold skipSqlSpaces
        rw [List.dropWhile_cons_of_neg (by rw [hspace]; simp)]
      rw [hskip, keywordMatchCi, Bool.and_eq_true, beq_iff_eq] at hmatch
      exact hne k hk hmatch.1

theorem afterByte_eq_some {c : UInt8} (h : afterByte t c = some q) :
    skipSqlSpaces t = c :: q := by
  unfold afterByte at h
  cases hskip : skipSqlSpaces t with
  | nil =>
      rw [hskip] at h
      cases h
  | cons d rest =>
      rw [hskip] at h
      dsimp only at h
      split at h
      · rename_i heq
        cases h
        rw [heq]
      · cases h

theorem no_dash_of_eq (h : afterByte t 61 = some q) : ∀ d ∈ t.head?, d ≠ 45 ∧ d ≠ 46 := by
  have hskip := afterByte_eq_some h
  intro d hd
  by_contra hdash
  rw [not_and_or, not_not, not_not] at hdash
  cases t with
  | nil => cases hd
  | cons c t =>
      cases hd
      unfold skipSqlSpaces at hskip
      rw [List.dropWhile_cons_of_neg (by rw [(dash_spec d hdash).1]; simp)] at hskip
      cases hskip
      rcases hdash with hd | hd <;> exact absurd hd (by decide)

theorem Reaches.identifier (h : Reaches text ls p t) (htype : p.currentToken.type = .identifier)
    {n : Nat} {buf : CBuf n} (hn : n ≤ 255) (hfast : readSqlIdentifier t n = some (buf, q))
    (hgo : ∀ d ∈ q.head?, d ≠ 45 ∧ d ≠ 46) : IsName buf.bytes ∧
      p.currentToken.text.bytes = buf.bytes ∧ q = p.lexer ∧
      Reaches text (ls ++ [.name p.currentToken.text]) p.advance p.lexer := by
  obtain ⟨b, hb, hg⟩ := h
  obtain ⟨ws, c, w, hws, htext, hc, hw, hend, -, -, hfull⟩ := hb.word (Or.inl htype)
  obtain ⟨hword, hspace, -⟩ := wordStart_spec c hc
  have hskip : skipSqlSpaces t = c :: (w ++ p.lexer) := by
    rw [htext, skipSqlSpaces_eq hws (by simpa using hspace)]
    rfl
  obtain ⟨hlen, hbuf, hq⟩ := readSqlIdentifier_eq_some hskip hfast
  have hall : (c :: w).all isWordChar = true := all_cons_word hword hw
  rw [hq] at hgo
  obtain ⟨htake, hdrop⟩ := @ident_span (c :: w) p.lexer hall hend hgo
  rw [List.cons_append] at htake hdrop
  rw [htake] at hlen hbuf
  rw [hdrop] at hq
  obtain ⟨hname, hbytes, hb', hg'⟩ := hb.name htype (by rw [hfull]; exact hlen.trans hn)
  rw [hfull] at hbytes
  have hcopy : buf.bytes = c :: w := by
    have hnul : ∀ d ∈ c :: w, d ≠ 0 := fun d hd =>
      (wordChar_spec d (List.all_eq_true.1 hall d hd)).1
    rw [hbuf, strncpy_bytes hnul, List.take_of_length_le hlen]
  rw [hcopy]
  exact ⟨by rw [← hbytes]; exact hname, hbytes, hq, true, hb', hg.trans hg'⟩

theorem Reaches.eq (h : Reaches text ls p t) (htype : p.currentToken.type = .eq)
    (hfast : afterByte t 61 = some q) :
    q = p.lexer ∧ Reaches text (ls ++ [.symbol 61]) p.advance p.lexer := by
  obtain ⟨b, hb, hg⟩ := h
  obtain ⟨ws, hws, htext⟩ := @Before.symbol _ _ _ hb 61 (by rw [htype]; decide)
  obtain ⟨hb', hg'⟩ := hb.grow (.symbol (by decide)) htext hws fun hall => by cases hall
  have hskip := afterByte_eq_some hfast
  rw [htext, skipSqlSpaces_eq hws (by simp [isSpace])] at hskip
  cases hskip
  exact ⟨rfl, _, hb', hg.trans hg'⟩

/-! ## Literals -/

/-- Behind a word, a text that goes on with a keyword or ends does so with white space. -/
theorem space_of_keyword {b : Bool} (h : Before p b t)
    (htype : p.currentToken.type = .eof ∨ ∃ k : Keyword, p.currentToken.type = k.type)
    (hend : ∀ d ∈ t.head?, isWordChar d = false) : ∀ d ∈ t.head?, isSpace d = true := by
  intro d hd
  rcases htype with heof | ⟨k, hk⟩
  · have hspaces := h.spaces_of_eof heof
    exact List.all_eq_true.1 hspaces d (List.mem_of_mem_head? hd)
  · obtain ⟨ws, c, w, hws, htext, hc, -, -, -⟩ := h.keyword_text hk
    cases ws with
    | nil =>
        rw [htext] at hd hend
        cases hd
        have := hend d rfl
        rw [(wordStart_spec d hc).1] at this
        cases this
    | cons e ws =>
        rw [htext] at hd
        cases hd
        rw [List.all_cons, Bool.and_eq_true] at hws
        exact hws.1

theorem readSqlLiteral_eq_some {buf : CBuf 255} {c : UInt8} {rest : Bytes} (hc : c ≠ 39)
    (hskip : skipSqlSpaces t = c :: rest) (h : readSqlLiteral t = some (buf, q)) :
    ((c :: rest).takeWhile fun d => !isSpace d).length ≤ 255 ∧
      buf = strncpy 255 ((c :: rest).takeWhile fun d => !isSpace d) ∧
      q = (c :: rest).dropWhile fun d => !isSpace d := by
  unfold readSqlLiteral at h
  rw [hskip] at h
  dsimp only at h
  rw [if_neg hc] at h
  split at h
  · cases h
  · rename_i hlen
    cases h
    exact ⟨Nat.le_of_not_lt hlen, rfl, rfl⟩

theorem readSqlLiteral_quoted {buf : CBuf 255} {s rest : Bytes} (hs : 39 ∉ s)
    (hskip : skipSqlSpaces t = 39 :: (s ++ rest)) (hrest : ∀ d ∈ rest.head?, d = 39)
    (h : readSqlLiteral t = some (buf, q)) :
    s.length ≤ 255 ∧ buf = strncpy 255 s ∧ rest = 39 :: q := by
  obtain ⟨htake, hdrop⟩ := @span_append _ (· != 39) s rest (all_ne_quote hs) (by
    intro d hd
    rw [hrest d hd]
    rfl)
  unfold readSqlLiteral at h
  rw [hskip] at h
  dsimp only at h
  rw [if_pos rfl, htake, hdrop] at h
  cases rest with
  | nil => cases h
  | cons d rest =>
      dsimp only at h
      split at h
      · cases h
      · rename_i hlen
        cases h
        exact ⟨Nat.le_of_not_lt hlen, rfl, by rw [hrest d rfl]⟩

theorem readSqlLiteral_word {buf : CBuf 255} {ws w rest : Bytes} {c : UInt8}
    (hws : ws.all isSpace = true) (hc : isSpace c = false) (hne : c ≠ 39)
    (hword : (c :: w).all isWordChar = true) (hrest : ∀ d ∈ rest.head?, isSpace d = true)
    (h : readSqlLiteral (ws ++ (c :: w ++ rest)) = some (buf, q)) :
    (c :: w).length ≤ 255 ∧ buf = strncpy 255 (c :: w) ∧ q = rest := by
  have hskip : skipSqlSpaces (ws ++ (c :: w ++ rest)) = c :: (w ++ rest) :=
    skipSqlSpaces_eq hws (by simpa using hc)
  obtain ⟨hlen, hbuf, hq⟩ := readSqlLiteral_eq_some hne hskip h
  have hall : (c :: w).all (fun d => !isSpace d) = true := by
    rw [List.all_eq_true] at hword ⊢
    intro d hd
    rw [Bool.not_eq_true']
    refine Bool.eq_false_iff.2 fun hsp => ?_
    exact Bool.false_ne_true ((isSpace_spec d hsp).1.symm.trans (hword d hd))
  obtain ⟨htake, hdrop⟩ := @span_append _ (fun d => !isSpace d) (c :: w) rest hall (by
    intro d hd
    rw [hrest d hd]
    rfl)
  rw [List.cons_append] at htake hdrop
  rw [htake] at hlen hbuf
  rw [hdrop] at hq
  exact ⟨hlen, hbuf, hq⟩

theorem Reaches.literal (h : Reaches text ls p t)
    (htype : p.currentToken.type = .string ∨ p.currentToken.type = .number ∨
      p.currentToken.type = .identifier)
    (hnext : p.advance.currentToken.type = .eof ∨
      ∃ k : Keyword, p.advance.currentToken.type = k.type)
    {buf : CBuf 255} (hfast : readSqlLiteral t = some (buf, q)) :
    ∃ val : Literal, val.buf = buf ∧ q = p.lexer ∧
      Reaches text (ls ++ [.literal val.buf]) p.advance p.lexer := by
  obtain ⟨b, hb, hg⟩ := h
  have hclose : Closes t := by
    rintro ws s hws hs rfl
    have hskip : skipSqlSpaces (ws ++ 39 :: s) = 39 :: (s ++ []) := by
      rw [skipSqlSpaces_eq hws (by simp [isSpace]), List.append_nil]
    cases (readSqlLiteral_quoted hs hskip (by simp) hfast).2.2
  have hspace : (∀ d ∈ p.lexer.head?, isWordChar d = false) →
      ∀ d ∈ p.lexer.head?, isSpace d = true := space_of_keyword hb.advance hnext
  have hread : (nextFull t).1.text.length ≤ 255 ∧ buf = strncpy 255 (nextFull t).1.text ∧
      q = (nextFull t).2 := by
    have hscan := nextFull_scanned t
    rw [hb.token.1] at htype
    rw [hb.token.2.2] at hspace
    generalize (nextFull t).1 = full at hscan htype
    generalize (nextFull t).2 = rest at hscan hspace
    cases hscan with
    | @quoted ws s rest hws hs =>
        have hskip : skipSqlSpaces (ws ++ (39 :: (s ++ [39]) ++ rest)) =
            39 :: (s ++ 39 :: rest) := by
          rw [quoted_form, skipSqlSpaces_eq hws (by simp [isSpace])]
        obtain ⟨hlen, hbuf, hq⟩ := readSqlLiteral_quoted hs hskip (by simp) hfast
        cases hq
        exact ⟨hlen, hbuf, rfl⟩
    | @unclosed ws s hws hs => exact absurd rfl (hclose ws s hws hs)
    | @word ws w rest c hws hc hw hrest =>
        obtain ⟨hword, hsp, -, hne, -⟩ := wordStart_spec c hc
        exact readSqlLiteral_word hws hsp hne (all_cons_word hword hw) (hspace hrest) hfast
    | @number ws w rest c hws hc hw hrest =>
        obtain ⟨hword, hsp, -, hne, -⟩ := digit_spec c hc
        exact readSqlLiteral_word hws hsp hne (all_cons_word hword hw) (hspace hrest) hfast
    | eof _ => simp at htype
    | illegal _ _ _ _ _ _ => simp at htype
    | @symbol ws rest d type hws hd =>
        have hbyte := symbolByte_eq hd
        dsimp only at htype
        rcases htype with rfl | rfl | rfl <;> cases hbyte
  obtain ⟨hlen, hbuf, hq⟩ := hread
  obtain ⟨hquote, b', hb', hg'⟩ := hb.literal hclose htype hlen
  have hsame : p.currentToken.text = buf := hb.token.2.1.trans hbuf.symm
  rw [hsame] at hquote hg'
  exact ⟨⟨buf, hquote⟩, rfl, hq.trans hb.token.2.2.symm, b', hb', hg.trans hg'⟩

/-! ## The WHERE clause -/

theorem all_space_of_skip (h : skipSqlSpaces t = []) : t.all isSpace = true := by
  rw [List.all_eq_true]
  exact List.dropWhile_eq_nil_iff.1 h

theorem parseMoreConditions_next {n : Nat} {stmt stmt' : Statement}
    (h : Parser.parseMoreConditions n p stmt = some (stmt', p'))
    (heof : p'.currentToken.type = .eof) : p.currentToken.type = .eof ∨
      ∃ k : Keyword, p.currentToken.type = k.type := by
  cases n with
  | zero =>
      unfold Parser.parseMoreConditions at h
      split at h
      · cases h
      · cases h
        exact Or.inl heof
  | succ n =>
      unfold Parser.parseMoreConditions at h
      split at h
      · rename_i hand
        exact Or.inr ⟨.and, hand⟩
      · cases h
        exact Or.inl heof

/-- So it does behind the value of SET, or with WHERE. -/
theorem parseWhereClause_next {stmt stmt' : Statement}
    (h : p.parseWhereClause stmt = some (stmt', p')) (heof : p'.currentToken.type = .eof) :
    p.currentToken.type = .eof ∨ ∃ k : Keyword, p.currentToken.type = k.type := by
  unfold Parser.parseWhereClause at h
  split at h
  · cases h
    exact Or.inl heof
  · rename_i hwhere
    exact Or.inr ⟨.where, not_not.1 hwhere⟩

theorem Reaches.column (h : Reaches text ls p t) {buf buf' : CBuf 49}
    (hp : p.identifier 49 = some (buf', p')) (hfast : readSqlIdentifier t 49 = some (buf, q))
    (hgo : ∀ d ∈ q.head?, d ≠ 45 ∧ d ≠ 46) : ∃ col : Name 49, col.buf = buf ∧ q = p.lexer ∧
      p' = p.advance ∧ Reaches text (ls ++ [.name (widen col.buf)]) p.advance p.lexer := by
  obtain ⟨htype, -, rfl⟩ := identifier_eq_some hp
  obtain ⟨hname, hbytes, hq, hr⟩ := h.identifier htype (by decide) hfast hgo
  have hwiden : widen buf = p.currentToken.text := CBuf.ext hbytes.symm
  rw [← hwiden] at hr
  exact ⟨⟨buf, hname⟩, rfl, hq, rfl, hr⟩

theorem Reaches.where (h : Reaches text ls p t) {stmt₀ stmt₁ stmt stmt' : Statement}
    (hp : p.parseWhereClause stmt₁ = some (stmt', p')) (heof : p'.currentToken.type = .eof)
    (hfast : singleEqWhere stmt₀ t = some stmt) :
    ∃ (col : Name 49) (val : Literal), stmt = finishSingleEqWhere stmt₀ col.buf val.buf ∧
      Rendered [] false (ls ++ [.keyword .where, .name (widen col.buf), .symbol 61,
        .literal val.buf]) text := by
  obtain ⟨q₁, hkey, hfast⟩ := Option.bind_eq_some_iff.1 hfast
  obtain ⟨⟨cbuf, q₂⟩, hcol, hfast⟩ := Option.bind_eq_some_iff.1 hfast
  obtain ⟨q₃, heq, hfast⟩ := Option.bind_eq_some_iff.1 hfast
  obtain ⟨⟨vbuf, q₄⟩, hval, hfast⟩ := Option.bind_eq_some_iff.1 hfast
  dsimp only at hfast heq
  split at hfast
  · cases hfast
  · rename_i hend
    cases hfast
    unfold Parser.parseWhereClause at hp
    split at hp
    · -- the parser is at the end, where no keyword stands
      cases hp
      obtain ⟨b, hb, -⟩ := h
      have hspaces := hb.spaces_of_eof heof
      obtain ⟨hmatch, -⟩ := afterKeyword_eq_some hkey
      have hskip := @skipSqlSpaces_eq t [] hspaces (by simp)
      rw [List.append_nil] at hskip
      rw [hskip] at hmatch
      cases hmatch
    · rename_i hwhere
      obtain ⟨⟨stmt₂, p₁⟩, hone, hp⟩ := Option.bind_eq_some_iff.1 hp
      obtain ⟨⟨stmt₃, p₂⟩, hmore, hp⟩ := Option.bind_eq_some_iff.1 hp
      have hp₂ : p₂.currentToken.type = .eof := by
        dsimp only at hp
        split at hp <;> cases hp <;> exact heof
      have hnext := parseMoreConditions_next hmore hp₂
      obtain ⟨-, rfl, hr⟩ := @Reaches.keyword _ _ _ _ _ h .where _ (not_not.1 hwhere) hkey
        (by decide +kernel)
      unfold Parser.parseOneCondition at hone
      split at hone
      · cases hone
      · obtain ⟨⟨buf', p₃⟩, hid, hone⟩ := Option.bind_eq_some_iff.1 hone
        obtain ⟨col, rfl, rfl, rfl, hr⟩ := hr.column hid hcol (no_dash_of_eq heq)
        dsimp only at hone
        split at hone
        · -- BETWEEN is no equals sign
          rename_i hbetween
          obtain ⟨b, hb, -⟩ := hr
          obtain ⟨ws, c, w, hws, htext, hc, -, -, -⟩ :=
            @Before.keyword_text _ _ _ hb .between hbetween
          have hskip := afterByte_eq_some heq
          rw [htext, skipSqlSpaces_eq hws (by simpa using (wordStart_spec c hc).2.1)] at hskip
          cases hskip
          rcases hc with hc | hc <;> exact absurd hc (by decide)
        · obtain ⟨p₄, hexp, hone⟩ := Option.bind_eq_some_iff.1 hone
          obtain ⟨⟨vbuf', p₅⟩, hlit, hone⟩ := Option.bind_eq_some_iff.1 hone
          cases hone
          obtain ⟨heqt, rfl⟩ := expect_eq_some hexp
          obtain ⟨rfl, hr⟩ := hr.eq heqt heq
          obtain ⟨hlitt, -, rfl⟩ := literal_eq_some hlit
          obtain ⟨val, rfl, rfl, hr⟩ := hr.literal hlitt hnext hval
          obtain ⟨b, -, hg⟩ := hr
          refine ⟨col, val, rfl, ?_⟩
          have hspaces := hg.end (all_space_of_skip (not_not.1 hend))
          simpa using hspaces

/-! ## Statements -/

theorem initLexer_of_keyword {k : UInt8} {kw : Bytes} (hk : isAlpha k = true)
    (h : afterKeyword t (k :: kw) = some q) : initLexer t = t := by
  obtain ⟨hmatch, -⟩ := afterKeyword_eq_some h
  refine if_neg fun hbom => ?_
  cases t with
  | nil => cases hbom
  | cons c t =>
      rw [List.take_succ_cons, List.cons.injEq] at hbom
      obtain ⟨rfl, -⟩ := hbom
      have hskip : skipSqlSpaces (0xEF :: t) = 0xEF :: t := by
        unfold skipSqlSpaces
        rw [List.dropWhile_cons_of_neg (by decide)]
      have hall : ∀ k : UInt8, isAlpha k = true → toLower k ≠ toLower 0xEF :=
        forall_byte (by decide +kernel)
      rw [hskip, keywordMatchCi, Bool.and_eq_true, beq_iff_eq] at hmatch
      exact hall k hk hmatch.1.symm

/-- The parser's function for a statement that starts with the keyword. -/
def parseBody : Keyword → Parser → Option (Statement × Parser)
  | .select, p => p.parseSelect .zero
  | .insert, p => p.parseInsert .zero
  | .update, p => p.parseUpdate .zero
  | .delete, p => p.parseDelete .zero
  | _, _ => none

/-- An accepted text starts with the keyword that the fast path found. -/
theorem reaches_start {sql : Bytes} {stmt : Statement} {k₀ : Keyword} {c : UInt8} {kw : Bytes}
    (hk₀ : (c :: kw).map toUpper = k₀.text) (hlen : (c :: kw).length = 6)
    (hkey : afterKeyword (cstr sql) (c :: kw) = some q) (hp : parseStatement sql = some stmt) :
    ∃ p p', Before p false (cstr sql) ∧ p.currentToken.type = k₀.type ∧
      parseBody k₀ p = some (stmt, p') ∧ p'.currentToken.type = .eof := by
  have halpha : isAlpha c = true := by
    apply isAlpha_of_toUpper
    have hmem : toUpper c ∈ k₀.text := by
      rw [← hk₀]
      exact List.mem_cons_self
    exact List.all_eq_true.1 k₀.text_spec.2.1 _ hmem
  unfold parseStatement at hp
  rw [initLexer_of_keyword halpha hkey] at hp
  generalize hadv : Parser.advance ⟨cstr sql, ⟨.eof, .empty⟩⟩ = p at hp
  have hbefore : Before p false (cstr sql) :=
    ⟨by rw [← hadv]; rfl, by simp, fun _ hb => ne_zero_of_mem_cstr hb⟩
  have hsame : ∀ k : Keyword, k.text.length = 6 → p.currentToken.type = k.type → k = k₀ := by
    intro k hklen hk
    obtain ⟨hupper, -⟩ := (Reaches.start hbefore).keyword hk hkey (hlen.trans hklen.symm)
    exact Keyword.text_inj (hupper.symm.trans hk₀)
  have hbody : ∀ k : Keyword, k.text.length = 6 → p.currentToken.type = k.type →
      Parser.finishStatement (parseBody k p) = some stmt →
      ∃ p p', Before p false (cstr sql) ∧ p.currentToken.type = k₀.type ∧
        parseBody k₀ p = some (stmt, p') ∧ p'.currentToken.type = .eof := by
    intro k hklen hk hfin
    obtain ⟨p', hparsed, heof⟩ := finishStatement_eq_some hfin
    obtain rfl := hsame k hklen hk
    exact ⟨p, p', hbefore, hk, hparsed, heof⟩
  dsimp only at hp
  split at hp
  · rename_i htype
    exact hbody .select rfl htype hp
  · rename_i htype
    exact hbody .insert rfl htype hp
  · rename_i htype
    exact hbody .update rfl htype hp
  · rename_i htype
    exact hbody .delete rfl htype hp
  · cases hp

theorem Reaches.table (h : Reaches text ls p t) {buf buf' : CBuf 255}
    (hp : p.identifier 255 = some (buf', p')) (hfast : readSqlIdentifier t 255 = some (buf, q))
    (hgo : ∀ d ∈ q.head?, d ≠ 45 ∧ d ≠ 46) : ∃ table : Name 255, table.buf = buf ∧ q = p.lexer ∧
      p' = p.advance ∧ Reaches text (ls ++ [.name table.buf]) p.advance p.lexer := by
  obtain ⟨htype, -, rfl⟩ := identifier_eq_some hp
  obtain ⟨hname, hbytes, hq, hr⟩ := h.identifier htype le_rfl hfast hgo
  rw [CBuf.ext hbytes] at hr
  exact ⟨⟨buf, hname⟩, rfl, hq, rfl, hr⟩

theorem renders_of_deleteFast {sql : Bytes} {stmt stmt' : Statement}
    (hfast : tryExecuteDeleteFast sql = some stmt) (hp : parseStatement sql = some stmt') :
    ∃ s : Stmt, s.fill = stmt ∧ Renders s (cstr sql) := by
  obtain ⟨q₁, hdelete, hfast⟩ := Option.bind_eq_some_iff.1 hfast
  obtain ⟨q₂, hfrom, hfast⟩ := Option.bind_eq_some_iff.1 hfast
  obtain ⟨⟨tbuf, q₃⟩, htable, hfast⟩ := Option.bind_eq_some_iff.1 hfast
  dsimp only at hfast
  have hgo : ∀ d ∈ q₃.head?, d ≠ 45 ∧ d ≠ 46 := by
    obtain ⟨_, hwhere, -⟩ := Option.bind_eq_some_iff.1 hfast
    exact no_dash_of_keyword (by decide) hwhere
  obtain ⟨p, p', hb, htype, hbody, heof⟩ := @reaches_start _ _ _ .delete _ _ rfl rfl hdelete hp
  obtain ⟨p₁, hpfrom, hbody⟩ := Option.bind_eq_some_iff.1 hbody
  obtain ⟨⟨tbuf', p₂⟩, hptable, hbody⟩ := Option.bind_eq_some_iff.1 hbody
  obtain ⟨hfromt, rfl⟩ := expect_eq_some hpfrom
  obtain ⟨-, rfl, hr⟩ := @Reaches.keyword _ _ _ _ _ (Reaches.start hb) .delete _ htype hdelete
    (by decide +kernel)
  obtain ⟨-, rfl, hr⟩ := @Reaches.keyword _ _ _ _ _ hr .from _ hfromt hfrom (by decide +kernel)
  obtain ⟨table, rfl, rfl, rfl, hr⟩ := hr.table hptable htable hgo
  obtain ⟨col, val, rfl, hrend⟩ := hr.where hbody heof hfast
  refine ⟨.delete table ⟨[.eq col val], (by decide : 1 ≤ 8)⟩, rfl, [], cstr sql, rfl, ?_,
    Or.inl rfl⟩
  simpa [Stmt.lexemes, Conditions.lexemes, Condition.lexemes] using hrend

theorem renders_of_updateFast {sql : Bytes} {stmt stmt' : Statement}
    (hfast : tryExecuteUpdateFast sql = some stmt) (hp : parseStatement sql = some stmt') :
    ∃ s : Stmt, s.fill = stmt ∧ Renders s (cstr sql) := by
  obtain ⟨q₁, hupdate, hfast⟩ := Option.bind_eq_some_iff.1 hfast
  obtain ⟨⟨tbuf, q₂⟩, htable, hfast⟩ := Option.bind_eq_some_iff.1 hfast
  obtain ⟨q₃, hset, hfast⟩ := Option.bind_eq_some_iff.1 hfast
  obtain ⟨⟨cbuf, q₄⟩, hcol, hfast⟩ := Option.bind_eq_some_iff.1 hfast
  obtain ⟨q₅, heq, hfast⟩ := Option.bind_eq_some_iff.1 hfast
  obtain ⟨⟨vbuf, q₆⟩, hval, hfast⟩ := Option.bind_eq_some_iff.1 hfast
  dsimp only at hfast hset heq
  obtain ⟨p, p', hb, htype, hbody, heof⟩ := @reaches_start _ _ _ .update _ _ rfl rfl hupdate hp
  obtain ⟨⟨tbuf', p₁⟩, hptable, hbody⟩ := Option.bind_eq_some_iff.1 hbody
  obtain ⟨p₂, hpset, hbody⟩ := Option.bind_eq_some_iff.1 hbody
  obtain ⟨⟨cbuf', p₃⟩, hpcol, hbody⟩ := Option.bind_eq_some_iff.1 hbody
  obtain ⟨p₄, hpeq, hbody⟩ := Option.bind_eq_some_iff.1 hbody
  obtain ⟨⟨vbuf', p₅⟩, hpval, hbody⟩ := Option.bind_eq_some_iff.1 hbody
  dsimp only at hbody
  obtain ⟨hsett, rfl⟩ := expect_eq_some hpset
  obtain ⟨heqt, rfl⟩ := expect_eq_some hpeq
  obtain ⟨hlitt, -, rfl⟩ := literal_eq_some hpval
  have hnext := parseWhereClause_next hbody heof
  obtain ⟨-, rfl, hr⟩ := @Reaches.keyword _ _ _ _ _ (Reaches.start hb) .update _ htype hupdate
    (by decide +kernel)
  obtain ⟨table, rfl, rfl, rfl, hr⟩ :=
    hr.table hptable htable (no_dash_of_keyword (by decide) hset)
  obtain ⟨-, rfl, hr⟩ := @Reaches.keyword _ _ _ _ _ hr .set _ hsett hset (by decide +kernel)
  obtain ⟨col, rfl, rfl, rfl, hr⟩ := hr.column hpcol hcol (no_dash_of_eq heq)
  obtain ⟨rfl, hr⟩ := hr.eq heqt heq
  obtain ⟨val, rfl, rfl, hr⟩ := hr.literal hlitt hnext hval
  obtain ⟨wcol, wval, rfl, hrend⟩ := hr.where hbody heof hfast
  refine ⟨.update table col val ⟨[.eq wcol wval], (by decide : 1 ≤ 8)⟩, rfl, [], cstr sql, rfl,
    ?_, Or.inl rfl⟩
  simpa [Stmt.lexemes, Conditions.lexemes, Condition.lexemes] using hrend

/-! ## INSERT -/

theorem findRowEnd_eq : ∀ (q : Bool) (s : Bytes), findRowEnd q s = Parser.findValuesCloseParen q s
  | _, [] => rfl
  | q, c :: s => by
      rw [findRowEnd, Parser.findValuesCloseParen]
      dsimp only
      by_cases hquote : c = 39
      · have hclose : ¬ (c = 41 && !(!q)) = true := by
          rw [hquote]
          simp
        rw [if_pos hquote, if_pos hquote, if_neg hclose, findRowEnd_eq (!q) s]
      · rw [if_neg hquote, if_neg hquote, findRowEnd_eq q s]

theorem table_span {w rest : Bytes} (hw : w.all isWordChar = true)
    (hrest : ∀ d ∈ rest.head?, isSpace d = true) :
    (w ++ rest).takeWhile (fun c => !isSpace c && c != 40) = w := by
  have hword : ∀ c : UInt8, isWordChar c = true → (!isSpace c && c != 40) = true :=
    forall_byte (by decide +kernel)
  refine (span_append ?_ ?_).1
  · rw [List.all_eq_true] at hw ⊢
    exact fun c hc => hword c (hw c hc)
  · intro d hd
    rw [hrest d hd]
    rfl

theorem renders_of_insertFast {sql : Bytes} {stmt stmt' : Statement}
    (hfast : tryExecuteInsertFast sql = some stmt) (hp : parseStatement sql = some stmt') :
    ∃ s : Stmt, s.fill = stmt ∧ Renders s (cstr sql) := by
  obtain ⟨q₁, hinsert, hfast⟩ := Option.bind_eq_some_iff.1 hfast
  obtain ⟨q₂, hinto, hfast⟩ := Option.bind_eq_some_iff.1 hfast
  dsimp only at hfast
  split at hfast
  · cases hfast
  · rename_i htable
    obtain ⟨q₃, hvalues, hfast⟩ := Option.bind_eq_some_iff.1 hfast
    obtain ⟨q₄, hopen, hfast⟩ := Option.bind_eq_some_iff.1 hfast
    obtain ⟨⟨row, after⟩, hrow, hfast⟩ := Option.bind_eq_some_iff.1 hfast
    dsimp only at hfast
    split at hfast
    · cases hfast
    · rename_i hend
      cases hfast
      obtain ⟨p, p', hb₀, htype, hbody, -⟩ := @reaches_start _ _ _ .insert _ _ rfl rfl hinsert hp
      have hparsed := hbody
      obtain ⟨p₁, hpinto, hbody⟩ := Option.bind_eq_some_iff.1 hbody
      obtain ⟨⟨tbuf, p₂⟩, hpid, hbody⟩ := Option.bind_eq_some_iff.1 hbody
      obtain ⟨p₃, hpvalues, hbody⟩ := Option.bind_eq_some_iff.1 hbody
      obtain ⟨hintot, rfl⟩ := expect_eq_some hpinto
      obtain ⟨hidt, rfl, rfl⟩ := identifier_eq_some hpid
      obtain ⟨hvaluest, rfl⟩ := expect_eq_some hpvalues
      obtain ⟨-, rfl, hr⟩ := @Reaches.keyword _ _ _ _ _ (Reaches.start hb₀) .insert _ htype
        hinsert (by decide +kernel)
      obtain ⟨b₁, hb₁, -⟩ := id hr
      obtain ⟨-, rfl, hr⟩ := @Reaches.keyword _ _ _ _ _ hr .into _ hintot hinto
        (by decide +kernel)
      obtain ⟨b₂, hb₂, hg₂⟩ := hr
      -- the table name of the fast path is the word of the parser
      obtain ⟨ws, c, w, hws, htext, hc, hw, hstop, -, -, hfull⟩ := hb₂.word (Or.inl hidt)
      obtain ⟨hword, hspace, -⟩ := wordStart_spec c hc
      have hall : (c :: w).all isWordChar = true := all_cons_word hword hw
      have hgap := space_of_keyword hb₂.advance (Or.inr ⟨.values, hvaluest⟩) hstop
      have hskip : skipSqlSpaces p.advance.lexer = c :: w ++ p.advance.advance.lexer := by
        rw [htext, skipSqlSpaces_eq hws (by simpa using hspace)]
      rw [hskip, table_span hall hgap] at htable hvalues ⊢
      rw [List.drop_left' rfl] at hvalues
      have hlen : (c :: w).length ≤ 255 := by omega
      have hfit : (nextFull p.advance.lexer).1.text.length ≤ 255 := by
        rw [hfull]
        exact hlen
      obtain ⟨-, hbytes, hb₃, hg₃⟩ := hb₂.name hidt hfit
      have hr₃ : Reaches (cstr sql) _ p.advance.advance.advance p.advance.advance.lexer :=
        ⟨true, hb₃, hg₂.trans hg₃⟩
      obtain ⟨-, rfl, hr⟩ := @Reaches.keyword _ _ _ _ _ hr₃ .values _ hvaluest hvalues
        (by decide +kernel)
      obtain ⟨b₄, hb₄, -⟩ := hr
      have hbehind : textBehind 4 (cstr sql) = p.advance.advance.advance.lexer := by
        rw [hb₃.token.2.2, hb₂.token.2.2, hb₁.token.2.2, hb₀.token.2.2]
        rfl
      have hthird : (fullTokenAt 2 (cstr sql)).text.length ≤ 255 := by
        have heq : fullTokenAt 2 (cstr sql) = (nextFull p.advance.lexer).1 := by
          rw [hb₁.token.2.2, hb₀.token.2.2]
          rfl
        rw [heq]
        exact hfit
      dsimp only at hbody
      split at hbody
      · cases hbody
      · rename_i hparen
        obtain ⟨⟨data, rest⟩, hclose, hbody⟩ := Option.bind_eq_some_iff.1 hbody
        dsimp only at hbody
        split at hbody
        · rename_i hafter
          obtain ⟨ws', hws', hsym⟩ :=
            @Before.symbol _ _ _ hb₄ 40 (by rw [not_not.1 hparen]; decide)
          have hq₄ := afterByte_eq_some hopen
          rw [hsym, skipSqlSpaces_eq hws' (by simp [isSpace])] at hq₄
          obtain rfl : q₄ = p.advance.advance.advance.advance.lexer := (List.cons.inj hq₄).2.symm
          rw [findRowEnd_eq, hclose] at hrow
          cases hrow
          have hfive : textBehind 5 (cstr sql) = row ++ 41 :: after := by
            rw [← (findValuesCloseParen_eq_some hclose).1, hb₄.token.2.2, ← hbehind]
            rfl
          have hvt : (valuesText (cstr sql)).length ≤ 1023 := by
            rw [valuesText_eq hfive hafter]
            omega
          obtain ⟨table, values, tail, hstmt, htail, hrend⟩ :=
            hb₀.parseInsert htype hparsed hthird hvt
          refine ⟨_, ?_, tail, cstr sql, htail, hrend, Or.inl rfl⟩
          rw [← hstmt]
          cases hbody
          rw [hbytes, hfull]
          rfl
        · cases hbody

/-! ## All three paths -/

inductive FastPath
  | insert
  | update
  | delete
deriving DecidableEq

def FastPath.run : FastPath → Bytes → Option Statement
  | .insert => tryExecuteInsertFast
  | .update => tryExecuteUpdateFast
  | .delete => tryExecuteDeleteFast

theorem FastPath.renders {path : FastPath} {sql : Bytes} {stmt stmt' : Statement}
    (hfast : path.run sql = some stmt) (hp : parseStatement sql = some stmt') :
    ∃ s : Stmt, s.fill = stmt ∧ Renders s (cstr sql) := by
  cases path with
  | insert => exact renders_of_insertFast hfast hp
  | update => exact renders_of_updateFast hfast hp
  | delete => exact renders_of_deleteFast hfast hp

theorem parse_of_renders_cstr {sql : Bytes} {s : Stmt} (h : Renders s (cstr sql)) :
    parseStatement sql = some s.fill := by
  have hparse := parseStatement_of_renders h
  unfold parseStatement at hparse ⊢
  rwa [cstr_cstr] at hparse

/-- A fast path that goes through executes what the parser makes of the text exactly when
the text is written in the statement language: its words do not touch, its names are words
and no keywords, and its bare values are words and no keywords. -/
theorem fastPath_agrees_iff {path : FastPath} {sql : Bytes} {stmt : Statement}
    (h : path.run sql = some stmt) :
    parseStatement sql = some stmt ↔ ∃ s : Stmt, Renders s (cstr sql) := by
  constructor
  · intro hp
    obtain ⟨s, -, hrend⟩ := FastPath.renders h hp
    exact ⟨s, hrend⟩
  · rintro ⟨s, hrend⟩
    obtain ⟨s', rfl, hrend'⟩ := FastPath.renders h (parse_of_renders_cstr hrend)
    exact parse_of_renders_cstr hrend'

theorem fastPath_agrees_insert : ∃ stmt,
    FastPath.insert.run (str "insert into t VALUES( 1,')') ") = some stmt ∧
      parseStatement (str "insert into t VALUES( 1,')') ") = some stmt := by
  have hrun : (FastPath.insert.run (str "insert into t VALUES( 1,')') ")).isSome = true := by
    decide +kernel
  obtain ⟨stmt, hstmt⟩ := Option.isSome_iff_exists.1 hrun
  refine ⟨stmt, hstmt, (fastPath_agrees_iff hstmt).2 ⟨sampleInsert, ?_⟩⟩
  have hsame : cstr (str "insert into t VALUES( 1,')') ") =
      str "insert into t VALUES( 1,')') " := by
    decide +kernel
  rw [hsame]
  exact renders_sampleInsert

/-- The keywords touch: one word for the parser. -/
theorem fastPath_takes_insertinto :
    (FastPath.insert.run (str "insertinto t values (1)")).isSome = true ∧
      parseStatement (str "insertinto t values (1)") = none := by
  decide +kernel

end MiniDbms.Cli
