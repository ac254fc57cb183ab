import MiniDbms.Lib.Lists
import MiniDbms.Sql.Parser
import MiniDbms.Sql.Render

/-!
# Every rendering is parsed back

The lexer reads the tokens of a rendered text one after the other, so the parser
can be followed on the tokens.
-/

namespace MiniDbms.Sql

/-! ## Characters -/

theorem isSpace_spec (c : UInt8) (h : isSpace c = true) :
    isWordChar c = false ∧ c ≠ 0 ∧ c ≠ 0xEF := by
  revert c
  exact forall_byte (by decide +kernel)

theorem symbolType_spec (c : UInt8) (h : (symbolType c).isSome = true) :
    isSpace c = false ∧ isWordChar c = false ∧ c ≠ 39 := by
  revert c
  exact forall_byte (by decide +kernel)

theorem symbol_spec (c : UInt8) (h : c ∈ str "*,=(") :
    isWordChar c = false ∧ isSpace c = false ∧ c ≠ 0 ∧ c ≠ 0xEF ∧ (symbolType c).isSome := by
  revert c
  exact forall_byte (by decide +kernel)

theorem wordStart_spec (c : UInt8) (h : isAlpha c = true ∨ c = 95) :
    isWordChar c = true ∧ isSpace c = false ∧ symbolType c = none ∧ c ≠ 39 ∧
      (isAlpha c || c == 95) = true := by
  revert c
  exact forall_byte (by decide +kernel)

theorem digit_spec (c : UInt8) (h : isDigit c = true) :
    isWordChar c = true ∧ isSpace c = false ∧ symbolType c = none ∧ c ≠ 39 ∧
      (isAlpha c || c == 95) = false := by
  revert c
  exact forall_byte (by decide +kernel)

theorem wordChar_spec (c : UInt8) (h : isWordChar c = true) : c ≠ 0 ∧ c ≠ 0xEF := by
  revert c
  exact forall_byte (by decide +kernel)

theorem isAlpha_of_toUpper (c : UInt8) (h : isAlpha (toUpper c) = true) : isAlpha c = true := by
  revert c
  exact forall_byte (by decide +kernel)

/-! ## Words -/

theorem Keyword.text_spec (k : Keyword) :
    k.text ≠ [] ∧ k.text.all isAlpha = true ∧ k.text.length ≤ 255 := by
  cases k <;> decide

theorem keywordType_of_text {k : Keyword} {s : Bytes} (h : s.map toUpper = k.text) :
    keywordType s = k.type := by
  unfold keywordType
  rw [h]
  cases k <;> rfl

theorem keywordType_of_free {s : Bytes} (h : ∀ k : Keyword, s.map toUpper ≠ k.text) :
    keywordType s = .identifier := by
  have hselect : ¬ s.map toUpper = str "SELECT" := h .select
  have hinsert : ¬ s.map toUpper = str "INSERT" := h .insert
  have hupdate : ¬ s.map toUpper = str "UPDATE" := h .update
  have hdelete : ¬ s.map toUpper = str "DELETE" := h .delete
  have hfrom : ¬ s.map toUpper = str "FROM" := h .from
  have hwhere : ¬ s.map toUpper = str "WHERE" := h .where
  have hset : ¬ s.map toUpper = str "SET" := h .set
  have hinto : ¬ s.map toUpper = str "INTO" := h .into
  have hvalues : ¬ s.map toUpper = str "VALUES" := h .values
  have hbetween : ¬ s.map toUpper = str "BETWEEN" := h .between
  have hand : ¬ s.map toUpper = str "AND" := h .and
  simp only [MiniDbms.keywordType, hselect, hinsert, hupdate, hdelete, hfrom, hwhere, hset, hinto,
    hvalues, hbetween, hand, if_false]

theorem IsName.keywordType {s : Bytes} (h : IsName s) : keywordType s = .identifier :=
  keywordType_of_free h.free

theorem keyword_shape {k : Keyword} {s : Bytes} (h : s.map toUpper = k.text) :
    ∃ c w, s = c :: w ∧ isAlpha c = true ∧ w.all isWordChar = true ∧ s.length ≤ 255 := by
  obtain ⟨hne, halpha, hlen⟩ := k.text_spec
  have hall : ∀ c ∈ s, isAlpha c = true := by
    intro c hc
    apply isAlpha_of_toUpper
    have hmem : toUpper c ∈ k.text := by
      rw [← h]
      exact List.mem_map_of_mem hc
    exact List.all_eq_true.1 halpha _ hmem
  have hslen : s.length ≤ 255 := by
    rw [← List.length_map (f := toUpper), h]
    exact hlen
  cases s with
  | nil => exact absurd h.symm hne
  | cons c w =>
      refine ⟨c, w, rfl, hall c List.mem_cons_self, ?_, hslen⟩
      rw [List.all_eq_true]
      intro d hd
      exact (wordStart_spec d (Or.inl (hall d (List.mem_cons_of_mem c hd)))).1

theorem all_cons_word {c : UInt8} {w : Bytes} (hc : isWordChar c = true)
    (hw : w.all isWordChar = true) : (c :: w).all isWordChar = true := by
  rw [List.all_cons, hc, hw]
  rfl

theorem strncpy_word {s : Bytes} (hs : s.all isWordChar = true) (hlen : s.length ≤ 255) :
    (strncpy 255 s).bytes = s := by
  have hnul : ∀ b ∈ s, b ≠ 0 := fun b hb => (wordChar_spec b (List.all_eq_true.1 hs b hb)).1
  rw [strncpy_bytes hnul, List.take_of_length_le hlen]

theorem getNextToken_word {c : UInt8} {w rest : Bytes} (hc : isAlpha c = true ∨ c = 95)
    (hw : w.all isWordChar = true) (hrest : ∀ d ∈ rest.head?, isWordChar d = false) {ws : Bytes}
    (hws : ws.all isSpace = true) :
    getNextToken (ws ++ (c :: w ++ rest)) =
      (⟨keywordType (strncpy 255 (c :: w)).bytes, strncpy 255 (c :: w)⟩, rest) := by
  obtain ⟨-, hspace, hsymbol, hquote, hstart⟩ := wordStart_spec c hc
  have hskip : (ws ++ (c :: w ++ rest)).dropWhile isSpace = c :: w ++ rest :=
    (span_append hws (by simpa using hspace)).2
  obtain ⟨htake, hdrop⟩ := span_append hw hrest
  rw [getNextToken, hskip]
  simp only [List.cons_append, hsymbol, hquote, hstart, if_false, if_true, htake, hdrop]

theorem getNextToken_number {c : UInt8} {w rest : Bytes} (hc : isDigit c = true)
    (hw : w.all isWordChar = true) (hrest : ∀ d ∈ rest.head?, isWordChar d = false) {ws : Bytes}
    (hws : ws.all isSpace = true) :
    getNextToken (ws ++ (c :: w ++ rest)) = (⟨.number, strncpy 255 (c :: w)⟩, rest) := by
  obtain ⟨-, hspace, hsymbol, hquote, hstart⟩ := digit_spec c hc
  have hskip : (ws ++ (c :: w ++ rest)).dropWhile isSpace = c :: w ++ rest :=
    (span_append hws (by simpa using hspace)).2
  obtain ⟨htake, hdrop⟩ := span_append hw hrest
  rw [getNextToken, hskip]
  simp only [List.cons_append, hsymbol, hquote, hstart, hc, if_false, if_true, htake, hdrop,
    Bool.false_eq_true]

theorem getNextToken_quoted {s rest ws : Bytes} (hs : 39 ∉ s) (hws : ws.all isSpace = true) :
    getNextToken (ws ++ (39 :: (s ++ [39]) ++ rest)) = (⟨.string, strncpy 255 s⟩, rest) := by
  have hskip : (ws ++ (39 :: (s ++ [39]) ++ rest)).dropWhile isSpace =
      39 :: (s ++ [39]) ++ rest := (span_append hws (by simp [isSpace])).2
  have hbody : s.all (· != 39) = true := by
    rw [List.all_eq_true]
    intro c hc
    exact bne_iff_ne.2 fun h => hs (h ▸ hc)
  have hspan : ((s ++ 39 :: rest).takeWhile (· != 39) = s) ∧
      (s ++ 39 :: rest).dropWhile (· != 39) = 39 :: rest := span_append hbody (by simp)
  have htext : 39 :: (s ++ [39]) ++ rest = 39 :: (s ++ 39 :: rest) := by simp
  have hsymbol : symbolType 39 = none := by decide
  rw [getNextToken, hskip, htext]
  simp only [hsymbol, if_true, hspan.1, hspan.2, List.drop_one, List.tail_cons]

theorem getNextToken_symbol {c : UInt8} {rest ws : Bytes} (hc : c ∈ str "*,=(")
    (hws : ws.all isSpace = true) :
    ∃ type, symbolType c = some type ∧
      getNextToken (ws ++ ([c] ++ rest)) = (⟨type, strncpy 255 [c]⟩, rest) := by
  obtain ⟨-, hspace, -, -, hsome⟩ := symbol_spec c hc
  obtain ⟨type, htype⟩ := Option.isSome_iff_exists.1 hsome
  have hskip : (ws ++ ([c] ++ rest)).dropWhile isSpace = [c] ++ rest :=
    (span_append hws (by simpa using hspace)).2
  refine ⟨type, htype, ?_⟩
  rw [getNextToken, hskip]
  simp only [List.singleton_append, htype]

theorem getNextToken_spaces {ws : Bytes} (hws : ws.all isSpace = true) :
    getNextToken ws = (⟨.eof, .empty⟩, []) := by
  have hskip : (ws ++ []).dropWhile isSpace = [] := (span_append hws (by simp)).2
  rw [List.append_nil] at hskip
  rw [getNextToken, hskip]

/-! ## Reading a rendered text -/

/-- What the parser learns from a token. -/
def Reads : Lexeme → Token → Prop
  | .keyword k, token => token.type = k.type
  | .name s, token => token.type = .identifier ∧ token.text = s
  | .literal s, token => (token.type = .string ∨ token.type = .number ∨ token.type = .identifier) ∧
      token.text = s
  | .symbol c, token => symbolType c = some token.type

variable {tail : Bytes}

/-- A spelling is a word, or starts with a character of no word. -/
theorem Spells.start {l : Lexeme} {s : Bytes} (h : Spells l s) :
    ∃ c w, s = c :: w ∧ (s.all isWordChar = true ∨ isWordChar c = false) := by
  have hname : ∀ {s : Bytes}, IsName s →
      ∃ c w, s = c :: w ∧ (s.all isWordChar = true ∨ isWordChar c = false) := by
    intro s hs
    obtain ⟨c, w, rfl, hc, hw⟩ := hs.shape
    exact ⟨c, w, rfl, Or.inl (all_cons_word (wordStart_spec c hc).1 hw)⟩
  cases h with
  | keyword h =>
      obtain ⟨c, w, rfl, hc, hw, -⟩ := keyword_shape h
      exact ⟨c, w, rfl, Or.inl (all_cons_word (wordStart_spec c (Or.inl hc)).1 hw)⟩
  | name h => exact hname h
  | quoted h => exact ⟨39, _, rfl, Or.inr (by decide)⟩
  | bareName h => exact hname h
  | number hs hc hrest =>
      exact ⟨_, _, hs, Or.inl (hs ▸ all_cons_word (digit_spec _ hc).1 hrest)⟩
  | symbol h => exact ⟨_, [], rfl, Or.inr (symbol_spec _ h).1⟩

theorem head_spaces {ws rest : Bytes} (hws : ws.all isSpace = true)
    (hrest : ws = [] → ∀ c ∈ rest.head?, isWordChar c = false) :
    ∀ c ∈ (ws ++ rest).head?, isWordChar c = false := by
  cases ws with
  | nil => exact hrest rfl
  | cons d ws =>
      rw [List.all_cons, Bool.and_eq_true] at hws
      intro c hc
      have hcd : d = c := by simpa using hc
      exact hcd ▸ (isSpace_spec d hws.1).1

theorem Rendered.head (htail : ∀ c ∈ tail.head?, isWordChar c = false) {ls : List Lexeme}
    {text : Bytes} (h : Rendered tail true ls text) : ∀ c ∈ text.head?, isWordChar c = false := by
  cases h with
  | nil hws => exact head_spaces hws fun _ => htail
  | cons hws hs hsep hrest =>
      refine head_spaces hws fun hnil => ?_
      obtain ⟨c, w, rfl, hword | hc⟩ := hs.start
      · exact absurd hnil (hsep rfl hword)
      · simpa using hc

/-- The lexer reads the first token of a rendered text. -/
theorem Rendered.next (htail : ∀ c ∈ tail.head?, isWordChar c = false) {b : Bool} {l : Lexeme}
    {ls : List Lexeme} {text : Bytes} (h : Rendered tail b (l :: ls) text) :
    Reads l (getNextToken text).1 ∧ ∃ b', Rendered tail b' ls (getNextToken text).2 := by
  cases h with
  | cons hws hs hsep hrest =>
      rename_i ws s rest
      -- behind a word the text does not go on with one
      have hend : s.all isWordChar = true → ∀ c ∈ rest.head?, isWordChar c = false := by
        intro hword
        rw [hword] at hrest
        exact hrest.head htail
      have hnext : ∀ {type : SqlTokenType} {buf : CBuf 255},
          getNextToken (ws ++ (s ++ rest)) = (⟨type, buf⟩, rest) → Reads l ⟨type, buf⟩ →
          Reads l (getNextToken (ws ++ (s ++ rest))).1 ∧
            ∃ b', Rendered tail b' ls (getNextToken (ws ++ (s ++ rest))).2 := by
        intro type buf hlex hreads
        rw [hlex]
        exact ⟨hreads, _, hrest⟩
      have hname : ∀ {buf : CBuf 255}, IsName buf.bytes → s = buf.bytes →
          getNextToken (ws ++ (s ++ rest)) = (⟨.identifier, buf⟩, rest) := by
        intro buf hbuf hsbuf
        obtain ⟨c, w, hcw, hc, hw⟩ := hbuf.shape
        rw [hcw] at hsbuf
        have hword : s.all isWordChar = true := by
          rw [hsbuf]
          exact all_cons_word (wordStart_spec c hc).1 hw
        rw [hsbuf, getNextToken_word hc hw (hend hword) hws, ← hcw, strncpy_self,
          hbuf.keywordType]
      cases hs with
      | keyword h =>
          obtain ⟨c, w, rfl, hc, hw, hlen⟩ := keyword_shape h
          have hword := all_cons_word (wordStart_spec c (Or.inl hc)).1 hw
          refine hnext (getNextToken_word (Or.inl hc) hw (hend hword) hws) ?_
          rw [strncpy_word hword hlen]
          exact keywordType_of_text h
      | name h => exact hnext (hname h rfl) ⟨rfl, rfl⟩
      | quoted h =>
          refine hnext (getNextToken_quoted h hws) ⟨Or.inl rfl, ?_⟩
          exact strncpy_self _
      | bareName h => exact hnext (hname h rfl) ⟨Or.inr (Or.inr rfl), rfl⟩
      | number hs hc hw =>
          have hlex := getNextToken_number hc hw
            (hend (hs ▸ all_cons_word (digit_spec _ hc).1 hw)) hws
          rw [← hs, strncpy_self] at hlex
          exact hnext hlex ⟨Or.inr (Or.inl rfl), rfl⟩
      | symbol h =>
          obtain ⟨type, htype, hlex⟩ := getNextToken_symbol h hws
          exact hnext hlex htype

/-! ## The parser on tokens -/

/-- The parser has read the first of these tokens, or what stands behind the last. -/
structure At (tail : Bytes) (p : Parser) (ls : List Lexeme) : Prop where
  stop : ∀ c ∈ tail.head?, isWordChar c = false
  text : ∃ b text, Rendered tail b ls text ∧ getNextToken text = (p.currentToken, p.lexer)

section Parser

variable {p : Parser} {ls : List Lexeme}

theorem At.reads {l : Lexeme} (h : At tail p (l :: ls)) : Reads l p.currentToken := by
  obtain ⟨b, text, htext, hlex⟩ := h.text
  have hreads := (htext.next h.stop).1
  rwa [hlex] at hreads

theorem At.advance {l : Lexeme} (h : At tail p (l :: ls)) : At tail p.advance ls := by
  obtain ⟨b, text, htext, hlex⟩ := h.text
  obtain ⟨b', hrest⟩ := (htext.next h.stop).2
  rw [hlex] at hrest
  exact ⟨h.stop, b', p.lexer, hrest, rfl⟩

theorem At.eof (h : At [] p []) : p.currentToken.type = .eof := by
  obtain ⟨b, text, htext, hlex⟩ := h.text
  cases htext with
  | nil hws =>
      rw [List.append_nil, getNextToken_spaces hws, Prod.mk.injEq] at hlex
      rw [← hlex.1]

theorem At.expect {k : Keyword} (h : At tail p (.keyword k :: ls)) :
    p.expect k.type = some p.advance := by
  have htype : p.currentToken.type = k.type := h.reads
  rw [Parser.expect, if_pos htype]

theorem At.expect_eq (h : At tail p (.symbol 61 :: ls)) : p.expect .eq = some p.advance := by
  have htype : symbolType 61 = some p.currentToken.type := h.reads
  rw [Parser.expect, if_pos]
  exact (Option.some.inj (htype.symm.trans (by decide : symbolType 61 = some .eq)))

theorem At.identifier {n : Nat} {s : CBuf 255} {buf : CBuf n} (h : At tail p (.name s :: ls))
    (hbuf : s.bytes = buf.bytes) : p.identifier n = some (buf, p.advance) := by
  obtain ⟨htype, htext⟩ := h.reads
  rw [Parser.identifier, if_pos htype, htext, hbuf, strncpy_self]

theorem At.literal {s : CBuf 255} (h : At tail p (.literal s :: ls)) :
    p.literal = some (s, p.advance) := by
  obtain ⟨htype, htext⟩ := h.reads
  rw [Parser.literal, if_pos htype, htext, strncpy_self]

/-- One condition; the AND of a BETWEEN is read inside it. -/
theorem At.parseOneCondition {condition : Condition} (h : At tail p (condition.lexemes ++ ls))
    (stmt : Statement) (hroom : stmt.whereConditions.length < MAX_WHERE_CONDITIONS) :
    ∃ p', p.parseOneCondition stmt = some ({ stmt with
        whereConditions := stmt.whereConditions ++ [condition.fill] }, p') ∧ At tail p' ls := by
  unfold Parser.parseOneCondition
  rw [if_neg (by omega)]
  cases condition with
  | eq col val =>
      have hcol : p.identifier 49 = some (col.buf, p.advance) := h.identifier rfl
      have heq : p.advance.currentToken.type = .eq := by
        have := h.advance.reads
        exact (Option.some.inj (this.symm.trans (by decide : symbolType 61 = some .eq)))
      have hne : ¬ p.advance.currentToken.type = .between := by
        rw [heq]
        decide
      simp only [hcol, Option.bind_eq_bind, Option.bind_some, if_neg hne, h.advance.expect_eq,
        h.advance.advance.literal]
      exact ⟨_, rfl, h.advance.advance.advance⟩
  | between col val endVal =>
      have hcol : p.identifier 49 = some (col.buf, p.advance) := h.identifier rfl
      have hbetween : p.advance.currentToken.type = .between := h.advance.reads
      have hval := h.advance.advance.literal
      have hand : p.advance.advance.advance.expect .and = some _ :=
        h.advance.advance.advance.expect
      have hend := h.advance.advance.advance.advance.literal
      simp only [hcol, Option.bind_eq_bind, Option.bind_some, if_pos hbetween, hval, hand, hend]
      exact ⟨_, rfl, h.advance.advance.advance.advance.advance⟩

theorem parseMoreConditions_at : ∀ (n : Nat) (conditions : List Condition) {p : Parser}
    (stmt : Statement), conditions.length ≤ n →
      stmt.whereConditions.length + conditions.length ≤ MAX_WHERE_CONDITIONS →
      At [] p (conditions.flatMap fun condition => .keyword .and :: condition.lexemes) →
      ∃ p', Parser.parseMoreConditions n p stmt = some ({ stmt with
          whereConditions := stmt.whereConditions ++ conditions.map Condition.fill }, p') ∧
        At [] p' []
  | n, [], p, stmt, _, _, h => by
      have hand : ¬ p.currentToken.type = .and := by
        rw [show p.currentToken.type = .eof from h.eof]
        decide
      refine ⟨p, ?_, h⟩
      cases n <;> simp [Parser.parseMoreConditions, hand]
  | 0, _ :: _, _, _, hlen, _, _ => by simp at hlen
  | n + 1, condition :: conditions, p, stmt, hlen, hroom, h => by
      rw [List.flatMap_cons, List.cons_append] at h
      simp only [List.length_cons] at hlen hroom
      have hand : p.currentToken.type = .and := h.reads
      obtain ⟨p₁, hone, h₁⟩ := h.advance.parseOneCondition stmt (by omega)
      have hroom₁ : (stmt.whereConditions ++ [condition.fill]).length + conditions.length ≤
          MAX_WHERE_CONDITIONS := by
        rw [List.length_append, List.length_singleton]
        omega
      obtain ⟨p', hmore, h'⟩ := parseMoreConditions_at n conditions { stmt with
        whereConditions := stmt.whereConditions ++ [condition.fill] } (by omega) hroom₁ h₁
      refine ⟨p', ?_, h'⟩
      rw [Parser.parseMoreConditions, if_pos hand]
      simp only [hone, Option.bind_eq_bind, Option.bind_some, hmore]
      simp

theorem At.parseWhereClause {conditions : Conditions} (h : At [] p conditions.lexemes)
    (stmt : Statement) (hnone : stmt.whereConditions = []) :
    ∃ p', p.parseWhereClause stmt = some (conditions.fill stmt, p') ∧ At [] p' [] := by
  obtain ⟨list, hbound⟩ := conditions
  unfold Parser.parseWhereClause
  cases list with
  | nil =>
      have hwhere : p.currentToken.type ≠ .where := by
        rw [show p.currentToken.type = .eof from h.eof]
        decide
      exact ⟨p, by rw [if_pos hwhere]; rfl, h⟩
  | cons first rest =>
      have hwhere : ¬ p.currentToken.type ≠ .where := not_not.2 h.reads
      rw [List.length_cons] at hbound
      obtain ⟨p₁, hone, h₁⟩ := h.advance.parseOneCondition stmt
        (by rw [hnone, List.length_nil]; omega)
      have hroom : ([first.fill] : List WhereCondition).length + rest.length ≤
          MAX_WHERE_CONDITIONS := by
        rw [List.length_singleton]
        omega
      obtain ⟨p', hmore, h'⟩ := parseMoreConditions_at MAX_WHERE_CONDITIONS rest { stmt with
        whereConditions := [first.fill] } (by omega) hroom h₁
      refine ⟨p', ?_, h'⟩
      rw [hnone, List.nil_append] at hone
      rw [if_neg hwhere]
      simp only [hone, Option.bind_eq_bind, Option.bind_some, hmore]
      rfl

theorem parseSelectCols_at : ∀ (cols : List (Name 49)) (room : Nat) {p : Parser} (col : Name 49)
    (done : List (CBuf 49)), cols.length < room →
      At tail p (.name (widen col.buf) :: ((cols.flatMap fun col =>
        [.symbol 44, .name (widen col.buf)]) ++ .keyword .from :: ls)) →
      ∃ p', Parser.parseSelectCols room p done =
          some (done ++ (col :: cols).map Name.buf, p') ∧ At tail p' (.keyword .from :: ls)
  | _, 0, _, _, _, hlen, _ => by simp at hlen
  | [], room + 1, p, col, done, _, h => by
      have hcol : p.identifier 49 = some (col.buf, p.advance) := h.identifier rfl
      have hcomma : ¬ p.advance.currentToken.type = .comma := by
        rw [show p.advance.currentToken.type = .from from h.advance.reads]
        decide
      refine ⟨p.advance, ?_, h.advance⟩
      rw [Parser.parseSelectCols]
      simp only [hcol, Option.bind_eq_bind, Option.bind_some, if_neg hcomma]
      rfl
  | next :: cols, room + 1, p, col, done, hlen, h => by
      have hcol : p.identifier 49 = some (col.buf, p.advance) := h.identifier rfl
      have hcomma : p.advance.currentToken.type = .comma := by
        have := h.advance.reads
        exact (Option.some.inj (this.symm.trans (by decide : symbolType 44 = some .comma)))
      obtain ⟨p', hmore, h'⟩ := parseSelectCols_at cols room next (done ++ [col.buf])
        (by simpa using hlen) h.advance.advance
      refine ⟨p', ?_, h'⟩
      rw [Parser.parseSelectCols]
      simp only [hcol, Option.bind_eq_bind, Option.bind_some, if_pos hcomma, hmore]
      simp

theorem At.parseFrom {table : Name 255} {conditions : Conditions}
    (h : At [] p (.keyword .from :: .name table.buf :: conditions.lexemes)) (stmt : Statement)
    (hnone : stmt.whereConditions = []) :
    ∃ p', ((p.expect .from).bind fun p => (p.identifier 255).bind fun (table, p) =>
        p.parseWhereClause { stmt with tableName := table }) =
          some (conditions.fill { stmt with tableName := table.buf }, p') ∧ At [] p' [] := by
  have hfrom : p.expect .from = some p.advance := h.expect
  have htable : p.advance.identifier 255 = some (table.buf, _) := h.advance.identifier rfl
  obtain ⟨p', hwhere, h'⟩ := h.advance.advance.parseWhereClause
    { stmt with tableName := table.buf } hnone
  refine ⟨p', ?_, h'⟩
  simp only [hfrom, htable, Option.bind_some, hwhere]

theorem At.parseSelect {columns : Columns} {table : Name 255} {conditions : Conditions}
    (h : At [] p (Stmt.select columns table conditions).lexemes) :
    ∃ p', p.parseSelect .zero = some ((Stmt.select columns table conditions).fill, p') ∧
      At [] p' [] := by
  have hcolumns := h.advance
  unfold Parser.parseSelect
  cases columns with
  | star =>
      have hstar : p.advance.currentToken.type = .star := by
        have := hcolumns.reads
        exact (Option.some.inj (this.symm.trans (by decide : symbolType 42 = some .star)))
      obtain ⟨p', hrest, h'⟩ := hcolumns.advance.parseFrom
        { Statement.zero with type := .select, selectAll := true } rfl
      refine ⟨p', ?_, h'⟩
      simp only [if_pos hstar, Option.bind_eq_bind, Option.bind_some]
      exact hrest
  | list col cols bound =>
      have hstar : ¬ p.advance.currentToken.type = .star := by
        rw [hcolumns.reads.1]
        decide
      obtain ⟨p₁, hcols, h₁⟩ := parseSelectCols_at cols MAX_COLS col [] bound hcolumns
      obtain ⟨p', hrest, h'⟩ := h₁.parseFrom
        { Statement.zero with type := .select, selectCols := (col :: cols).map Name.buf } rfl
      refine ⟨p', ?_, h'⟩
      simp only [if_neg hstar, Option.bind_eq_bind, hcols, Option.map_some, Option.bind_some]
      exact hrest

theorem At.parseUpdate {table : Name 255} {col : Name 49} {val : Literal} {conditions : Conditions}
    (h : At [] p (Stmt.update table col val conditions).lexemes) :
    ∃ p', p.parseUpdate .zero = some ((Stmt.update table col val conditions).fill, p') ∧
      At [] p' [] := by
  have h₁ := h.advance
  have h₂ := h₁.advance
  have h₃ := h₂.advance
  have h₄ := h₃.advance
  have h₅ := h₄.advance
  have htable : p.advance.identifier 255 = some (table.buf, p.advance.advance) := h₁.identifier rfl
  have hset : p.advance.advance.expect .set = some _ := h₂.expect
  have hcol : p.advance.advance.advance.identifier 49 = some (col.buf, _) := h₃.identifier rfl
  obtain ⟨p', hwhere, h'⟩ := h₅.advance.parseWhereClause
    { Statement.zero with
      type := .update
      tableName := table.buf
      setCol := col.buf
      setVal := val.buf } rfl
  refine ⟨p', ?_, h'⟩
  rw [Parser.parseUpdate]
  simp only [htable, hset, hcol, h₄.expect_eq, h₅.literal, Option.bind_eq_bind, Option.bind_some,
    hwhere]
  rfl

theorem At.parseDelete {table : Name 255} {conditions : Conditions}
    (h : At [] p (Stmt.delete table conditions).lexemes) :
    ∃ p', p.parseDelete .zero = some ((Stmt.delete table conditions).fill, p') ∧ At [] p' [] :=
  h.advance.parseFrom { Statement.zero with type := .delete } rfl

end Parser

/-! ## The text of VALUES -/

/-- The first closing parenthesis outside quotes is the one behind the text. -/
theorem findValuesCloseParen_closed (after : Bytes) : ∀ (inQuote : Bool) (values : Bytes),
    closed inQuote values = true →
      Parser.findValuesCloseParen inQuote (values ++ 41 :: after) = some (values, after)
  | true, [], h => by simp [closed] at h
  | false, [], _ => by
      rw [List.nil_append, Parser.findValuesCloseParen]
      rfl
  | inQuote, c :: values, h => by
      rw [List.cons_append, Parser.findValuesCloseParen]
      rw [closed] at h
      by_cases hquote : c = 39
      · rw [if_pos hquote] at h
        rw [if_pos hquote, findValuesCloseParen_closed after _ values h]
        rfl
      · rw [if_neg hquote] at h
        by_cases hclose : (c = 41 && !inQuote) = true
        · rw [if_pos hclose] at h
          exact absurd h (by decide)
        · rw [if_neg hclose] at h
          rw [if_neg hquote, if_neg hclose, findValuesCloseParen_closed after _ values h]
          rfl

theorem At.parseInsert {p : Parser} {table : Name 255} {values : Values}
    (htail : (Stmt.insert table values).Tail tail)
    (h : At tail p (Stmt.insert table values).lexemes) :
    ∃ p', p.parseInsert .zero = some ((Stmt.insert table values).fill, p') ∧
      p'.currentToken.type = .eof := by
  obtain ⟨after, hafter, rfl⟩ := htail
  have h₁ := h.advance
  have h₂ := h₁.advance
  have h₃ := h₂.advance
  have hinto : p.advance.expect .into = some p.advance.advance := h₁.expect
  have htable : p.advance.advance.identifier 255 = some (table.buf, _) := h₂.identifier rfl
  have hvalues : p.advance.advance.advance.expect .values = some _ := h₃.expect
  -- the parenthesis is the next token and the text behind it is untouched
  obtain ⟨b, text, htext, hlex⟩ := h₃.advance.text
  generalize hp : p.advance.advance.advance.advance = q at hlex hvalues
  cases htext with
  | nil hws =>
      rename_i ws
      obtain ⟨type, htype, hsymbol⟩ : ∃ type, symbolType 40 = some type ∧
          getNextToken (ws ++ ([40] ++ (values.buf.bytes ++ 41 :: after))) =
            (⟨type, strncpy 255 [40]⟩, values.buf.bytes ++ 41 :: after) :=
        getNextToken_symbol (by decide) hws
      rw [List.singleton_append, hlex, Prod.mk.injEq] at hsymbol
      have hparen : ¬ q.currentToken.type ≠ .lparen := by
        rw [hsymbol.1]
        have : some type = some .lparen := htype.symm.trans (by decide)
        exact not_not.2 (Option.some.inj this)
      have hclose : Parser.findValuesCloseParen false q.lexer = some (values.buf.bytes, after) := by
        rw [hsymbol.2]
        exact findValuesCloseParen_closed after false _ values.closed
      refine ⟨Parser.advance ⟨after, q.currentToken⟩, ?_, ?_⟩
      · rw [Parser.parseInsert]
        simp only [hinto, htable, hvalues, hclose, hafter, if_neg hparen, if_true,
          Option.bind_eq_bind, Option.bind_some, strncpy_self]
        rfl
      · rw [Parser.advance, getNextToken_spaces hafter]

/-! ## The whole statement -/

theorem Spells.bytes {l : Lexeme} {s : Bytes} (h : Spells l s) :
    (∀ c ∈ s, c ≠ 0) ∧ ∀ c ∈ s.head?, c ≠ 0xEF := by
  have hword : ∀ {s : Bytes}, s.all isWordChar = true →
      (∀ c ∈ s, c ≠ 0) ∧ ∀ c ∈ s.head?, c ≠ 0xEF := by
    intro s hs
    have hall := List.all_eq_true.1 hs
    exact ⟨fun c hc => (wordChar_spec c (hall c hc)).1,
      fun c hc => (wordChar_spec c (hall c (List.mem_of_mem_head? hc))).2⟩
  have hname : ∀ {s : Bytes}, IsName s → (∀ c ∈ s, c ≠ 0) ∧ ∀ c ∈ s.head?, c ≠ 0xEF := by
    intro s hs
    obtain ⟨c, w, rfl, hc, hw⟩ := hs.shape
    exact hword (all_cons_word (wordStart_spec c hc).1 hw)
  cases h with
  | keyword h =>
      obtain ⟨c, w, rfl, hc, hw, -⟩ := keyword_shape h
      exact hword (all_cons_word (wordStart_spec c (Or.inl hc)).1 hw)
  | name h => exact hname h
  | @quoted s h =>
      constructor
      · intro c hc
        rw [List.mem_cons, List.mem_append, List.mem_singleton] at hc
        obtain rfl | hc | rfl := hc
        · decide
        · exact s.noNul c hc
        · decide
      · simp
  | bareName h => exact hname h
  | number hs hc hrest => exact hword (hs ▸ all_cons_word (digit_spec _ hc).1 hrest)
  | @symbol d h =>
      have hspec := symbol_spec d h
      constructor
      · intro c hc
        rw [List.mem_singleton.1 hc]
        exact hspec.2.2.1
      · intro c hc
        have hdc : d = c := by simpa using hc
        exact hdc ▸ hspec.2.2.2.1

theorem Rendered.bytes (htail : ∀ c ∈ tail, c ≠ 0) {b : Bool} {ls : List Lexeme} {text : Bytes}
    (h : Rendered tail b ls text) : ∀ c ∈ text, c ≠ 0 := by
  have hspaces : ∀ {ws : Bytes}, ws.all isSpace = true → ∀ c ∈ ws, c ≠ 0 := by
    intro ws hws c hc
    exact (isSpace_spec c (List.all_eq_true.1 hws c hc)).2.1
  induction h with
  | nil hws =>
      intro c hc
      obtain hc | hc := List.mem_append.1 hc
      · exact hspaces hws c hc
      · exact htail c hc
  | cons hws hs hsep hrest ih =>
      intro c hc
      obtain hc | hc := List.mem_append.1 hc
      · exact hspaces hws c hc
      · obtain hc | hc := List.mem_append.1 hc
        · exact hs.bytes.1 c hc
        · exact ih c hc

theorem Rendered.initLexer {b : Bool} {l : Lexeme} {ls : List Lexeme} {text : Bytes}
    (h : Rendered tail b (l :: ls) text) : initLexer text = text := by
  have hhead : ∀ c ∈ text.head?, c ≠ 0xEF := by
    cases h with
    | cons hws hs hsep hrest =>
        rename_i ws s rest
        obtain ⟨c, w, rfl, -⟩ := hs.start
        cases ws with
        | nil =>
            intro d hd
            exact hs.bytes.2 d (by simpa using hd)
        | cons e ws =>
            rw [List.all_cons, Bool.and_eq_true] at hws
            intro d hd
            have hed : e = d := by simpa using hd
            exact hed ▸ (isSpace_spec e hws.1).2.2
  rw [MiniDbms.initLexer, if_neg]
  intro hbom
  cases text with
  | nil => simp at hbom
  | cons c text =>
      apply hhead c rfl
      rw [List.take_succ_cons, List.cons.injEq] at hbom
      exact hbom.1

theorem Stmt.Tail.bytes {stmt : Stmt} (h : stmt.Tail tail) : ∀ c ∈ tail, c ≠ 0 := by
  cases stmt with
  | insert table values =>
      obtain ⟨ws, hws, rfl⟩ := h
      intro c hc
      rw [List.mem_cons, List.mem_append, List.mem_cons] at hc
      obtain rfl | hc | rfl | hc := hc
      · decide
      · exact values.buf.noNul c hc
      · decide
      · exact (isSpace_spec c (List.all_eq_true.1 hws c hc)).2.1
  | select columns table conditions => simp [show tail = [] from h]
  | update table col val conditions => simp [show tail = [] from h]
  | delete table conditions => simp [show tail = [] from h]

theorem Stmt.Tail.stop {stmt : Stmt} (h : stmt.Tail tail) :
    ∀ c ∈ tail.head?, isWordChar c = false := by
  cases stmt with
  | insert table values =>
      obtain ⟨ws, hws, rfl⟩ := h
      simp [show isWordChar 40 = false by decide]
  | select columns table conditions => simp [show tail = [] from h]
  | update table col val conditions => simp [show tail = [] from h]
  | delete table conditions => simp [show tail = [] from h]

theorem initLexer_rendered {l : Lexeme} {ls : List Lexeme} {text sql : Bytes}
    (htail : ∀ c ∈ tail, c ≠ 0) (h : Rendered tail false (l :: ls) text)
    (hsql : sql = text ∨ sql = bom ++ text) : initLexer (cstr sql) = text := by
  have hnul := h.bytes htail
  obtain rfl | rfl := hsql
  · rw [cstr_eq_self hnul]
    exact h.initLexer
  · have hbom : ∀ c ∈ bom ++ text, c ≠ 0 := by
      intro c hc
      obtain hc | hc := List.mem_append.1 hc
      · exact ne_zero_of_all (by decide : bom.all (· != 0) = true) c hc
      · exact hnul c hc
    rw [cstr_eq_self hbom]
    rfl

theorem finishStatement_eof {parsed : Option (Statement × Parser)} {stmt : Statement} {p : Parser}
    (hparsed : parsed = some (stmt, p)) (heof : p.currentToken.type = .eof) :
    Parser.finishStatement parsed = some stmt := by
  subst hparsed
  simp only [Parser.finishStatement, Option.bind_eq_bind, Option.bind_some, if_pos heof]

/-- A statement is what any rendering of it is parsed to. -/
theorem parseStatement_of_renders {stmt : Stmt} {sql : Bytes} (h : Renders stmt sql) :
    parseStatement sql = some stmt.fill := by
  obtain ⟨tail, text, htail, htext, hsql⟩ := h
  have hinit : initLexer (cstr sql) = text := by
    cases stmt <;> exact initLexer_rendered htail.bytes htext hsql
  unfold parseStatement
  rw [hinit]
  have hat : At tail (Parser.advance ⟨text, ⟨.eof, .empty⟩⟩) stmt.lexemes :=
    ⟨htail.stop, false, text, htext, rfl⟩
  generalize Parser.advance ⟨text, ⟨.eof, .empty⟩⟩ = p at hat
  cases stmt with
  | select columns table conditions =>
      have htype : p.currentToken.type = .select := hat.reads
      rw [show tail = [] from htail] at hat
      obtain ⟨p', hparsed, hend⟩ := hat.parseSelect
      simp only [htype]
      exact finishStatement_eof hparsed hend.eof
  | update table col val conditions =>
      have htype : p.currentToken.type = .update := hat.reads
      rw [show tail = [] from htail] at hat
      obtain ⟨p', hparsed, hend⟩ := hat.parseUpdate
      simp only [htype]
      exact finishStatement_eof hparsed hend.eof
  | delete table conditions =>
      have htype : p.currentToken.type = .delete := hat.reads
      rw [show tail = [] from htail] at hat
      obtain ⟨p', hparsed, hend⟩ := hat.parseDelete
      simp only [htype]
      exact finishStatement_eof hparsed hend.eof
  | insert table values =>
      have htype : p.currentToken.type = .insert := hat.reads
      obtain ⟨p', hparsed, hend⟩ := hat.parseInsert htail
      simp only [htype]
      exact finishStatement_eof hparsed hend

def nameA : Name 49 where
  buf := ⟨str "a", by decide, ne_zero_of_all rfl⟩
  isName := ⟨⟨97, [], rfl, by decide, rfl⟩, fun k => by cases k <;> decide⟩

def nameT : Name 255 where
  buf := ⟨str "t", by decide, ne_zero_of_all rfl⟩
  isName := ⟨⟨116, [], rfl, by decide, rfl⟩, fun k => by cases k <;> decide⟩

/-- Two conditions; the first AND belongs to the BETWEEN. -/
def sampleDelete : Stmt :=
  .delete nameT ⟨[.between nameA ⟨⟨str "1", by decide, ne_zero_of_all rfl⟩, by decide⟩
      ⟨⟨str "x)", by decide, ne_zero_of_all rfl⟩, by decide⟩,
    .eq nameA ⟨⟨str "b", by decide, ne_zero_of_all rfl⟩, by decide⟩], by decide⟩

def sampleInsert : Stmt := .insert nameT ⟨⟨str " 1,')'", by decide, ne_zero_of_all rfl⟩, by decide⟩

theorem renders_sampleDelete : Renders sampleDelete
    (bom ++ str "Delete\nFROM t where a BETWEEN 1 and'x)'AND a=b ") := by
  refine ⟨[], _, rfl, ?_, Or.inr rfl⟩
  refine .cons (w := []) (s := str "Delete") (by decide) (.keyword rfl) (by decide) ?_
  refine .cons (w := [10]) (s := str "FROM") (by decide) (.keyword rfl) (by decide) ?_
  refine .cons (w := [32]) (s := str "t") (by decide) (.name nameT.isName) (by decide) ?_
  refine .cons (w := [32]) (s := str "where") (by decide) (.keyword rfl) (by decide) ?_
  refine .cons (w := [32]) (s := str "a") (by decide) (.name nameA.isName) (by decide) ?_
  refine .cons (w := [32]) (s := str "BETWEEN") (by decide) (.keyword rfl) (by decide) ?_
  refine .cons (w := [32]) (s := str "1") (by decide) (.number rfl rfl rfl) (by decide) ?_
  refine .cons (w := [32]) (s := str "and") (by decide) (.keyword rfl) (by decide) ?_
  refine .cons (w := []) (s := str "'x)'") (by decide) (.quoted (by decide)) (by decide) ?_
  refine .cons (w := []) (s := str "AND") (by decide) (.keyword rfl) (by decide) ?_
  refine .cons (w := [32]) (s := str "a") (by decide) (.name nameA.isName) (by decide) ?_
  refine .cons (w := []) (s := str "=") (by decide) (.symbol (by decide)) (by decide) ?_
  refine .cons (w := []) (s := str "b") (by decide) (.bareName ?_) (by decide) ?_
  · exact ⟨⟨98, [], rfl, by decide, rfl⟩, fun k => by cases k <;> decide⟩
  · exact .nil (w := [32]) (by decide)

theorem renders_sampleInsert : Renders sampleInsert
    (str "insert into t VALUES( 1,')') ") := by
  refine ⟨_, _, ⟨[32], by decide, rfl⟩, ?_, Or.inl rfl⟩
  refine .cons (w := []) (s := str "insert") (by decide) (.keyword rfl) (by decide) ?_
  refine .cons (w := [32]) (s := str "into") (by decide) (.keyword rfl) (by decide) ?_
  refine .cons (w := [32]) (s := str "t") (by decide) (.name nameT.isName) (by decide) ?_
  refine .cons (w := [32]) (s := str "VALUES") (by decide) (.keyword rfl) (by decide) ?_
  exact .nil (w := []) (by decide)

theorem parseStatement_of_renders_samples :
    parseStatement (bom ++ str "Delete\nFROM t where a BETWEEN 1 and'x)'AND a=b ") =
        some sampleDelete.fill ∧
      parseStatement (str "insert into t VALUES( 1,')') ") = some sampleInsert.fill :=
  ⟨parseStatement_of_renders renders_sampleDelete, parseStatement_of_renders renders_sampleInsert⟩

end MiniDbms.Sql
