import MiniDbms.Sql.Tokens

/-!
# When the parser keeps what was written

An accepted text that is short enough where the statement has fixed sizes, and whose
quotes are all closed, is a rendering of the statement that comes out.
-/

namespace MiniDbms.Sql

/-! ## Texts that fit -/

def Terminal (t : FullToken) : Prop := t.type = .eof ∨ t.type = .illegal

instance (t : FullToken) : Decidable (Terminal t) := inferInstanceAs (Decidable (_ ∨ _))

/-- The tokens of a text up to its end or to a character that starts none. -/
def fullTokens : Nat → Bytes → List FullToken
  | 0, _ => []
  | n + 1, text =>
    if Terminal (nextFull text).1 then []
    else (nextFull text).1 :: fullTokens n (nextFull text).2

def tokensOf (text : Bytes) : List FullToken := fullTokens text.length text

/-- The room for a token in front of these.  What stands in front of a comma, FROM, an
equals sign or BETWEEN is a column name. -/
def roomBefore : List FullToken → Nat
  | [] => 255
  | t :: _ => match t.type with
    | .comma | .from | .eq | .between => 49
    | _ => 255

def Fit : List FullToken → Prop
  | [] => True
  | t :: ts => t.text.length ≤ roomBefore ts ∧ Fit ts

instance : (ts : List FullToken) → Decidable (Fit ts)
  | [] => isTrue trivial
  | t :: ts =>
    have : Decidable (Fit ts) := instDecidableFit ts
    inferInstanceAs (Decidable (t.text.length ≤ roomBefore ts ∧ Fit ts))

def fullTokenAt : Nat → Bytes → FullToken
  | 0, text => (nextFull text).1
  | n + 1, text => fullTokenAt n (nextFull text).2

def textBehind : Nat → Bytes → Bytes
  | 0, text => text
  | n + 1, text => textBehind n (nextFull text).2

/-- The text behind the first five tokens, without its last character that is not white
space: what the parentheses of VALUES hold. -/
def valuesText (text : Bytes) : Bytes :=
  (((textBehind 5 text).reverse.dropWhile isSpace).drop 1).reverse

/-- The number of quotes is even, and each name and value has room: 49 bytes for a column
name, 1023 for the text of VALUES, 255 for anything else. -/
def Fits (sql : Bytes) : Prop :=
  let text := initLexer (cstr sql)
  text.count 39 % 2 = 0 ∧
    if (nextFull text).1.type = .insert then
      (fullTokenAt 2 text).text.length ≤ 255 ∧ (valuesText text).length ≤ 1023
    else Fit (tokensOf text)

instance (sql : Bytes) : Decidable (Fits sql) :=
  inferInstanceAs (Decidable (_ ∧ _))

/-! ## Lists of tokens -/

theorem nextFull_shorter {text : Bytes} (h : ¬ Terminal (nextFull text).1) :
    (nextFull text).2.length < text.length := by
  have hscan := nextFull_scanned text
  generalize (nextFull text).1 = t at hscan h
  generalize (nextFull text).2 = rest at hscan
  cases hscan with
  | eof _ => exact absurd (Or.inl rfl) h
  | symbol _ _ =>
      simp only [List.length_append, List.length_singleton]
      omega
  | quoted _ _ =>
      simp only [List.length_append, List.length_cons]
      omega
  | unclosed _ _ =>
      simp only [List.length_append, List.length_cons, List.length_nil]
      omega
  | word _ _ _ _ =>
      simp only [List.length_append, List.length_cons]
      omega
  | number _ _ _ _ =>
      simp only [List.length_append, List.length_cons]
      omega
  | illegal _ _ _ _ _ _ => exact absurd (Or.inr rfl) h

theorem fullTokens_stable {n : Nat} {text : Bytes} (hn : text.length ≤ n) :
    fullTokens n text = tokensOf text := by
  have hstep : ∀ m n text, text.length ≤ m → text.length ≤ n →
      fullTokens m text = fullTokens n text := by
    intro m
    induction m with
    | zero =>
        intro n text hm hn
        obtain rfl : text = [] := List.eq_nil_of_length_eq_zero (by omega)
        cases n with
        | zero => rfl
        | succ n => rfl
    | succ m ih =>
        intro n text hm hn
        cases n with
        | zero =>
            obtain rfl : text = [] := List.eq_nil_of_length_eq_zero (by omega)
            rfl
        | succ n =>
            rw [fullTokens, fullTokens]
            by_cases hterm : Terminal (nextFull text).1
            · rw [if_pos hterm, if_pos hterm]
            · have hshort := nextFull_shorter hterm
              rw [if_neg hterm, if_neg hterm, ih n _ (by omega) (by omega)]
  exact hstep n _ text hn le_rfl

theorem tokensOf_cons {text : Bytes} (h : ¬ Terminal (nextFull text).1) :
    tokensOf text = (nextFull text).1 :: tokensOf (nextFull text).2 := by
  have hshort := nextFull_shorter h
  cases htext : text.length with
  | zero => omega
  | succ n =>
      have hfront : tokensOf text = fullTokens (n + 1) text := by rw [← htext]; rfl
      rw [hfront, fullTokens, if_neg h, fullTokens_stable (by omega)]

theorem tokensOf_nil {text : Bytes} (h : Terminal (nextFull text).1) : tokensOf text = [] := by
  unfold tokensOf
  cases text.length with
  | zero => rfl
  | succ n => exact if_pos h

/-! ## Tokens of an accepted text -/

/-- The current token was read at the front of the text, behind a word if the flag says so. -/
structure Before (p : Parser) (b : Bool) (text : Bytes) : Prop where
  next : getNextToken text = (p.currentToken, p.lexer)
  sep : b = true → ∀ c ∈ text.head?, isWordChar c = false
  noNul : ∀ c ∈ text, c ≠ 0

/-- What renders tokens behind these renders all of them. -/
def Grows (b : Bool) (text : Bytes) (ls : List Lexeme) (b' : Bool) (text' : Bytes) : Prop :=
  ∀ tail ls', Rendered tail b' ls' text' → Rendered tail b (ls ++ ls') text

variable {p p' : Parser} {b : Bool} {text : Bytes}

theorem Grows.trans {b₁ b₂ : Bool} {text₁ text₂ : Bytes} {ls₁ ls₂ : List Lexeme}
    (h : Grows b text ls₁ b₁ text₁) (h' : Grows b₁ text₁ ls₂ b₂ text₂) :
    Grows b text (ls₁ ++ ls₂) b₂ text₂ := by
  intro tail ls' hrest
  rw [List.append_assoc]
  exact h tail _ (h' tail ls' hrest)

theorem Before.token (h : Before p b text) : p.currentToken.type = (nextFull text).1.type ∧
    p.currentToken.text = strncpy 255 (nextFull text).1.text ∧ p.lexer = (nextFull text).2 := by
  have hnext := h.next
  rw [getNextToken_eq h.noNul, Prod.mk.injEq] at hnext
  rw [← hnext.1]
  exact ⟨rfl, rfl, hnext.2.symm⟩

theorem Scanned.subset {rest : Bytes} {t : FullToken} (h : Scanned text t rest) : rest ⊆ text := by
  cases h with
  | eof _ => exact List.nil_subset _
  | unclosed _ _ => exact List.nil_subset _
  | symbol _ _ => exact List.subset_append_of_subset_right _ (List.subset_append_right _ _)
  | quoted _ _ => exact List.subset_append_of_subset_right _ (List.subset_append_right _ _)
  | word _ _ _ _ => exact List.subset_append_of_subset_right _ (List.subset_append_right _ _)
  | number _ _ _ _ => exact List.subset_append_of_subset_right _ (List.subset_append_right _ _)
  | illegal _ _ _ _ _ _ => exact List.subset_append_right _ _

theorem Before.advance (h : Before p b text) : Before p.advance false p.lexer := by
  refine ⟨rfl, by simp, fun c hc => h.noNul c ?_⟩
  rw [h.token.2.2] at hc
  exact (nextFull_scanned text).subset hc

theorem Before.grow (h : Before p b text) {l : Lexeme} {ws s : Bytes} (hl : Spells l s)
    (htext : text = ws ++ (s ++ p.lexer)) (hws : ws.all isSpace = true)
    (hend : s.all isWordChar = true → ∀ c ∈ p.lexer.head?, isWordChar c = false) :
    Before p.advance (s.all isWordChar) p.lexer ∧
      Grows b text [l] (s.all isWordChar) p.lexer := by
  constructor
  · refine ⟨rfl, hend, fun c hc => h.noNul c ?_⟩
    rw [htext]
    exact List.mem_append_right _ (List.mem_append_right _ hc)
  · intro tail ls' hrest
    rw [htext]
    refine .cons hws hl ?_ hrest
    rintro hb hword rfl
    -- the token in front was a word, so this one cannot go on with it
    obtain ⟨c, w, rfl, -⟩ := hl.start
    have hc := h.sep hb c (by rw [htext]; rfl)
    rw [List.all_cons, hc] at hword
    cases hword

theorem Before.symbol (h : Before p b text) {c : UInt8}
    (htype : symbolType c = some p.currentToken.type) :
    ∃ ws, ws.all isSpace = true ∧ text = ws ++ ([c] ++ p.lexer) := by
  obtain ⟨htok, -, hlex⟩ := h.token
  have hscan := nextFull_scanned text
  have hbyte := symbolByte_eq htype
  rw [htok] at hbyte
  rw [hlex]
  generalize (nextFull text).1 = t at hscan hbyte
  generalize (nextFull text).2 = rest at hscan
  cases hscan with
  | @symbol ws rest d type hws hd =>
      rw [symbolByte_eq hd] at hbyte
      cases hbyte
      exact ⟨ws, hws, rfl⟩
  | word _ _ _ _ => cases (keywordType_not_symbol _).symm.trans hbyte
  | eof _ => cases hbyte
  | quoted _ _ => cases hbyte
  | unclosed _ _ => cases hbyte
  | number _ _ _ _ => cases hbyte
  | illegal _ _ _ _ _ _ => cases hbyte

theorem Before.word (h : Before p b text)
    (htype : p.currentToken.type = .identifier ∨ ∃ k : Keyword, p.currentToken.type = k.type) :
    ∃ ws c w, ws.all isSpace = true ∧ text = ws ++ (c :: w ++ p.lexer) ∧
      (isAlpha c = true ∨ c = 95) ∧ w.all isWordChar = true ∧
      (∀ d ∈ p.lexer.head?, isWordChar d = false) ∧
      p.currentToken.type = keywordType (c :: w) ∧ p.currentToken.text = strncpy 255 (c :: w) ∧
      (nextFull text).1.text = c :: w := by
  obtain ⟨htok, hbuf, hlex⟩ := h.token
  have hscan := nextFull_scanned text
  rw [htok] at htype
  rw [hlex, htok, hbuf]
  generalize (nextFull text).1 = t at hscan htype
  generalize (nextFull text).2 = rest at hscan
  have hno : ∀ {type : SqlTokenType}, (type = .identifier ∨ ∃ k : Keyword, type = k.type) →
      type ≠ .eof ∧ type ≠ .illegal ∧ type ≠ .string ∧ type ≠ .number ∧ symbolByte type = none := by
    rintro type (rfl | ⟨k, rfl⟩)
    · decide
    · obtain ⟨-, h₁, h₂, h₃, h₄, h₅⟩ := k.type_spec
      exact ⟨h₂, h₃, h₄, h₅, h₁⟩
  obtain ⟨h₁, h₂, h₃, h₄, h₅⟩ := hno htype
  cases hscan with
  | @word ws w rest c hws hc hw hrest =>
      exact ⟨ws, c, w, hws, rfl, hc, hw, hrest, rfl, rfl, rfl⟩
  | @symbol ws rest d type hws hd => cases (symbolByte_eq hd).symm.trans h₅
  | eof _ => exact absurd rfl h₁
  | quoted _ _ => exact absurd rfl h₃
  | unclosed _ _ => exact absurd rfl h₃
  | number _ _ _ _ => exact absurd rfl h₄
  | illegal _ _ _ _ _ _ => exact absurd rfl h₂

theorem Before.keyword_text (h : Before p b text) {k : Keyword}
    (htype : p.currentToken.type = k.type) :
    ∃ ws c w, ws.all isSpace = true ∧ text = ws ++ (c :: w ++ p.lexer) ∧
      (isAlpha c = true ∨ c = 95) ∧ w.all isWordChar = true ∧
      (∀ d ∈ p.lexer.head?, isWordChar d = false) ∧ (c :: w).map toUpper = k.text := by
  obtain ⟨ws, c, w, hws, htext, hc, hw, hend, hkey, -, -⟩ := h.word (Or.inr ⟨k, htype⟩)
  have hupper : (c :: w).map toUpper = k.text := by
    rcases keywordType_cases (c :: w) with ⟨hid, -⟩ | ⟨k', hk', hupper⟩
    · exact absurd (htype.symm.trans (hkey.trans hid)) k.type_spec.1
    · rw [Keyword.type_inj (htype.symm.trans (hkey.trans hk'))]
      exact hupper
  exact ⟨ws, c, w, hws, htext, hc, hw, hend, hupper⟩

theorem Before.keyword (h : Before p b text) {k : Keyword} (htype : p.currentToken.type = k.type) :
    Before p.advance true p.lexer ∧ Grows b text [.keyword k] true p.lexer := by
  obtain ⟨ws, c, w, hws, htext, hc, hw, hend, hupper⟩ := h.keyword_text htype
  have hword : (c :: w).all isWordChar = true := all_cons_word (wordStart_spec c hc).1 hw
  have hgrow := h.grow (.keyword hupper) htext hws fun _ => hend
  rwa [hword] at hgrow

theorem Before.name (h : Before p b text) (htype : p.currentToken.type = .identifier)
    (hfit : (nextFull text).1.text.length ≤ 255) : IsName p.currentToken.text.bytes ∧
      p.currentToken.text.bytes = (nextFull text).1.text ∧ Before p.advance true p.lexer ∧
      Grows b text [.name p.currentToken.text] true p.lexer := by
  obtain ⟨ws, c, w, hws, htext, hc, hw, hend, hkey, hbuf, hfull⟩ := h.word (Or.inl htype)
  have hword : (c :: w).all isWordChar = true := all_cons_word (wordStart_spec c hc).1 hw
  rw [hfull] at hfit
  have hbytes : p.currentToken.text.bytes = c :: w := by
    rw [hbuf]
    exact strncpy_word hword hfit
  have hname : IsName (c :: w) := by
    refine ⟨⟨c, w, rfl, hc, hw⟩, ?_⟩
    rcases keywordType_cases (c :: w) with ⟨-, hfree⟩ | ⟨k, hk, -⟩
    · exact hfree
    · exact absurd (htype.symm.trans (hkey.trans hk)).symm k.type_spec.1
  rw [← hbytes] at hname hword htext
  have hgrow := h.grow (.name hname) htext hws fun _ => hend
  rw [hword] at hgrow
  exact ⟨hname, hbytes.trans hfull.symm, hgrow⟩

/-! ## Quotes -/

theorem count_quote_of_all {f : UInt8 → Bool} {s : Bytes} (hs : s.all f = true)
    (hf : f 39 = false) : s.count 39 = 0 := by
  refine List.count_eq_zero.2 fun hmem => ?_
  rw [List.all_eq_true.1 hs 39 hmem] at hf
  cases hf

theorem count_quote_spaces {ws : Bytes} (hws : ws.all isSpace = true) : ws.count 39 = 0 :=
  count_quote_of_all hws (by decide)

theorem count_quote_word {s : Bytes} (hs : s.all isWordChar = true) : s.count 39 = 0 :=
  count_quote_of_all hs (by decide)

/-- Reading a token keeps the number of quotes even. -/
theorem Scanned.quotes {rest : Bytes} {t : FullToken} (h : Scanned text t rest)
    (heven : text.count 39 % 2 = 0) : rest.count 39 % 2 = 0 := by
  cases h with
  | eof _ => rfl
  | unclosed _ _ => rfl
  | @symbol ws rest c type hws hc =>
      have hne : c ≠ 39 := (symbolType_spec c (by rw [hc]; rfl)).2.2
      rw [List.count_append, List.count_append, count_quote_spaces hws,
        List.count_singleton, if_neg (by simpa using hne)] at heven
      omega
  | @quoted ws s rest hws hs =>
      rw [List.count_append, List.count_append, List.count_cons_self, List.count_append,
        count_quote_spaces hws, List.count_eq_zero.2 hs] at heven
      simp only [List.count_singleton_self] at heven
      omega
  | @word ws w rest c hws hc hw hrest =>
      have hword := all_cons_word (wordStart_spec c hc).1 hw
      rw [List.count_append, List.count_append, count_quote_spaces hws,
        count_quote_word hword] at heven
      omega
  | @number ws w rest c hws hc hw hrest =>
      have hword := all_cons_word (digit_spec c hc).1 hw
      rw [List.count_append, List.count_append, count_quote_spaces hws,
        count_quote_word hword] at heven
      omega
  | @illegal ws rest c hws _ _ _ _ _ =>
      rw [List.count_append, count_quote_spaces hws] at heven
      omega

/-- The text does not end inside a quoted literal at its front. -/
def Closes (text : Bytes) : Prop :=
  ∀ ws s : Bytes, ws.all isSpace = true → 39 ∉ s → text ≠ ws ++ 39 :: s

theorem closes_of_even (heven : text.count 39 % 2 = 0) : Closes text := by
  rintro ws s hws hs rfl
  rw [List.count_append, List.count_cons_self, count_quote_spaces hws,
    List.count_eq_zero.2 hs] at heven
  cases heven

theorem Before.literal (h : Before p b text) (hclose : Closes text)
    (htype : p.currentToken.type = .string ∨ p.currentToken.type = .number ∨
      p.currentToken.type = .identifier) (hfit : (nextFull text).1.text.length ≤ 255) :
    39 ∉ p.currentToken.text.bytes ∧ ∃ b', Before p.advance b' p.lexer ∧
      Grows b text [.literal p.currentToken.text] b' p.lexer := by
  by_cases hid : p.currentToken.type = .identifier
  · obtain ⟨ws, c, w, hws, htext, hc, hw, hend, -, -, hfull⟩ := h.word (Or.inl hid)
    obtain ⟨hname, hbytes, -, -⟩ := h.name hid hfit
    have hword : (c :: w).all isWordChar = true := all_cons_word (wordStart_spec c hc).1 hw
    rw [← hfull, ← hbytes] at hword htext
    refine ⟨fun hmem => ?_, _, h.grow (.bareName hname) htext hws fun _ => hend⟩
    exact absurd (List.all_eq_true.1 hword 39 hmem) (by decide)
  · obtain ⟨htok, hbuf, hlex⟩ := h.token
    have hscan := nextFull_scanned text
    rw [htok] at htype hid
    have hgrow := @Before.grow p b text h
    rw [hbuf]
    rw [hlex] at hgrow ⊢
    generalize (nextFull text).1 = t at hscan hfit htype hid hbuf
    generalize (nextFull text).2 = rest at hscan hgrow
    have hstring : ∀ {s : Bytes}, 39 ∉ s → s.length ≤ 255 → (∀ c ∈ s, c ≠ 0) →
        (strncpy 255 s).bytes = s := by
      intro s _ hlen hnul
      rw [strncpy_bytes hnul, List.take_of_length_le hlen]
    cases hscan with
    | @quoted ws s rest hws hs =>
        have hnul : ∀ c ∈ s, c ≠ 0 := fun c hc => h.noNul c (by simp [hc])
        have hcut := hstring hs hfit hnul
        have hsp : Spells (.literal (strncpy 255 s)) (39 :: (s ++ [39])) := by
          have := @Spells.quoted (strncpy 255 s) (by rw [hcut]; exact hs)
          rwa [hcut] at this
        dsimp only
        rw [hcut]
        refine ⟨hs, _, hgrow hsp rfl hws fun hall => ?_⟩
        cases hall
    | @unclosed ws s hws hs => exact absurd rfl (hclose ws s hws hs)
    | @number ws w rest c hws hc hw hrest =>
        have hword := all_cons_word (digit_spec c hc).1 hw
        have hcut := strncpy_word hword hfit
        have hsp := @Spells.number (strncpy 255 (c :: w)) c w hcut hc hw
        dsimp only
        rw [hcut] at hsp ⊢
        refine ⟨fun hmem => ?_, _, hgrow hsp rfl hws fun _ => hrest⟩
        exact absurd (List.all_eq_true.1 hword 39 hmem) (by decide)
    | @word ws w rest c hws hc hw hrest =>
        rcases keywordType_cases (c :: w) with ⟨hk, -⟩ | ⟨k, hk, -⟩
        · exact absurd hk hid
        · dsimp only at htype
          rw [hk] at htype
          obtain ⟨h₁, -, -, -, h₂, h₃⟩ := k.type_spec
          rcases htype with ht | ht | ht
          · exact absurd ht h₂
          · exact absurd ht h₃
          · exact absurd ht h₁
    | @symbol ws rest d type hws hd =>
        have hbyte := symbolByte_eq hd
        dsimp only at htype
        rcases htype with rfl | rfl | rfl <;> cases hbyte
    | eof _ => simp at htype
    | illegal _ _ _ _ _ _ => simp at htype

/-! ## Reading on -/

/-- What `Fits` says of a text that is no INSERT. -/
structure Sound (text : Bytes) : Prop where
  quotes : text.count 39 % 2 = 0
  fit : Fit (tokensOf text)

theorem roomBefore_le (ts : List FullToken) : roomBefore ts ≤ 255 := by
  cases ts with
  | nil => exact le_rfl
  | cons t ts =>
      unfold roomBefore
      dsimp only
      split <;> decide

theorem Sound.next (h : Sound text) (hne : ¬ Terminal (nextFull text).1) :
    (nextFull text).1.text.length ≤ roomBefore (tokensOf (nextFull text).2) ∧
      Sound (nextFull text).2 := by
  have hfit := h.fit
  rw [tokensOf_cons hne] at hfit
  exact ⟨hfit.1, (nextFull_scanned text).quotes h.quotes, hfit.2⟩

theorem Sound.short (h : Sound text) (hne : ¬ Terminal (nextFull text).1) :
    (nextFull text).1.text.length ≤ 255 := (h.next hne).1.trans (roomBefore_le _)

/-- The tokens read so far render `ls`, and the current token is the next one. -/
def Follows (b : Bool) (text : Bytes) (ls : List Lexeme) (p : Parser) : Prop :=
  ∃ b' text', Before p b' text' ∧ Sound text' ∧ Grows b text ls b' text'

variable {ls : List Lexeme}

theorem Before.not_terminal (h : Before p b text) (heof : p.currentToken.type ≠ .eof)
    (hill : p.currentToken.type ≠ .illegal) : ¬ Terminal (nextFull text).1 := by
  rw [h.token.1] at heof hill
  exact fun hterm => hterm.elim heof hill

theorem Follows.keyword (h : Follows b text ls p) {k : Keyword}
    (htype : p.currentToken.type = k.type) : Follows b text (ls ++ [.keyword k]) p.advance := by
  obtain ⟨b₁, text₁, hb, hs, hg⟩ := h
  have hterm := hb.not_terminal (by rw [htype]; exact k.type_spec.2.2.1)
    (by rw [htype]; exact k.type_spec.2.2.2.1)
  obtain ⟨hb', hg'⟩ := hb.keyword htype
  refine ⟨true, p.lexer, hb', ?_, hg.trans hg'⟩
  rw [hb.token.2.2]
  exact (hs.next hterm).2

theorem Follows.symbol (h : Follows b text ls p) {c : UInt8} (hc : c ∈ str "*,=(")
    (htype : symbolType c = some p.currentToken.type) :
    Follows b text (ls ++ [.symbol c]) p.advance := by
  obtain ⟨b₁, text₁, hb, hs, hg⟩ := h
  have hbyte := symbolByte_eq htype
  have hterm := hb.not_terminal (by intro he; rw [he] at hbyte; cases hbyte)
    (by intro he; rw [he] at hbyte; cases hbyte)
  obtain ⟨ws, hws, htext⟩ := hb.symbol htype
  obtain ⟨hb', hg'⟩ := hb.grow (.symbol hc) htext hws fun hall => by
    rw [List.all_cons, (symbol_spec c hc).1] at hall
    cases hall
  refine ⟨_, p.lexer, hb', ?_, hg.trans hg'⟩
  rw [hb.token.2.2]
  exact (hs.next hterm).2

theorem Follows.name (h : Follows b text ls p) (htype : p.currentToken.type = .identifier) :
    IsName p.currentToken.text.bytes ∧
      Follows b text (ls ++ [.name p.currentToken.text]) p.advance := by
  obtain ⟨b₁, text₁, hb, hs, hg⟩ := h
  have hterm := hb.not_terminal (by rw [htype]; decide) (by rw [htype]; decide)
  obtain ⟨hname, -, hb', hg'⟩ := hb.name htype (hs.short hterm)
  refine ⟨hname, true, p.lexer, hb', ?_, hg.trans hg'⟩
  rw [hb.token.2.2]
  exact (hs.next hterm).2

/-- What stands in front of a comma, FROM, an equals sign or BETWEEN fits a column name. -/
theorem Follows.column (h : Follows b text ls p) (htype : p.currentToken.type = .identifier)
    (hnext : p.advance.currentToken.type = .comma ∨ p.advance.currentToken.type = .from ∨
      p.advance.currentToken.type = .eq ∨ p.advance.currentToken.type = .between) :
    p.currentToken.text.bytes.length ≤ 49 := by
  obtain ⟨b₁, text₁, hb, hs, hg⟩ := h
  have hterm := hb.not_terminal (by rw [htype]; decide) (by rw [htype]; decide)
  obtain ⟨-, hbytes, hb', -⟩ := hb.name htype (hs.short hterm)
  have hroom := (hs.next hterm).1
  rw [← hb.token.2.2, ← hbytes] at hroom
  refine hroom.trans ?_
  rw [hb'.token.1] at hnext
  have hterm' : ¬ Terminal (nextFull p.lexer).1 := by
    rintro (he | he) <;> rw [he] at hnext <;> simp at hnext
  rw [tokensOf_cons hterm']
  unfold roomBefore
  dsimp only
  rcases hnext with he | he | he | he <;> rw [he]

theorem Follows.literal (h : Follows b text ls p)
    (htype : p.currentToken.type = .string ∨ p.currentToken.type = .number ∨
      p.currentToken.type = .identifier) : 39 ∉ p.currentToken.text.bytes ∧
      Follows b text (ls ++ [.literal p.currentToken.text]) p.advance := by
  obtain ⟨b₁, text₁, hb, hs, hg⟩ := h
  have hterm := hb.not_terminal (by rcases htype with he | he | he <;> rw [he] <;> decide)
    (by rcases htype with he | he | he <;> rw [he] <;> decide)
  obtain ⟨hquote, b', hb', hg'⟩ := hb.literal (closes_of_even hs.quotes) htype (hs.short hterm)
  refine ⟨hquote, b', p.lexer, hb', ?_, hg.trans hg'⟩
  rw [hb.token.2.2]
  exact (hs.next hterm).2

theorem Before.spaces_of_eof (h : Before p b text) (htype : p.currentToken.type = .eof) :
    text.all isSpace = true := by
  have hscan := nextFull_scanned text
  rw [h.token.1] at htype
  generalize (nextFull text).1 = t at hscan htype
  generalize (nextFull text).2 = rest at hscan
  cases hscan with
  | eof hws => exact hws
  | symbol _ hc =>
      have hbyte := symbolByte_eq hc
      dsimp only at htype
      rw [htype] at hbyte
      cases hbyte
  | quoted _ _ => cases htype
  | unclosed _ _ => cases htype
  | number _ _ _ _ => cases htype
  | illegal _ _ _ _ _ _ => cases htype
  | @word ws w rest c _ _ _ _ =>
      dsimp only at htype
      rcases keywordType_cases (c :: w) with ⟨hk, -⟩ | ⟨k, hk, -⟩
      · rw [hk] at htype
        cases htype
      · exact absurd (hk.symm.trans htype) k.type_spec.2.2.1

theorem Grows.end {b' : Bool} {text' : Bytes} (h : Grows b text ls b' text')
    (hspaces : text'.all isSpace = true) : Rendered [] b ls text := by
  have hnil := @Rendered.nil [] b' text' hspaces
  rw [List.append_nil] at hnil
  have hend := h [] [] hnil
  rwa [List.append_nil] at hend

theorem Follows.eof (h : Follows b text ls p) (htype : p.currentToken.type = .eof) :
    Rendered [] b ls text := by
  obtain ⟨b₁, text₁, hb, -, hg⟩ := h
  exact hg.end (hb.spaces_of_eof htype)

/-! ## The parser -/

theorem identifier_eq_some {n : Nat} {buf : CBuf n} (h : p.identifier n = some (buf, p')) :
    p.currentToken.type = .identifier ∧ buf = strncpy n p.currentToken.text.bytes ∧
      p' = p.advance := by
  unfold Parser.identifier at h
  split at h
  · rename_i htype
    cases h
    exact ⟨htype, rfl, rfl⟩
  · cases h

theorem literal_eq_some {buf : CBuf 255} (h : p.literal = some (buf, p')) :
    (p.currentToken.type = .string ∨ p.currentToken.type = .number ∨
      p.currentToken.type = .identifier) ∧ buf = p.currentToken.text ∧ p' = p.advance := by
  unfold Parser.literal at h
  split at h
  · rename_i htype
    cases h
    exact ⟨htype, strncpy_self _, rfl⟩
  · cases h

theorem expect_eq_some {type : SqlTokenType} (h : p.expect type = some p') :
    p.currentToken.type = type ∧ p' = p.advance := by
  unfold Parser.expect at h
  split at h
  · rename_i htype
    cases h
    exact ⟨htype, rfl⟩
  · cases h

theorem Follows.column_name (h : Follows b text ls p) (htype : p.currentToken.type = .identifier)
    (hnext : p.advance.currentToken.type = .comma ∨ p.advance.currentToken.type = .from ∨
      p.advance.currentToken.type = .eq ∨ p.advance.currentToken.type = .between) :
    ∃ col : Name 49, col.buf = strncpy 49 p.currentToken.text.bytes ∧
      Follows b text (ls ++ [.name (widen col.buf)]) p.advance := by
  obtain ⟨hname, hfol⟩ := h.name htype
  have hlen := h.column htype hnext
  have hbytes : (strncpy 49 p.currentToken.text.bytes).bytes = p.currentToken.text.bytes := by
    rw [strncpy_bytes p.currentToken.text.noNul, List.take_of_length_le hlen]
  refine ⟨⟨strncpy 49 p.currentToken.text.bytes, by rw [hbytes]; exact hname⟩, rfl, ?_⟩
  have hwiden : widen (strncpy 49 p.currentToken.text.bytes) = p.currentToken.text :=
    CBuf.ext hbytes
  rw [hwiden]
  exact hfol

theorem Follows.table (h : Follows b text ls p) {buf : CBuf 255}
    (hp : p.identifier 255 = some (buf, p')) : ∃ table : Name 255, table.buf = buf ∧
      Follows b text (ls ++ [.name table.buf]) p' := by
  obtain ⟨htype, rfl, rfl⟩ := identifier_eq_some hp
  obtain ⟨hname, hfol⟩ := h.name htype
  rw [strncpy_self]
  exact ⟨⟨p.currentToken.text, hname⟩, rfl, hfol⟩

theorem Follows.value (h : Follows b text ls p) {buf : CBuf 255}
    (hp : p.literal = some (buf, p')) : ∃ val : Literal, val.buf = buf ∧
      Follows b text (ls ++ [.literal val.buf]) p' := by
  obtain ⟨htype, rfl, rfl⟩ := literal_eq_some hp
  obtain ⟨hquote, hfol⟩ := h.literal htype
  exact ⟨⟨p.currentToken.text, hquote⟩, rfl, hfol⟩

theorem Follows.expect (h : Follows b text ls p) {k : Keyword} (hp : p.expect k.type = some p') :
    Follows b text (ls ++ [.keyword k]) p' := by
  obtain ⟨htype, rfl⟩ := expect_eq_some hp
  exact h.keyword htype

theorem Follows.expect_eq (h : Follows b text ls p) (hp : p.expect .eq = some p') :
    Follows b text (ls ++ [.symbol 61]) p' := by
  obtain ⟨htype, rfl⟩ := expect_eq_some hp
  exact h.symbol (by decide) (by rw [htype]; decide)

theorem Follows.parseOneCondition (h : Follows b text ls p) {stmt stmt' : Statement}
    (hp : p.parseOneCondition stmt = some (stmt', p')) :
    ∃ condition : Condition, stmt.whereConditions.length < MAX_WHERE_CONDITIONS ∧
      stmt' = { stmt with whereConditions := stmt.whereConditions ++ [condition.fill] } ∧
      Follows b text (ls ++ condition.lexemes) p' := by
  unfold Parser.parseOneCondition at hp
  split at hp
  · cases hp
  · rename_i hroom
    obtain ⟨⟨col, p₁⟩, hcol, hp⟩ := Option.bind_eq_some_iff.1 hp
    obtain ⟨hid, rfl, rfl⟩ := identifier_eq_some hcol
    dsimp only at hp
    split at hp
    · rename_i hbetween
      obtain ⟨⟨val, p₂⟩, hval, hp⟩ := Option.bind_eq_some_iff.1 hp
      dsimp only at hp
      obtain ⟨p₃, hand, hp⟩ := Option.bind_eq_some_iff.1 hp
      obtain ⟨⟨endVal, p₄⟩, hend, hp⟩ := Option.bind_eq_some_iff.1 hp
      cases hp
      obtain ⟨name, hname, hfol⟩ := h.column_name hid (Or.inr (Or.inr (Or.inr hbetween)))
      have hkey := @Follows.keyword _ _ _ _ hfol .between hbetween
      obtain ⟨v, rfl, hfol⟩ := hkey.value hval
      have hkey' := @Follows.expect _ _ _ _ _ hfol .and hand
      obtain ⟨v', rfl, hfol⟩ := hkey'.value hend
      refine ⟨.between name v v', Nat.lt_of_not_ge hroom, ?_, ?_⟩
      · rw [← hname]
        rfl
      · simpa [Condition.lexemes] using hfol
    · obtain ⟨p₂, heq, hp⟩ := Option.bind_eq_some_iff.1 hp
      obtain ⟨⟨val, p₃⟩, hval, hp⟩ := Option.bind_eq_some_iff.1 hp
      cases hp
      have hnext := (expect_eq_some heq).1
      obtain ⟨name, hname, hfol⟩ := h.column_name hid (Or.inr (Or.inr (Or.inl hnext)))
      obtain ⟨v, rfl, hfol⟩ := (hfol.expect_eq heq).value hval
      refine ⟨.eq name v, Nat.lt_of_not_ge hroom, ?_, ?_⟩
      · rw [← hname]
        rfl
      · simpa [Condition.lexemes] using hfol

theorem Follows.parseMoreConditions {n : Nat} {stmt stmt' : Statement} (h : Follows b text ls p)
    (hp : Parser.parseMoreConditions n p stmt = some (stmt', p')) :
    ∃ conditions : List Condition,
      (conditions ≠ [] → stmt.whereConditions.length + conditions.length ≤ MAX_WHERE_CONDITIONS) ∧
      stmt' = { stmt with
        whereConditions := stmt.whereConditions ++ conditions.map Condition.fill } ∧
      Follows b text (ls ++ conditions.flatMap fun condition =>
        .keyword .and :: condition.lexemes) p' := by
  have hnone : ∃ conditions : List Condition,
      (conditions ≠ [] → stmt.whereConditions.length + conditions.length ≤ MAX_WHERE_CONDITIONS) ∧
      stmt = { stmt with
        whereConditions := stmt.whereConditions ++ conditions.map Condition.fill } ∧
      Follows b text (ls ++ conditions.flatMap fun condition =>
        .keyword .and :: condition.lexemes) p :=
    ⟨[], fun hne => absurd rfl hne, by simp, by simpa using h⟩
  induction n generalizing p stmt ls with
  | zero =>
      unfold Parser.parseMoreConditions at hp
      split at hp
      · cases hp
      · cases hp
        exact hnone
  | succ n ih =>
      unfold Parser.parseMoreConditions at hp
      split at hp
      · rename_i hand
        obtain ⟨⟨stmt₁, p₁⟩, hone, hp⟩ := Option.bind_eq_some_iff.1 hp
        have hkey := @Follows.keyword _ _ _ _ h .and hand
        obtain ⟨condition, hroom, rfl, hfol⟩ := hkey.parseOneCondition hone
        obtain ⟨conditions, hbound, rfl, hfol'⟩ := ih hfol hp
          ⟨[], fun hne => absurd rfl hne, by simp, by simpa using hfol⟩
        refine ⟨condition :: conditions, ?_, ?_, ?_⟩
        · intro _
          cases conditions with
          | nil => exact hroom
          | cons d ds =>
              have := hbound (by simp)
              rw [List.length_append, List.length_singleton] at this
              rw [List.length_cons]
              omega
        · simp
        · simpa using hfol'
      · cases hp
        exact hnone

theorem Follows.parseWhereClause (h : Follows b text ls p) {stmt stmt' : Statement}
    (hstmt : stmt.whereConditions = []) (hp : p.parseWhereClause stmt = some (stmt', p')) :
    ∃ conditions : Conditions, stmt' = conditions.fill stmt ∧
      Follows b text (ls ++ conditions.lexemes) p' := by
  unfold Parser.parseWhereClause at hp
  split at hp
  · cases hp
    exact ⟨⟨[], Nat.zero_le _⟩, rfl, by simpa [Conditions.lexemes] using h⟩
  · rename_i hwhere
    obtain ⟨⟨stmt₁, p₁⟩, hone, hp⟩ := Option.bind_eq_some_iff.1 hp
    obtain ⟨⟨stmt₂, p₂⟩, hmore, hp⟩ := Option.bind_eq_some_iff.1 hp
    have hkey := @Follows.keyword _ _ _ _ h .where (not_not.1 hwhere)
    obtain ⟨first, -, rfl, hfol⟩ := hkey.parseOneCondition hone
    obtain ⟨rest, hbound, rfl, hfol'⟩ := hfol.parseMoreConditions hmore
    rw [hstmt] at hbound hp
    have hlen : (first :: rest).length ≤ MAX_WHERE_CONDITIONS := by
      cases rest with
      | nil => exact (by decide : 1 ≤ MAX_WHERE_CONDITIONS)
      | cons d ds =>
          have := hbound (by simp)
          simp only [List.nil_append, List.length_cons] at this ⊢
          omega
    refine ⟨⟨first :: rest, hlen⟩, ?_, ?_⟩
    · simp only [List.nil_append, List.singleton_append, Option.some.injEq, Prod.mk.injEq] at hp
      exact hp.1.symm
    · have hp₂ : p' = p₂ := by
        simp only [List.nil_append, List.singleton_append, Option.some.injEq, Prod.mk.injEq] at hp
        exact hp.2.symm
      rw [hp₂]
      simpa [Conditions.lexemes] using hfol'

theorem Follows.parseSelectCols {room : Nat} {cols cols' : List (CBuf 49)}
    (h : Follows b text ls p) (hp : Parser.parseSelectCols room p cols = some (cols', p'))
    (hfrom : p'.currentToken.type = .from) :
    ∃ (col : Name 49) (rest : List (Name 49)), rest.length < room ∧
      cols' = cols ++ (col :: rest).map Name.buf ∧
      Follows b text (ls ++ .name (widen col.buf) ::
        rest.flatMap fun col => [.symbol 44, .name (widen col.buf)]) p' := by
  induction room generalizing p ls cols with
  | zero => cases hp
  | succ room ih =>
      obtain ⟨⟨buf, p₁⟩, hcol, hp⟩ := Option.bind_eq_some_iff.1 hp
      obtain ⟨hid, rfl, rfl⟩ := identifier_eq_some hcol
      dsimp only at hp
      split at hp
      · rename_i hcomma
        obtain ⟨col, hbuf, hfol⟩ := h.column_name hid (Or.inl hcomma)
        have hsym := @Follows.symbol _ _ _ _ hfol 44 (by decide) (by rw [hcomma]; decide)
        obtain ⟨col', rest, hlen, rfl, hfol'⟩ := ih hsym hp
        refine ⟨col, col' :: rest, by rw [List.length_cons]; omega, ?_, ?_⟩
        · rw [← hbuf]
          simp
        · simpa using hfol'
      · cases hp
        obtain ⟨col, hbuf, hfol⟩ := h.column_name hid (Or.inr (Or.inl hfrom))
        exact ⟨col, [], Nat.succ_pos _, by rw [← hbuf]; rfl, by simpa using hfol⟩

theorem Follows.parseFrom (h : Follows b text ls p) {stmt stmt' : Statement}
    (hstmt : stmt.whereConditions = [])
    (hp : (do
      let p ← p.expect .from
      let (table, p) ← p.identifier 255
      p.parseWhereClause { stmt with tableName := table }) = some (stmt', p')) :
    p.currentToken.type = .from ∧ ∃ (table : Name 255) (conditions : Conditions),
      stmt' = conditions.fill { stmt with tableName := table.buf } ∧
      Follows b text (ls ++ .keyword .from :: .name table.buf :: conditions.lexemes) p' := by
  obtain ⟨p₁, hfrom, hp⟩ := Option.bind_eq_some_iff.1 hp
  obtain ⟨⟨buf, p₂⟩, htable, hp⟩ := Option.bind_eq_some_iff.1 hp
  obtain ⟨table, rfl, hfol⟩ := (@Follows.expect _ _ _ _ _ h .from hfrom).table htable
  have hw := @Follows.parseWhereClause _ _ _ _ _ hfol
    { stmt with tableName := table.buf } stmt' hstmt hp
  obtain ⟨conditions, rfl, hfol'⟩ := hw
  exact ⟨(expect_eq_some hfrom).1, table, conditions, rfl, by simpa using hfol'⟩

theorem Follows.parseSelect (h : Follows b text ls p) (htype : p.currentToken.type = .select)
    {stmt : Statement} (hp : p.parseSelect .zero = some (stmt, p')) :
    ∃ (columns : Columns) (table : Name 255) (conditions : Conditions),
      stmt = (Stmt.select columns table conditions).fill ∧
      Follows b text (ls ++ (Stmt.select columns table conditions).lexemes) p' := by
  have hkey := @Follows.keyword _ _ _ _ h .select htype
  unfold Parser.parseSelect at hp
  dsimp only at hp
  split at hp
  · rename_i hstar
    have hsym := @Follows.symbol _ _ _ _ hkey 42 (by decide) (by rw [hstar]; decide)
    obtain ⟨-, table, conditions, rfl, hfol⟩ := @Follows.parseFrom _ _ _ _ _ hsym
      { Statement.zero with type := .select, selectAll := true } stmt rfl hp
    exact ⟨.star, table, conditions, rfl, by simpa [Stmt.lexemes, Columns.lexemes] using hfol⟩
  · obtain ⟨⟨stmt₁, p₁⟩, hcols, hp⟩ := Option.bind_eq_some_iff.1 hp
    obtain ⟨⟨cols, p₂⟩, hlist, heq⟩ := Option.map_eq_some_iff.1 hcols
    cases heq
    have hfrom : p₂.currentToken.type = .from := by
      obtain ⟨p₃, hexp, -⟩ := Option.bind_eq_some_iff.1 hp
      exact (expect_eq_some hexp).1
    obtain ⟨col, rest, hlen, rfl, hfol⟩ := hkey.parseSelectCols hlist hfrom
    obtain ⟨-, table, conditions, rfl, hfol'⟩ := @Follows.parseFrom _ _ _ _ _ hfol
      { Statement.zero with type := .select, selectCols := (col :: rest).map Name.buf } stmt rfl hp
    exact ⟨.list col rest hlen, table, conditions, rfl, by
      simpa [Stmt.lexemes, Columns.lexemes] using hfol'⟩

theorem Follows.parseUpdate (h : Follows b text ls p) (htype : p.currentToken.type = .update)
    {stmt : Statement} (hp : p.parseUpdate .zero = some (stmt, p')) :
    ∃ (table : Name 255) (col : Name 49) (val : Literal) (conditions : Conditions),
      stmt = (Stmt.update table col val conditions).fill ∧
      Follows b text (ls ++ (Stmt.update table col val conditions).lexemes) p' := by
  have hkey := @Follows.keyword _ _ _ _ h .update htype
  obtain ⟨⟨tbuf, p₁⟩, htable, hp⟩ := Option.bind_eq_some_iff.1 hp
  obtain ⟨p₂, hset, hp⟩ := Option.bind_eq_some_iff.1 hp
  obtain ⟨⟨cbuf, p₃⟩, hcol, hp⟩ := Option.bind_eq_some_iff.1 hp
  obtain ⟨p₄, heq, hp⟩ := Option.bind_eq_some_iff.1 hp
  obtain ⟨⟨vbuf, p₅⟩, hval, hp⟩ := Option.bind_eq_some_iff.1 hp
  obtain ⟨table, rfl, hfol⟩ := hkey.table htable
  have hfol := @Follows.expect _ _ _ _ _ hfol .set hset
  obtain ⟨hid, rfl, rfl⟩ := identifier_eq_some hcol
  obtain ⟨col, hcbuf, hfol⟩ := hfol.column_name hid (Or.inr (Or.inr (Or.inl (expect_eq_some heq).1)))
  obtain ⟨val, rfl, hfol⟩ := (hfol.expect_eq heq).value hval
  dsimp only at hp
  rw [← hcbuf] at hp
  obtain ⟨conditions, rfl, hfol'⟩ := @Follows.parseWhereClause _ _ _ _ _ hfol
    { Statement.zero with
      type := .update
      tableName := table.buf
      setCol := col.buf
      setVal := val.buf } stmt rfl hp
  exact ⟨table, col, val, conditions, rfl, by simpa [Stmt.lexemes] using hfol'⟩

theorem Follows.parseDelete (h : Follows b text ls p) (htype : p.currentToken.type = .delete)
    {stmt : Statement} (hp : p.parseDelete .zero = some (stmt, p')) :
    ∃ (table : Name 255) (conditions : Conditions),
      stmt = (Stmt.delete table conditions).fill ∧
      Follows b text (ls ++ (Stmt.delete table conditions).lexemes) p' := by
  have hkey := @Follows.keyword _ _ _ _ h .delete htype
  obtain ⟨-, table, conditions, rfl, hfol⟩ := @Follows.parseFrom _ _ _ _ _ hkey
    { Statement.zero with type := .delete } stmt rfl hp
  exact ⟨table, conditions, rfl, by simpa [Stmt.lexemes] using hfol⟩

/-! ## INSERT -/

theorem findValuesCloseParen_eq_some {data after : Bytes} : ∀ {inQuote : Bool} {s : Bytes},
    Parser.findValuesCloseParen inQuote s = some (data, after) →
      s = data ++ 41 :: after ∧ closed inQuote data = true := by
  intro inQuote s
  induction s generalizing inQuote data with
  | nil => exact fun h => nomatch h
  | cons c s ih =>
      intro h
      rw [Parser.findValuesCloseParen] at h
      by_cases hquote : c = 39
      · rw [if_pos hquote] at h
        obtain ⟨⟨a, r⟩, hrest, heq⟩ := Option.map_eq_some_iff.1 h
        cases heq
        obtain ⟨rfl, hcl⟩ := ih hrest
        exact ⟨rfl, by rw [closed, if_pos hquote]; exact hcl⟩
      · rw [if_neg hquote] at h
        by_cases hclose : (c = 41 && !inQuote) = true
        · rw [if_pos hclose] at h
          cases h
          rw [Bool.and_eq_true, decide_eq_true_eq] at hclose
          exact ⟨by rw [hclose.1]; rfl, hclose.2⟩
        · rw [if_neg hclose] at h
          obtain ⟨⟨a, r⟩, hrest, heq⟩ := Option.map_eq_some_iff.1 h
          cases heq
          obtain ⟨rfl, hcl⟩ := ih hrest
          exact ⟨rfl, by rw [closed, if_neg hquote, if_neg hclose]; exact hcl⟩

theorem valuesText_eq {data after : Bytes} (h : textBehind 5 text = data ++ 41 :: after)
    (hafter : after.all isSpace = true) : valuesText text = data := by
  have hrev : (data ++ 41 :: after).reverse = after.reverse ++ 41 :: data.reverse := by simp
  have hskip := (@span_append _ isSpace after.reverse (41 :: data.reverse)
    (by rw [List.all_reverse]; exact hafter) (by simp [isSpace])).2
  unfold valuesText
  rw [h, hrev, hskip, List.drop_one, List.tail_cons, List.reverse_reverse]

theorem Before.parseInsert (h : Before p b text) (htype : p.currentToken.type = .insert)
    {stmt : Statement} (hp : p.parseInsert .zero = some (stmt, p'))
    (htable : (fullTokenAt 2 text).text.length ≤ 255)
    (hvalues : (valuesText text).length ≤ 1023) :
    ∃ (table : Name 255) (values : Values) (tail : Bytes),
      stmt = (Stmt.insert table values).fill ∧ (Stmt.insert table values).Tail tail ∧
      Rendered tail b (Stmt.insert table values).lexemes text := by
  obtain ⟨p₁, hinto, hp⟩ := Option.bind_eq_some_iff.1 hp
  obtain ⟨⟨tbuf, p₂⟩, hid, hp⟩ := Option.bind_eq_some_iff.1 hp
  obtain ⟨p₃, hkey, hp⟩ := Option.bind_eq_some_iff.1 hp
  obtain ⟨hintot, rfl⟩ := expect_eq_some hinto
  obtain ⟨hidt, rfl, rfl⟩ := identifier_eq_some hid
  obtain ⟨hkeyt, rfl⟩ := expect_eq_some hkey
  dsimp only at hp
  split at hp
  · cases hp
  · rename_i hparen
    obtain ⟨⟨data, after⟩, hclose, hp⟩ := Option.bind_eq_some_iff.1 hp
    dsimp only at hp
    split at hp
    · rename_i hafter
      cases hp
      obtain ⟨h₁, hg₁⟩ := @Before.keyword _ _ _ h .insert htype
      obtain ⟨h₂, hg₂⟩ := @Before.keyword _ _ _ h₁ .into hintot
      have htext₁ : p.lexer = (nextFull text).2 := h.token.2.2
      have htext₂ : p.advance.lexer = (nextFull (nextFull text).2).2 := by
        rw [h₁.token.2.2, htext₁]
      have hfit : (nextFull p.advance.lexer).1.text.length ≤ 255 := by
        rw [htext₂]
        exact htable
      obtain ⟨hname, -, h₃, hg₃⟩ := h₂.name hidt hfit
      obtain ⟨h₄, hg₄⟩ := @Before.keyword _ _ _ h₃ .values hkeyt
      obtain ⟨ws, hws, hopen⟩ := @Before.symbol _ _ _ h₄ 40 (by rw [not_not.1 hparen]; decide)
      obtain ⟨hdata, hclosed⟩ := findValuesCloseParen_eq_some hclose
      have hbehind : textBehind 5 text = data ++ 41 :: after := by
        rw [← hdata, h₄.token.2.2, h₃.token.2.2, h₂.token.2.2, htext₂]
        rfl
      rw [valuesText_eq hbehind hafter] at hvalues
      have hnul : ∀ c ∈ data, c ≠ 0 := by
        intro c hc
        refine h₄.noNul c ?_
        rw [hopen, hdata]
        simp [hc]
      have hbytes : (strncpy 1023 data).bytes = data := by
        rw [strncpy_bytes hnul, List.take_of_length_le hvalues]
      refine ⟨⟨_, hname⟩, ⟨strncpy 1023 data, by rw [hbytes]; exact hclosed⟩,
        40 :: (data ++ 41 :: after), ?_, ⟨after, hafter, by rw [hbytes]⟩, ?_⟩
      · rw [strncpy_self]
        rfl
      · have hend : Rendered (40 :: (data ++ 41 :: after)) true []
            (p.advance.advance.advance.lexer) := by
          rw [hopen, hdata]
          exact .nil hws
        have hall := (((hg₁.trans hg₂).trans hg₃).trans hg₄) _ [] hend
        simpa [Stmt.lexemes] using hall
    · cases hp

end MiniDbms.Sql
