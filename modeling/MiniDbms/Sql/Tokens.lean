import MiniDbms.Sql.RoundTrip

/-!
# Complete tokens

The tokens of a text with their complete texts, which `get_next_token` cuts to 255
bytes, and the texts each kind of token is read from.
-/

namespace MiniDbms.Sql

/-- A token with its complete text. -/
structure FullToken where
  type : SqlTokenType
  text : Bytes
deriving DecidableEq

/-- The token at the front of a text, complete, and the text behind it. -/
def nextFull (text : Bytes) : FullToken × Bytes :=
  match text.dropWhile isSpace with
  | [] => (⟨.eof, []⟩, [])
  | c :: rest =>
    match symbolType c with
    | some type => (⟨type, [c]⟩, rest)
    | none =>
      if c = 39 then
        (⟨.string, rest.takeWhile (· != 39)⟩, (rest.dropWhile (· != 39)).drop 1)
      else if isAlpha c || c == 95 then
        (⟨keywordType (c :: rest.takeWhile isWordChar), c :: rest.takeWhile isWordChar⟩,
          rest.dropWhile isWordChar)
      else if isDigit c then
        (⟨.number, c :: rest.takeWhile isWordChar⟩, rest.dropWhile isWordChar)
      else (⟨.illegal, []⟩, c :: rest)

/-! ## Token types -/

def symbolByte : SqlTokenType → Option UInt8
  | .star => some 42
  | .comma => some 44
  | .eq => some 61
  | .lparen => some 40
  | .rparen => some 41
  | .semicolon => some 59
  | _ => none

theorem symbolByte_eq {c : UInt8} {type : SqlTokenType} (h : symbolType c = some type) :
    symbolByte type = some c := by
  have hall : ∀ c : UInt8, ∀ type ∈ symbolType c, symbolByte type = some c :=
    forall_byte (by decide +kernel)
  exact hall c type h

theorem keywordType_cases (s : Bytes) :
    (keywordType s = .identifier ∧ ∀ k : Keyword, s.map toUpper ≠ k.text) ∨
      ∃ k : Keyword, keywordType s = k.type ∧ s.map toUpper = k.text := by
  by_cases h : ∃ k : Keyword, s.map toUpper = k.text
  · obtain ⟨k, hk⟩ := h
    exact Or.inr ⟨k, keywordType_of_text hk, hk⟩
  · have hfree : ∀ k : Keyword, s.map toUpper ≠ k.text := fun k hk => h ⟨k, hk⟩
    exact Or.inl ⟨keywordType_of_free hfree, hfree⟩

theorem Keyword.type_spec (k : Keyword) : k.type ≠ .identifier ∧ symbolByte k.type = none ∧
    k.type ≠ .eof ∧ k.type ≠ .illegal ∧ k.type ≠ .string ∧ k.type ≠ .number := by
  cases k <;> decide

theorem Keyword.type_inj {k k' : Keyword} (h : k.type = k'.type) : k = k' := by
  cases k <;> cases k' <;> first | rfl | cases h

theorem Keyword.text_inj {k k' : Keyword} (h : k.text = k'.text) : k = k' := by
  refine Keyword.type_inj ?_
  have hk := @keywordType_of_text k (k.text) (by cases k <;> rfl)
  have hk' := @keywordType_of_text k' (k'.text) (by cases k' <;> rfl)
  rw [← hk, ← hk', h]

theorem keywordType_not_symbol (s : Bytes) : symbolByte (keywordType s) = none := by
  rcases keywordType_cases s with ⟨h, -⟩ | ⟨k, h, -⟩
  · rw [h]
    rfl
  · rw [h]
    exact k.type_spec.2.1

/-! ## Reading a token -/

/-- How a token stands at the front of a text. -/
inductive Scanned : Bytes → FullToken → Bytes → Prop
  | eof {ws : Bytes} (hws : ws.all isSpace = true) : Scanned ws ⟨.eof, []⟩ []
  | symbol {ws rest : Bytes} {c : UInt8} {type : SqlTokenType} (hws : ws.all isSpace = true)
      (hc : symbolType c = some type) : Scanned (ws ++ ([c] ++ rest)) ⟨type, [c]⟩ rest
  | quoted {ws s rest : Bytes} (hws : ws.all isSpace = true) (hs : 39 ∉ s) :
      Scanned (ws ++ (39 :: (s ++ [39]) ++ rest)) ⟨.string, s⟩ rest
  | unclosed {ws s : Bytes} (hws : ws.all isSpace = true) (hs : 39 ∉ s) :
      Scanned (ws ++ 39 :: s) ⟨.string, s⟩ []
  | word {ws w rest : Bytes} {c : UInt8} (hws : ws.all isSpace = true)
      (hc : isAlpha c = true ∨ c = 95) (hw : w.all isWordChar = true)
      (hrest : ∀ d ∈ rest.head?, isWordChar d = false) :
      Scanned (ws ++ (c :: w ++ rest)) ⟨keywordType (c :: w), c :: w⟩ rest
  | number {ws w rest : Bytes} {c : UInt8} (hws : ws.all isSpace = true)
      (hc : isDigit c = true) (hw : w.all isWordChar = true)
      (hrest : ∀ d ∈ rest.head?, isWordChar d = false) :
      Scanned (ws ++ (c :: w ++ rest)) ⟨.number, c :: w⟩ rest
  | illegal {ws rest : Bytes} {c : UInt8} (hws : ws.all isSpace = true)
      (hspace : isSpace c = false) (hsymbol : symbolType c = none) (hquote : c ≠ 39)
      (hstart : (isAlpha c || c == 95) = false) (hdigit : isDigit c = false) :
      Scanned (ws ++ c :: rest) ⟨.illegal, []⟩ (c :: rest)

theorem span_split (p : UInt8 → Bool) (s : Bytes) :
    s = s.takeWhile p ++ s.dropWhile p ∧ (s.takeWhile p).all p = true ∧
      ∀ c ∈ (s.dropWhile p).head?, p c = false := by
  refine ⟨List.takeWhile_append_dropWhile.symm, List.all_takeWhile, ?_⟩
  intro c hc
  cases hd : s.dropWhile p with
  | nil =>
      rw [hd] at hc
      cases hc
  | cons d rest =>
      rw [hd] at hc
      cases hc
      have hne : s.dropWhile p ≠ [] := by rw [hd]; simp
      have hhead := List.head_dropWhile_not p hne
      simpa [hd] using hhead

theorem nextFull_scanned (text : Bytes) : Scanned text (nextFull text).1 (nextFull text).2 := by
  obtain ⟨htext, hws, hhead⟩ := span_split isSpace text
  generalize text.takeWhile isSpace = ws at htext hws
  unfold nextFull
  generalize text.dropWhile isSpace = body at htext hhead
  subst htext
  cases body with
  | nil =>
      rw [List.append_nil]
      exact .eof hws
  | cons c rest =>
      dsimp only
      cases hsym : symbolType c with
      | some type => exact .symbol hws hsym
      | none =>
          dsimp only
          by_cases hquote : c = 39
          · subst hquote
            rw [if_pos rfl]
            obtain ⟨hrest, hall, hnext⟩ := span_split (· != 39) rest
            generalize rest.takeWhile (· != 39) = s at hrest hall
            generalize rest.dropWhile (· != 39) = more at hrest hnext
            subst hrest
            have hs : 39 ∉ s := fun hmem => by
              have := List.all_eq_true.1 hall 39 hmem
              simp at this
            cases more with
            | nil =>
                rw [List.append_nil]
                exact .unclosed hws hs
            | cons d more =>
                have hd : d = 39 := by simpa using hnext d rfl
                subst hd
                have hform : ws ++ 39 :: (s ++ 39 :: more) =
                    ws ++ (39 :: (s ++ [39]) ++ more) := by simp
                rw [hform]
                exact .quoted hws hs
          · rw [if_neg hquote]
            obtain ⟨hrest, hall, hnext⟩ := span_split isWordChar rest
            generalize rest.takeWhile isWordChar = w at hrest hall
            generalize rest.dropWhile isWordChar = more at hrest hnext
            subst hrest
            by_cases halpha : (isAlpha c || c == 95) = true
            · rw [if_pos halpha]
              exact .word hws (by simpa using halpha) hall hnext
            · rw [if_neg halpha]
              by_cases hdigit : isDigit c = true
              · rw [if_pos hdigit]
                exact .number hws hdigit hall hnext
              · rw [if_neg hdigit]
                exact .illegal hws (hhead c rfl) hsym hquote (Bool.eq_false_iff.2 halpha)
                  (Bool.eq_false_iff.2 hdigit)

theorem quoted_form (s rest : Bytes) : 39 :: (s ++ [39]) ++ rest = 39 :: (s ++ 39 :: rest) := by
  simp

theorem all_ne_quote {s : Bytes} (hs : 39 ∉ s) : s.all (· != 39) = true := by
  rw [List.all_eq_true]
  intro c hc
  exact bne_iff_ne.2 fun h => hs (h ▸ hc)

/-- The token is determined by how it stands there. -/
theorem Scanned.nextFull {text rest : Bytes} {t : FullToken} (h : Scanned text t rest) :
    nextFull text = (t, rest) := by
  unfold Sql.nextFull
  cases h with
  | eof hws =>
      have hskip := (@span_append _ isSpace text [] hws (by simp)).2
      rw [List.append_nil] at hskip
      rw [hskip]
  | symbol hws hc =>
      have hspace := (symbolType_spec _ (by rw [hc]; rfl)).1
      rw [(span_append hws (by simpa using hspace)).2]
      simp only [List.singleton_append, hc]
  | @quoted ws s rest hws hs =>
      obtain ⟨htake, hdrop⟩ := @span_append _ (· != 39) s (39 :: rest) (all_ne_quote hs) (by simp)
      have hsymbol : symbolType 39 = none := by decide
      rw [quoted_form, (span_append hws (by simp [isSpace])).2]
      simp only [hsymbol, if_true, htake, hdrop, List.drop_one, List.tail_cons]
  | @unclosed ws s hws hs =>
      obtain ⟨htake, hdrop⟩ := @span_append _ (· != 39) s [] (all_ne_quote hs) (by simp)
      rw [List.append_nil] at htake hdrop
      have hsymbol : symbolType 39 = none := by decide
      rw [(span_append hws (by simp [isSpace])).2]
      simp only [hsymbol, if_true, htake, hdrop, List.drop_nil]
  | @word ws w rest c hws hc hw hrest =>
      obtain ⟨-, hspace, hsymbol, hquote, hstart⟩ := wordStart_spec c hc
      obtain ⟨htake, hdrop⟩ := span_append hw hrest
      rw [(span_append hws (by simpa using hspace)).2]
      simp only [List.cons_append, hsymbol, hquote, hstart, if_false, if_true, htake, hdrop]
  | @number ws w rest c hws hc hw hrest =>
      obtain ⟨-, hspace, hsymbol, hquote, hstart⟩ := digit_spec c hc
      obtain ⟨htake, hdrop⟩ := span_append hw hrest
      rw [(span_append hws (by simpa using hspace)).2]
      simp only [List.cons_append, hsymbol, hquote, hstart, hc, if_false, if_true, htake, hdrop,
        Bool.false_eq_true]
  | @illegal ws rest c hws hspace hsymbol hquote hstart hdigit =>
      rw [(span_append hws (by simpa using hspace)).2]
      simp only [hsymbol, hquote, hstart, hdigit, if_false, Bool.false_eq_true]

/-- A word that is too long for a keyword is cut to one that is, too. -/
theorem keywordType_take (s : Bytes) : keywordType (s.take 255) = keywordType s := by
  by_cases hlen : s.length ≤ 255
  · rw [List.take_of_length_le hlen]
  · have hlong : ∀ s : Bytes, 7 < s.length → keywordType s = .identifier := by
      intro s hs
      have hne : ∀ k : Keyword, s.map toUpper ≠ k.text := by
        intro k hk
        have hlen := congrArg List.length hk
        rw [List.length_map] at hlen
        have hk7 : k.text.length ≤ 7 := by cases k <;> decide
        omega
      exact keywordType_of_free hne
    rw [hlong s (by omega), hlong (s.take 255) (by rw [List.length_take]; omega)]

/-- The lexer reads the complete token, cut to 255 bytes. -/
theorem getNextToken_eq {text : Bytes} (hnul : ∀ c ∈ text, c ≠ 0) :
    getNextToken text =
      (⟨(nextFull text).1.type, strncpy 255 (nextFull text).1.text⟩, (nextFull text).2) := by
  have hsub : ∀ c ∈ text.dropWhile isSpace, c ≠ 0 :=
    fun c hc => hnul c ((List.dropWhile_sublist _).subset hc)
  unfold getNextToken nextFull
  cases hd : text.dropWhile isSpace with
  | nil => rfl
  | cons c rest =>
      rw [hd] at hsub
      dsimp only
      cases symbolType c with
      | some type => rfl
      | none =>
          dsimp only
          by_cases hquote : c = 39
          · rw [if_pos hquote, if_pos hquote]
          · rw [if_neg hquote, if_neg hquote]
            by_cases halpha : (isAlpha c || c == 95) = true
            · rw [if_pos halpha, if_pos halpha]
              have hword : ∀ d ∈ c :: rest.takeWhile isWordChar, d ≠ 0 := by
                intro d hd
                rcases List.mem_cons.1 hd with rfl | hd
                · exact hsub d List.mem_cons_self
                · exact hsub d (List.mem_cons_of_mem _ ((List.takeWhile_sublist _).subset hd))
              rw [strncpy_bytes hword, keywordType_take]
            · rw [if_neg halpha, if_neg halpha]
              by_cases hdigit : isDigit c = true
              · rw [if_pos hdigit, if_pos hdigit]
              · rw [if_neg hdigit, if_neg hdigit]
                rfl

end MiniDbms.Sql
