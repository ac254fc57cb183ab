import MiniDbms.Sql.Exact

/-!
# The parser alters only what does not fit

A rendering of a statement always fits, so an accepted text is a rendering of what comes
out exactly when it fits.
-/

namespace MiniDbms.Sql

variable {tail text : Bytes} {b : Bool} {l : Lexeme} {ls : List Lexeme}

/-! ## The complete tokens of a rendering -/

/-- The complete token that a lexeme is read as. -/
def Complete : Lexeme → FullToken → Prop
  | .keyword k, t => t.type = k.type ∧ t.text.length ≤ 49
  | .name s, t => t.type = .identifier ∧ t.text = s.bytes
  | .literal s, t => (t.type = .string ∨ t.type = .number ∨ t.type = .identifier) ∧
      t.text = s.bytes
  | .symbol c, t => symbolType c = some t.type ∧ t.text = [c]

theorem Rendered.nextFull (htail : ∀ c ∈ tail.head?, isWordChar c = false)
    (h : Rendered tail b (l :: ls) text) :
    Complete l (nextFull text).1 ∧ ∃ b', Rendered tail b' ls (nextFull text).2 := by
  cases h with
  | cons hws hs hsep hrest =>
      rename_i ws s rest
      have hend : s.all isWordChar = true → ∀ c ∈ rest.head?, isWordChar c = false := by
        intro hword
        rw [hword] at hrest
        exact hrest.head htail
      have hnext : ∀ {t : FullToken}, Scanned (ws ++ (s ++ rest)) t rest → Complete l t →
          Complete l (Sql.nextFull (ws ++ (s ++ rest))).1 ∧
            ∃ b', Rendered tail b' ls (Sql.nextFull (ws ++ (s ++ rest))).2 := by
        intro t hscan hcomplete
        rw [hscan.nextFull]
        exact ⟨hcomplete, _, hrest⟩
      have hname : ∀ {buf : CBuf 255}, IsName buf.bytes → s = buf.bytes →
          Scanned (ws ++ (s ++ rest)) ⟨.identifier, s⟩ rest := by
        intro buf hbuf hsbuf
        obtain ⟨c, w, hcw, hc, hw⟩ := hbuf.shape
        rw [hcw] at hsbuf
        have hword : s.all isWordChar = true := by
          rw [hsbuf]
          exact all_cons_word (wordStart_spec c hc).1 hw
        have hscan := Scanned.word hws hc hw (hend hword)
        rw [← hsbuf] at hscan
        have htype : keywordType s = .identifier := by
          rw [hsbuf, ← hcw]
          exact hbuf.keywordType
        rwa [htype] at hscan
      cases hs with
      | @keyword k s h =>
          obtain ⟨c, w, rfl, hc, hw, -⟩ := keyword_shape h
          have hword := all_cons_word (wordStart_spec c (Or.inl hc)).1 hw
          refine hnext (.word hws (Or.inl hc) hw (hend hword)) ⟨keywordType_of_text h, ?_⟩
          have hlen := congrArg List.length h
          rw [List.length_map] at hlen
          have hk : k.text.length ≤ 49 := by cases k <;> decide
          exact hlen.le.trans hk
      | name h => exact hnext (hname h rfl) ⟨rfl, rfl⟩
      | quoted h => exact hnext (.quoted hws h) ⟨Or.inl rfl, rfl⟩
      | bareName h => exact hnext (hname h rfl) ⟨Or.inr (Or.inr rfl), rfl⟩
      | @number buf c w hs hc hw =>
          have hscan := Scanned.number hws hc hw
            (hend (hs ▸ all_cons_word (digit_spec _ hc).1 hw))
          rw [← hs] at hscan
          exact hnext hscan ⟨Or.inr (Or.inl rfl), rfl⟩
      | symbol h =>
          obtain ⟨type, htype⟩ := Option.isSome_iff_exists.1 (symbol_spec _ h).2.2.2.2
          exact hnext (.symbol hws htype) ⟨htype, rfl⟩

theorem Complete.not_terminal {t : FullToken} (h : Complete l t) : ¬ Terminal t := by
  have hsym : ∀ {c : UInt8} {type : SqlTokenType}, symbolType c = some type →
      type ≠ .eof ∧ type ≠ .illegal := by
    intro c type hc
    have hbyte := symbolByte_eq hc
    constructor
    · rintro rfl
      cases hbyte
    · rintro rfl
      cases hbyte
  rintro (ht | ht)
  · cases l with
    | keyword k => exact k.type_spec.2.2.1 (h.1.symm.trans ht)
    | name s => cases h.1.symm.trans ht
    | literal s =>
        obtain ⟨h₁ | h₁ | h₁, -⟩ := h <;> cases h₁.symm.trans ht
    | symbol c => exact (hsym h.1).1 ht
  · cases l with
    | keyword k => exact k.type_spec.2.2.2.1 (h.1.symm.trans ht)
    | name s => cases h.1.symm.trans ht
    | literal s =>
        obtain ⟨h₁ | h₁ | h₁, -⟩ := h <;> cases h₁.symm.trans ht
    | symbol c => exact (hsym h.1).2 ht

theorem Rendered.tokensOf (h : Rendered [] b ls text) :
    List.Forall₂ Complete ls (tokensOf text) := by
  induction ls generalizing b text with
  | nil =>
      cases h with
      | nil hws =>
          rename_i ws
          have hscan : Scanned (ws ++ []) ⟨.eof, []⟩ [] := by
            rw [List.append_nil]
            exact .eof hws
          rw [tokensOf_nil (by rw [hscan.nextFull]; exact Or.inl rfl)]
          exact .nil
  | cons l ls ih =>
      obtain ⟨hc, b', hrest⟩ := h.nextFull (by simp)
      rw [tokensOf_cons hc.not_terminal]
      exact .cons hc (ih hrest)

/-! ## Every statement fits -/

/-- The room for what stands in front of these. -/
def room : List Lexeme → Nat
  | .keyword .from :: _ => 49
  | .keyword .between :: _ => 49
  | .symbol c :: _ => if c = 44 ∨ c = 61 then 49 else 255
  | _ => 255

def Lexeme.size : Lexeme → Nat
  | .keyword _ => 49
  | .name s => s.bytes.length
  | .literal s => s.bytes.length
  | .symbol _ => 1

def Roomy : List Lexeme → Prop
  | [] => True
  | l :: ls => l.size ≤ room ls ∧ Roomy ls

theorem Complete.size {t : FullToken} (h : Complete l t) : t.text.length ≤ l.size := by
  cases l with
  | keyword k => exact h.2
  | name s => exact (congrArg List.length h.2).le
  | literal s => exact (congrArg List.length h.2).le
  | symbol c => exact (congrArg List.length h.2).le

theorem room_le {ts : List FullToken} (h : List.Forall₂ Complete ls ts) :
    room ls ≤ roomBefore ts := by
  cases h with
  | nil => exact le_rfl
  | @cons l t ls ts hc hrest =>
      unfold roomBefore
      dsimp only
      cases l with
      | keyword k =>
          rw [hc.1]
          cases k <;> exact le_rfl
      | name s =>
          rw [hc.1]
          exact le_rfl
      | literal s =>
          obtain ⟨h₁ | h₁ | h₁, -⟩ := hc <;> rw [h₁] <;> exact le_rfl
      | symbol c =>
          have hbyte := symbolByte_eq hc.1
          have hroom : room (.symbol c :: ls) = if c = 44 ∨ c = 61 then 49 else 255 := rfl
          rw [hroom]
          by_cases hcol : c = 44 ∨ c = 61
          · rw [if_pos hcol]
            split <;> decide
          · rw [if_neg hcol]
            rw [not_or] at hcol
            split <;> rename_i heq <;> try rw [heq] at hbyte
            · exact absurd (Option.some.inj hbyte).symm hcol.1
            · cases hbyte
            · exact absurd (Option.some.inj hbyte).symm hcol.2
            · cases hbyte
            · exact le_rfl

theorem Roomy.fit {ts : List FullToken} (hr : Roomy ls) (h : List.Forall₂ Complete ls ts) :
    Fit ts := by
  induction h with
  | nil => trivial
  | cons hc hrest ih => exact ⟨hc.size.trans (hr.1.trans (room_le hrest)), ih hr.2⟩

theorem Roomy.condition (condition : Condition) (hr : Roomy ls) (hroom : room ls = 255) :
    Roomy (condition.lexemes ++ ls) := by
  cases condition with
  | eq col val =>
      exact ⟨col.buf.fits, (by decide : 1 ≤ 255), val.buf.fits.trans hroom.ge, hr⟩
  | between col val endVal =>
      exact ⟨col.buf.fits, (by decide : 49 ≤ 255), val.buf.fits, (by decide : 49 ≤ 255),
        endVal.buf.fits.trans hroom.ge, hr⟩

theorem roomy_more (conditions : List Condition) :
    Roomy (conditions.flatMap fun condition => .keyword .and :: condition.lexemes) ∧
      room (conditions.flatMap fun condition => .keyword .and :: condition.lexemes) = 255 := by
  induction conditions with
  | nil => exact ⟨trivial, rfl⟩
  | cons condition conditions ih =>
      have hcond := Roomy.condition condition ih.1 ih.2
      rw [List.flatMap_cons]
      refine ⟨⟨?_, hcond⟩, rfl⟩
      cases condition with
      | eq col val => exact (by decide : 49 ≤ 255)
      | between col val endVal => exact (by decide : 49 ≤ 255)

theorem Conditions.roomy (conditions : Conditions) :
    Roomy conditions.lexemes ∧ room conditions.lexemes = 255 := by
  obtain ⟨list, bound⟩ := conditions
  cases list with
  | nil => exact ⟨trivial, rfl⟩
  | cons first rest =>
      obtain ⟨hr, hroom⟩ := roomy_more rest
      refine ⟨⟨?_, Roomy.condition first hr hroom⟩, rfl⟩
      cases first with
      | eq col val => exact (by decide : 49 ≤ 255)
      | between col val endVal => exact (by decide : 49 ≤ 255)

theorem Columns.roomy (columns : Columns) (hr : Roomy ls) (hroom : room ls = 49) :
    Roomy (columns.lexemes ++ ls) := by
  cases columns with
  | star => exact ⟨(by decide : 1 ≤ 49).trans hroom.ge, hr⟩
  | list col cols bound =>
      have hcols : Roomy (cols.flatMap (fun col => [.symbol 44, .name (widen col.buf)]) ++ ls) ∧
          room (cols.flatMap (fun col => [.symbol 44, .name (widen col.buf)]) ++ ls) = 49 := by
        clear bound
        induction cols with
        | nil => exact ⟨hr, hroom⟩
        | cons c cols ih =>
            rw [List.flatMap_cons]
            refine ⟨⟨(by decide : 1 ≤ 255), ?_, ih.1⟩, rfl⟩
            exact c.buf.fits.trans ih.2.ge
      exact ⟨col.buf.fits.trans hcols.2.ge, hcols.1⟩

theorem Stmt.roomy (stmt : Stmt) : Roomy stmt.lexemes := by
  cases stmt with
  | select columns table conditions =>
      obtain ⟨hr, hroom⟩ := conditions.roomy
      have hfrom : Roomy (.keyword .from :: .name table.buf :: conditions.lexemes) :=
        ⟨(by decide : 49 ≤ 255), table.buf.fits.trans hroom.ge, hr⟩
      refine ⟨?_, columns.roomy hfrom rfl⟩
      cases columns with
      | star => exact (by decide : 49 ≤ 255)
      | list col cols bound => exact (by decide : 49 ≤ 255)
  | update table col val conditions =>
      obtain ⟨hr, hroom⟩ := conditions.roomy
      exact ⟨(by decide : 49 ≤ 255), table.buf.fits, (by decide : 49 ≤ 255), col.buf.fits,
        (by decide : 1 ≤ 255), val.buf.fits.trans hroom.ge, hr⟩
  | delete table conditions =>
      obtain ⟨hr, hroom⟩ := conditions.roomy
      exact ⟨(by decide : 49 ≤ 49), (by decide : 49 ≤ 255), table.buf.fits.trans hroom.ge, hr⟩
  | insert table values =>
      exact ⟨(by decide : 49 ≤ 255), (by decide : 49 ≤ 255), table.buf.fits,
        (by decide : 49 ≤ 255), trivial⟩

/-! ## Quotes of a rendering -/

theorem Spells.quotes {s : Bytes} (h : Spells l s) : s.count 39 % 2 = 0 := by
  cases h with
  | keyword h =>
      obtain ⟨c, w, rfl, hc, hw, -⟩ := keyword_shape h
      rw [count_quote_word (all_cons_word (wordStart_spec c (Or.inl hc)).1 hw)]
  | name h =>
      obtain ⟨c, w, hs, hc, hw⟩ := h.shape
      rw [hs, count_quote_word (all_cons_word (wordStart_spec c hc).1 hw)]
  | quoted h =>
      rw [List.count_cons_self, List.count_append, List.count_eq_zero.2 h,
        List.count_singleton_self]
  | bareName h =>
      obtain ⟨c, w, hs, hc, hw⟩ := h.shape
      rw [hs, count_quote_word (all_cons_word (wordStart_spec c hc).1 hw)]
  | number hs hc hw => rw [hs, count_quote_word (all_cons_word (digit_spec _ hc).1 hw)]
  | @symbol c h =>
      have hne : c ≠ 39 := by
        rintro rfl
        exact absurd h (by decide)
      rw [List.count_singleton, if_neg (by simpa using hne)]

theorem Rendered.quotes (h : Rendered tail b ls text) : text.count 39 % 2 = tail.count 39 % 2 := by
  induction h with
  | nil hws => rw [List.count_append, count_quote_spaces hws, Nat.zero_add]
  | cons hws hs _ _ ih =>
      have hq := hs.quotes
      rw [List.count_append, List.count_append, count_quote_spaces hws]
      omega

theorem closed_quotes {s : Bytes} : ∀ {inQuote : Bool}, closed inQuote s = true →
    (s.count 39 + inQuote.toNat) % 2 = 0 := by
  induction s with
  | nil =>
      intro inQuote h
      cases inQuote with
      | true => cases h
      | false => rfl
  | cons c s ih =>
      intro inQuote h
      rw [closed] at h
      by_cases hquote : c = 39
      · rw [if_pos hquote] at h
        have hrest := ih h
        rw [hquote, List.count_cons_self]
        cases inQuote with
        | true =>
            simp only [Bool.not_true, Bool.toNat_false, Bool.toNat_true] at hrest ⊢
            omega
        | false =>
            simp only [Bool.not_false, Bool.toNat_false, Bool.toNat_true] at hrest ⊢
            omega
      · rw [if_neg hquote] at h
        rw [List.count_cons_of_ne hquote]
        split at h
        · cases h
        · exact ih h

theorem Stmt.Tail.quotes {stmt : Stmt} (h : stmt.Tail tail) : tail.count 39 % 2 = 0 := by
  cases stmt with
  | insert table values =>
      obtain ⟨ws, hws, rfl⟩ := h
      have hq := closed_quotes values.closed
      rw [List.count_cons_of_ne (by decide), List.count_append,
        List.count_cons_of_ne (by decide), count_quote_spaces hws]
      exact hq
  | select columns table conditions => rw [show tail = [] from h]; rfl
  | update table col val conditions => rw [show tail = [] from h]; rfl
  | delete table conditions => rw [show tail = [] from h]; rfl

/-! ## Main results -/

theorem cstr_cstr (sql : Bytes) : cstr (cstr sql) = cstr sql :=
  cstr_eq_self fun _ hb => ne_zero_of_mem_cstr hb

/-- A text with an odd number of quotes renders nothing. -/
theorem Renders.quotes {stmt : Stmt} {sql : Bytes} (h : Renders stmt (cstr sql)) :
    (initLexer (cstr sql)).count 39 % 2 = 0 := by
  obtain ⟨tail, text, htail, htext, hsql⟩ := h
  have hinit : initLexer (cstr (cstr sql)) = text := by
    cases stmt <;> exact initLexer_rendered htail.bytes htext hsql
  rw [cstr_cstr] at hinit
  rw [hinit, htext.quotes]
  exact htail.quotes

theorem Renders.fits {stmt : Stmt} {sql : Bytes} (h : Renders stmt (cstr sql)) : Fits sql := by
  refine ⟨h.quotes, ?_⟩
  obtain ⟨tail, text, htail, htext, hsql⟩ := h
  have hinit : initLexer (cstr (cstr sql)) = text := by
    cases stmt <;> exact initLexer_rendered htail.bytes htext hsql
  rw [cstr_cstr] at hinit
  rw [hinit]
  have hstop := htail.stop
  have hother : tail = [] → ¬ (nextFull text).1.type = .insert →
      (if (nextFull text).1.type = .insert then
        (fullTokenAt 2 text).text.length ≤ 255 ∧ (valuesText text).length ≤ 1023
      else Fit (tokensOf text)) := by
    rintro rfl hne
    rw [if_neg hne]
    exact stmt.roomy.fit htext.tokensOf
  cases stmt with
  | select columns table conditions =>
      refine hother htail ?_
      rw [(htext.nextFull hstop).1.1]
      decide
  | update table col val conditions =>
      refine hother htail ?_
      rw [(htext.nextFull hstop).1.1]
      decide
  | delete table conditions =>
      refine hother htail ?_
      rw [(htext.nextFull hstop).1.1]
      decide
  | insert table values =>
      obtain ⟨ws, hws, rfl⟩ := htail
      obtain ⟨hc₁, b₁, h₁⟩ := htext.nextFull hstop
      obtain ⟨-, b₂, h₂⟩ := h₁.nextFull hstop
      obtain ⟨hc₃, b₃, h₃⟩ := h₂.nextFull hstop
      obtain ⟨-, b₄, h₄⟩ := h₃.nextFull hstop
      have hinsert : (nextFull text).1.type = .insert := hc₁.1
      rw [if_pos hinsert]
      constructor
      · have htable : (fullTokenAt 2 text).text = table.buf.bytes := hc₃.2
        rw [htable]
        exact table.buf.fits
      · have hbehind : textBehind 5 text = values.buf.bytes ++ 41 :: ws := by
          have hopen : textBehind 5 text = (nextFull (textBehind 4 text)).2 := rfl
          have hfour : Rendered (40 :: (values.buf.bytes ++ 41 :: ws)) b₄ [] (textBehind 4 text) :=
            h₄
          rw [hopen]
          generalize textBehind 4 text = text₄ at hfour
          cases hfour with
          | nil hsp =>
              rename_i w
              have hscan : Scanned (w ++ ([40] ++ (values.buf.bytes ++ 41 :: ws))) ⟨.lparen, [40]⟩
                (values.buf.bytes ++ 41 :: ws) := .symbol hsp (by decide)
              exact congrArg Prod.snd hscan.nextFull
        rw [valuesText_eq hbehind hws]
        exact values.buf.fits

theorem initLexer_noNul {sql : Bytes} : ∀ c ∈ initLexer (cstr sql), c ≠ 0 := by
  intro c hc
  unfold initLexer at hc
  split at hc
  · exact ne_zero_of_mem_cstr (List.mem_of_mem_drop hc)
  · exact ne_zero_of_mem_cstr hc

theorem initLexer_cases (sql : Bytes) :
    cstr sql = initLexer (cstr sql) ∨ cstr sql = bom ++ initLexer (cstr sql) := by
  unfold initLexer
  split
  · rename_i hbom
    refine Or.inr ?_
    have hsplit := (List.take_append_drop 3 (cstr sql)).symm
    rw [hbom] at hsplit
    exact hsplit
  · exact Or.inl rfl

theorem finishStatement_eq_some {parsed : Option (Statement × Parser)} {stmt : Statement}
    (h : Parser.finishStatement parsed = some stmt) :
    ∃ p, parsed = some (stmt, p) ∧ p.currentToken.type = .eof := by
  obtain ⟨⟨stmt', p⟩, hparsed, h⟩ := Option.bind_eq_some_iff.1 h
  dsimp only at h
  split at h
  · rename_i heof
    cases h
    exact ⟨p, hparsed, heof⟩
  · cases h

theorem renders_of_fits {sql : Bytes} {stmt : Statement} (h : parseStatement sql = some stmt)
    (hfits : Fits sql) : ∃ s : Stmt, s.fill = stmt ∧ Renders s (cstr sql) := by
  have hsql := initLexer_cases sql
  have hnul := @initLexer_noNul sql
  unfold parseStatement at h
  unfold Fits at hfits
  generalize initLexer (cstr sql) = text at h hfits hsql hnul
  generalize hp : Parser.advance ⟨text, ⟨.eof, .empty⟩⟩ = p at h
  have hbefore : Before p false text := ⟨by rw [← hp]; rfl, by simp, hnul⟩
  have htype := hbefore.token.1
  dsimp only at h hfits
  have hfollows : (nextFull text).1.type ≠ .insert → Follows false text [] p := by
    intro hne
    rw [if_neg hne] at hfits
    exact ⟨false, text, hbefore, ⟨hfits.1, hfits.2⟩, fun tail ls' hrest => hrest⟩
  split at h
  · rename_i hsel
    obtain ⟨p', hparsed, heof⟩ := finishStatement_eq_some h
    obtain ⟨columns, table, conditions, hstmt, hfol⟩ :=
      (hfollows (by rw [← htype, hsel]; decide)).parseSelect hsel hparsed
    exact ⟨_, hstmt.symm, [], text, rfl, hfol.eof heof, hsql⟩
  · rename_i hins
    obtain ⟨p', hparsed, -⟩ := finishStatement_eq_some h
    rw [if_pos (by rw [← htype]; exact hins)] at hfits
    obtain ⟨table, values, tail, hstmt, htail, hrend⟩ :=
      hbefore.parseInsert hins hparsed hfits.2.1 hfits.2.2
    exact ⟨_, hstmt.symm, tail, text, htail, hrend, hsql⟩
  · rename_i hupd
    obtain ⟨p', hparsed, heof⟩ := finishStatement_eq_some h
    obtain ⟨table, col, val, conditions, hstmt, hfol⟩ :=
      (hfollows (by rw [← htype, hupd]; decide)).parseUpdate hupd hparsed
    exact ⟨_, hstmt.symm, [], text, rfl, hfol.eof heof, hsql⟩
  · rename_i hdel
    obtain ⟨p', hparsed, heof⟩ := finishStatement_eq_some h
    obtain ⟨table, conditions, hstmt, hfol⟩ :=
      (hfollows (by rw [← htype, hdel]; decide)).parseDelete hdel hparsed
    exact ⟨_, hstmt.symm, [], text, rfl, hfol.eof heof, hsql⟩
  · cases h

/-- The parser keeps what was written, every quoted literal being closed and every name and
value complete, exactly when the text fits. -/
theorem parseStatement_faithful_iff {sql : Bytes} {stmt : Statement}
    (h : parseStatement sql = some stmt) :
    (∃ s : Stmt, s.fill = stmt ∧ Renders s (cstr sql)) ↔ Fits sql :=
  ⟨fun ⟨_, _, hrend⟩ => hrend.fits, renders_of_fits h⟩

theorem parseStatement_faithful_delete :
    (∃ s : Stmt, some s.fill = parseStatement (str "DELETE FROM t WHERE a = 'x' AND b = 1") ∧
      Renders s (str "DELETE FROM t WHERE a = 'x' AND b = 1")) := by
  have hparse : (parseStatement (str "DELETE FROM t WHERE a = 'x' AND b = 1")).isSome = true := by
    decide +kernel
  obtain ⟨stmt, hstmt⟩ := Option.isSome_iff_exists.1 hparse
  obtain ⟨s, hs, hrend⟩ := (parseStatement_faithful_iff hstmt).2 (by decide +kernel)
  exact ⟨s, by rw [hs, hstmt], hrend⟩

/-- The quote is never closed, and the statement goes on to the end of the text. -/
theorem parseStatement_takes_open_quote :
    ∃ stmt, parseStatement (str "DELETE FROM t WHERE a = 'x") = some stmt ∧
      ¬ ∃ s : Stmt, s.fill = stmt ∧ Renders s (cstr (str "DELETE FROM t WHERE a = 'x")) := by
  have hparse : (parseStatement (str "DELETE FROM t WHERE a = 'x")).isSome = true := by
    decide +kernel
  obtain ⟨stmt, hstmt⟩ := Option.isSome_iff_exists.1 hparse
  refine ⟨stmt, hstmt, ?_⟩
  rintro ⟨s, -, hrend⟩
  exact absurd hrend.quotes (by decide +kernel)

end MiniDbms.Sql
