import MiniDbms.Api.Framing
import MiniDbms.Sql.RoundTrip

/-!
# The statements of a page

`page_sqls` of `route.c` pastes a parameter of the request between quotes.  A quote in it ends
the string early, and what is left of it then cannot be read to the end of the statement.
-/

namespace MiniDbms

open Sql

/-! ## Parameters -/

/-- `qry_get` into an array of `n + 1` bytes; no key holds a `&`. -/
def qryGet (n : Nat) (key qry : Bytes) : CBuf n :=
  match _h : qry.dropWhile (· != 61) with
  | [] => .empty
  | _ :: val =>
    if qry.takeWhile (· != 61) = key then strncpy n (val.takeWhile (· != 38))
    else
      match _h' : qry.dropWhile (· != 38) with
      | [] => .empty
      | _ :: next => qryGet n key next
termination_by qry.length
decreasing_by
  have hlen := (List.dropWhile_sublist (l := qry) (· != (38 : UInt8))).length_le
  rw [_h', List.length_cons] at hlen
  omega

/-- `zone_of`. -/
def zoneOf (lat lng : CBuf 63) : CBuf 63 :=
  if lat.bytes = str "37.5" ∧ lng.bytes = str "127.0" then strncpy 63 (str "seoul_east")
  else strncpy 63 (str "default")

/-- The user of a page. -/
def pageUser (req : Http.HttpReq) : CBuf 63 :=
  let user := qryGet 63 (str "user_id") req.qry.bytes
  if user.bytes = [] then strncpy 63 (str "1") else user

/-- `snprintf` of one of the statements into an array of 256 bytes. -/
def pasted (table col val : Bytes) : Bytes :=
  (str "SELECT * FROM " ++ (table ++ (str " WHERE " ++ (col ++
    (str " = '" ++ (val ++ [39])))))).take 255

structure PageSqls where
  sql0 : Bytes
  sql1 : Bytes
  sql2 : Bytes
  sql3 : Bytes

/-- `page_sqls`. -/
def pageSqls (req : Http.HttpReq) : PageSqls where
  sql0 := pasted (str "restaurants") (str "zone")
    (zoneOf (qryGet 63 (str "lat") req.qry.bytes) (qryGet 63 (str "lng") req.qry.bytes)).bytes
  sql1 := pasted (str "orders") (str "user_id") (pageUser req).bytes
  sql2 := pasted (str "coupons") (str "user_id") (pageUser req).bytes
  sql3 := pasted (str "cart") (str "user_id") (pageUser req).bytes

theorem mem_qryGet {n : Nat} {key : Bytes} (qry : Bytes) : ∀ {c : UInt8},
    c ∈ (qryGet n key qry).bytes → c ∈ qry := by
  induction hn : qry.length using Nat.strong_induction_on generalizing qry with
  | _ k ih =>
    intro c hc
    rw [qryGet] at hc
    split at hc
    · cases hc
    · rename_i d val hval
      split at hc
      · have hin : c ∈ val := by
          have htake := List.mem_of_mem_take hc
          exact (List.takeWhile_sublist _).subset ((List.takeWhile_sublist _).subset htake)
        apply (List.dropWhile_sublist (· != (61 : UInt8))).subset
        rw [hval]
        exact List.mem_cons_of_mem d hin
      · split at hc
        · cases hc
        · rename_i e next hnext
          have hlen := (List.dropWhile_sublist (l := qry) (· != (38 : UInt8))).length_le
          rw [hnext, List.length_cons] at hlen
          have hin := ih next.length (by omega) next rfl hc
          apply (List.dropWhile_sublist (· != (38 : UInt8))).subset
          rw [hnext]
          exact List.mem_cons_of_mem e hin

/-! ## Texts without white space -/

variable {s : Bytes}

theorem dropWhile_blank (h : ∀ c ∈ s, isSpace c = false) : s.dropWhile isSpace = s := by
  cases s with
  | nil => rfl
  | cons c s => exact List.dropWhile_cons_of_neg (by simp [h c List.mem_cons_self])

theorem symbolType_ne {c : UInt8} {type : SqlTokenType} (h : symbolType c = some type) :
    type ≠ .eof ∧ type ≠ .identifier ∧ type ≠ .and := by
  have hall : ∀ c : UInt8, (symbolType c).all
      (fun type => type != .eof && type != .identifier && type != .and) = true :=
    forall_byte (by decide +kernel)
  have hc := hall c
  rw [h] at hc
  simpa [and_assoc] using hc

theorem keywordType_ne_eof (text : Bytes) : keywordType text ≠ .eof := by
  unfold keywordType
  intro h
  simp only at h
  repeat' split at h
  all_goals cases h

theorem getNextToken_ne_eof (hne : s ≠ []) (h : ∀ c ∈ s, isSpace c = false) :
    (getNextToken s).1.type ≠ .eof := by
  unfold getNextToken
  rw [dropWhile_blank h]
  cases s with
  | nil => exact absurd rfl hne
  | cons c s =>
      simp only
      cases hsymbol : symbolType c with
      | some type => exact (symbolType_ne hsymbol).1
      | none =>
          simp only
          split
          · exact fun h => by cases h
          · split
            · exact keywordType_ne_eof _
            · split <;> exact fun h => by cases h

theorem getNextToken_and (h : ∀ c ∈ s, isSpace c = false)
    (hand : (getNextToken s).1.type = .and) : (getNextToken s).2 = s.dropWhile isWordChar := by
  unfold getNextToken at hand ⊢
  rw [dropWhile_blank h] at hand ⊢
  cases s with
  | nil => cases hand
  | cons c s =>
      simp only at hand ⊢
      cases hsymbol : symbolType c with
      | some type =>
          rw [hsymbol] at hand
          exact absurd hand (symbolType_ne hsymbol).2.2
      | none =>
          rw [hsymbol] at hand
          simp only at hand ⊢
          split at hand
          · cases hand
          · rename_i hquote
            rw [if_neg hquote]
            split at hand
            · rename_i hstart
              rw [if_pos hstart]
              have hword : isWordChar c = true := by
                have hall : ∀ c : UInt8, (isAlpha c || c == 95) = true → isWordChar c = true :=
                  forall_byte (by decide +kernel)
                exact hall c hstart
              rw [List.dropWhile_cons_of_pos hword]
            · split at hand <;> cases hand

theorem getNextToken_ne_identifier (h : ∀ c ∈ s, isSpace c = false)
    (hstop : ∀ c ∈ s.head?, isWordChar c = false) :
    (getNextToken s).1.type ≠ .identifier := by
  unfold getNextToken
  rw [dropWhile_blank h]
  cases s with
  | nil => exact fun h => by cases h
  | cons c s =>
      simp only
      cases hsymbol : symbolType c with
      | some type => exact (symbolType_ne hsymbol).2.1
      | none =>
          simp only
          have hc := hstop c rfl
          have hno : (isAlpha c || c == 95) = false := by
            have hall : ∀ c : UInt8, isWordChar c = false → (isAlpha c || c == 95) = false :=
              forall_byte (by decide +kernel)
            exact hall c hc
          rw [hno]
          split
          · exact fun h => by cases h
          · rw [if_neg Bool.false_ne_true]
            split <;> exact fun h => by cases h

/-! ## The statement up to the string -/

def userId : Name 49 where
  buf := ⟨str "user_id", by decide, ne_zero_of_all rfl⟩
  isName := ⟨⟨117, str "ser_id", rfl, by decide, by decide⟩, fun k => by cases k <;> decide⟩

def pageLexemes (table : Name 255) : List Lexeme :=
  [.keyword .select, .symbol 42, .keyword .from, .name table.buf, .keyword .where,
    .name (widen userId.buf), .symbol 61]

theorem rendered_page (table : Name 255) (tail : Bytes) :
    Rendered tail false (pageLexemes table) (str "SELECT * FROM " ++ (table.buf.bytes ++
      (str " WHERE " ++ (str "user_id" ++ (str " = " ++ tail))))) := by
  have htable : table.buf.bytes.all isWordChar = true := by
    obtain ⟨c, w, heq, hc, hw⟩ := table.isName.shape
    rw [heq]
    exact all_cons_word (wordStart_spec c hc).1 hw
  refine .cons (w := []) (s := str "SELECT") (by decide) (.keyword rfl) (by decide) ?_
  refine .cons (w := [32]) (s := str "*") (by decide) (.symbol (by decide)) (by decide) ?_
  refine .cons (w := [32]) (s := str "FROM") (by decide) (.keyword rfl) (by decide) ?_
  refine .cons (w := [32]) (s := table.buf.bytes) (by decide) (.name table.isName) (by simp) ?_
  rw [htable]
  refine .cons (w := [32]) (s := str "WHERE") (by decide) (.keyword rfl) (by decide) ?_
  refine .cons (w := [32]) (s := str "user_id") (by decide) (.name userId.isName) (by decide) ?_
  refine .cons (w := [32]) (s := str "=") (by decide) (.symbol (by decide)) (by decide) ?_
  exact .nil (w := [32]) (by decide)

/-- The statement with its one condition. -/
def userStatement (table : Name 255) (val : Bytes) : Statement :=
  { Statement.zero with
    type := .select, selectAll := true, tableName := table.buf
    whereConditions := [⟨.eq, userId.buf, strncpy 255 val, .empty⟩] }

/-- What the parser does with the text behind the string. -/
def afterString (stmt : Statement) (rest : Bytes) : Option Statement :=
  Parser.finishStatement do
    let (stmt, p) ← Parser.parseMoreConditions MAX_WHERE_CONDITIONS
      (Parser.advance ⟨rest, ⟨.eof, .empty⟩⟩) stmt
    match stmt.whereConditions with
    | [] => some (stmt, p)
    | first :: _ => some ({ stmt with
        whereType := first.type, whereCol := first.col
        whereVal := first.val, whereEndVal := first.endVal }, p)

theorem parseStatement_page (table : Name 255) {val rest : Bytes} (hval : 39 ∉ val)
    (hnul : ∀ c ∈ val ++ rest, c ≠ 0) :
    parseStatement (str "SELECT * FROM " ++ (table.buf.bytes ++ (str " WHERE " ++
      (str "user_id" ++ (str " = " ++ (39 :: (val ++ [39]) ++ rest)))))) =
        afterString (userStatement table val) rest := by
  have htail : ∀ c ∈ 39 :: (val ++ [39]) ++ rest, c ≠ 0 := by
    intro c hc
    simp only [List.cons_append, List.append_assoc, List.mem_cons, List.mem_append,
      List.not_mem_nil, false_or] at hc
    obtain rfl | hc | rfl | hc := hc
    · decide
    · exact hnul c (List.mem_append_left _ hc)
    · decide
    · exact hnul c (List.mem_append_right _ hc)
  have hrendered := rendered_page table (39 :: (val ++ [39]) ++ rest)
  have hinit := initLexer_rendered htail hrendered (.inl rfl)
  unfold parseStatement
  rw [hinit]
  have hat : At (39 :: (val ++ [39]) ++ rest) (Parser.advance ⟨str "SELECT * FROM " ++
      (table.buf.bytes ++ (str " WHERE " ++ (str "user_id" ++ (str " = " ++
        (39 :: (val ++ [39]) ++ rest))))), ⟨.eof, .empty⟩⟩) (pageLexemes table) :=
    ⟨by simp [show isWordChar 39 = false by decide], false, _, hrendered, rfl⟩
  generalize Parser.advance ⟨str "SELECT * FROM " ++ (table.buf.bytes ++ (str " WHERE " ++
    (str "user_id" ++ (str " = " ++ (39 :: (val ++ [39]) ++ rest))))), ⟨.eof, .empty⟩⟩ = p at hat
  have htype : p.currentToken.type = .select := hat.reads
  -- the tokens up to the equals sign
  have h₁ := hat.advance
  have hstar : p.advance.currentToken.type = .star := by
    have := h₁.reads
    exact (Option.some.inj (this.symm.trans (by decide : symbolType 42 = some .star)))
  have h₂ := h₁.advance
  have hfrom : p.advance.advance.expect .from = some _ := h₂.expect
  have h₃ := h₂.advance
  have htable : p.advance.advance.advance.identifier 255 = some (table.buf, _) := h₃.identifier rfl
  have h₄ := h₃.advance
  have hwhere : p.advance.advance.advance.advance.currentToken.type = .where := h₄.reads
  have h₅ := h₄.advance
  have hcol : p.advance.advance.advance.advance.advance.identifier 49 = some (userId.buf, _) :=
    h₅.identifier rfl
  have h₆ := h₅.advance
  have heq := h₆.expect_eq
  have hne : ¬ p.advance.advance.advance.advance.advance.advance.currentToken.type = .between := by
    have hequals : symbolType 61 = some .eq := by decide
    rw [← Option.some.inj (hequals.symm.trans h₆.reads)]
    decide
  -- the string
  obtain ⟨b, text, htext, hlex⟩ := h₆.advance.text
  have hstring : getNextToken text = (⟨.string, strncpy 255 val⟩, rest) := by
    cases htext with
    | nil hw => exact getNextToken_quoted hval hw
  rw [hstring] at hlex
  obtain ⟨htoken, hlexer⟩ := Prod.mk.inj hlex
  have hliteral : p.advance.advance.advance.advance.advance.advance.advance.literal =
      some (strncpy 255 val, Parser.advance ⟨rest, ⟨.eof, .empty⟩⟩) := by
    have hnext : p.advance.advance.advance.advance.advance.advance.advance.advance =
        Parser.advance ⟨rest, ⟨.eof, .empty⟩⟩ := by
      unfold Parser.advance at hlexer ⊢
      rw [← hlexer]
    unfold Parser.literal
    rw [← htoken, if_pos (.inl rfl), strncpy_self, hnext]
  simp only [htype]
  unfold afterString Parser.parseSelect Parser.parseWhereClause Parser.parseOneCondition
  simp only [if_pos hstar, hfrom, htable, hwhere, hcol, if_neg hne, heq, hliteral,
    Option.bind_eq_bind, Option.bind_some]
  rfl

/-! ## What is behind the string -/

theorem afterString_nil (table : Name 255) (val : Bytes) :
    afterString (userStatement table val) [] = some { userStatement table val with
      whereType := .eq, whereCol := userId.buf
      whereVal := strncpy 255 val, whereEndVal := .empty } := rfl

/-- What an early quote leaves of the parameter is refused: it is not the end, and behind an
AND no column can follow. -/
theorem afterString_left (stmt : Statement) {rest : Bytes} (hblank : ∀ c ∈ rest, isSpace c = false)
    (hstop : ∃ c ∈ rest, isWordChar c = false) : afterString stmt rest = none := by
  have hne : rest ≠ [] := by
    rintro rfl
    obtain ⟨c, hc, -⟩ := hstop
    cases hc
  have heof : (Parser.advance ⟨rest, ⟨.eof, .empty⟩⟩).currentToken.type ≠ .eof :=
    getNextToken_ne_eof hne hblank
  unfold afterString MAX_WHERE_CONDITIONS Parser.parseMoreConditions
  by_cases hand : (Parser.advance ⟨rest, ⟨.eof, .empty⟩⟩).currentToken.type = .and
  · have hrest : (Parser.advance ⟨rest, ⟨.eof, .empty⟩⟩).lexer = rest.dropWhile isWordChar :=
      getNextToken_and hblank hand
    have hcol : (Parser.advance ⟨rest, ⟨.eof, .empty⟩⟩).advance.currentToken.type ≠ .identifier := by
      unfold Parser.advance at hrest ⊢
      simp only at hrest ⊢
      rw [hrest]
      apply getNextToken_ne_identifier
      · exact fun c hc => hblank c ((List.dropWhile_sublist _).subset hc)
      · intro c hc
        have hhead := List.head?_dropWhile_not isWordChar rest
        rw [Option.mem_def.1 hc] at hhead
        simpa using hhead
    have hnone : (Parser.advance ⟨rest, ⟨.eof, .empty⟩⟩).advance.parseOneCondition stmt = none := by
      unfold Parser.parseOneCondition Parser.identifier
      rw [if_neg hcol]
      split <;> rfl
    rw [if_pos hand, hnone]
    rfl
  · rw [if_neg hand]
    unfold Parser.finishStatement
    cases hconds : stmt.whereConditions with
    | nil => simp [hconds, heof]
    | cons first conds => simp [hconds, heof]

/-- The statement, if it is one, asks the table for the rows of exactly this user. -/
def SelectsUser (table user sql : Bytes) : Prop :=
  ∀ stmt, parseStatement sql = some stmt →
    stmt.type = .select ∧ stmt.selectAll = true ∧ stmt.tableName.bytes = table ∧
      ∃ cond, stmt.whereConditions = [cond] ∧ cond.type = .eq ∧
        cond.col.bytes = str "user_id" ∧ cond.val.bytes = user

theorem pasted_selectsUser (table : Name 255) (hshort : table.buf.bytes.length ≤ 64)
    (user : CBuf 63) (hblank : ∀ c ∈ user.bytes, isSpace c = false) :
    SelectsUser table.buf.bytes user.bytes (pasted table.buf.bytes (str "user_id") user.bytes) := by
  have hfits := user.fits
  have htext : pasted table.buf.bytes (str "user_id") user.bytes = str "SELECT * FROM " ++
      (table.buf.bytes ++ (str " WHERE " ++ (str "user_id" ++ (str " = " ++
        (39 :: (user.bytes ++ [39])))))) := by
    have h₁ : (str "SELECT * FROM ").length = 14 := by decide
    have h₂ : (str " WHERE ").length = 7 := by decide
    have h₃ : (str "user_id").length = 7 := by decide
    have h₄ : (str " = '").length = 4 := by decide
    have hquote : str " = '" = str " = " ++ [39] := by decide
    unfold pasted
    rw [List.take_of_length_le, hquote, List.append_assoc, List.singleton_append]
    simp only [List.length_append, List.length_singleton, h₁, h₂, h₃, h₄]
    omega
  intro stmt hparsed
  rw [htext] at hparsed
  by_cases hquote : 39 ∈ user.bytes
  · -- the string ends at the first quote
    obtain ⟨val, left, hsplit, hval⟩ := List.eq_append_cons_of_mem hquote
    have htail : 39 :: (user.bytes ++ [39]) = 39 :: (val ++ [39]) ++ (left ++ [39]) := by
      rw [hsplit]
      simp
    have hnul : ∀ c ∈ val ++ (left ++ [39]), c ≠ 0 := by
      intro c hc
      simp only [List.mem_append, List.mem_singleton] at hc
      obtain hc | hc | rfl := hc
      · exact user.noNul c (by rw [hsplit]; exact List.mem_append_left _ hc)
      · exact user.noNul c (by rw [hsplit]; exact List.mem_append_right _ (List.mem_cons_of_mem _ hc))
      · decide
    have hleft : ∀ c ∈ left ++ [39], isSpace c = false := by
      intro c hc
      obtain hc | hc := List.mem_append.1 hc
      · exact hblank c (by rw [hsplit]; exact List.mem_append_right _ (List.mem_cons_of_mem _ hc))
      · rw [List.mem_singleton.1 hc]
        decide
    rw [htail, parseStatement_page table hval hnul,
      afterString_left _ hleft ⟨39, by simp, by decide⟩] at hparsed
    cases hparsed
  · have htail : 39 :: (user.bytes ++ [39]) = 39 :: (user.bytes ++ [39]) ++ [] := by simp
    rw [htail, parseStatement_page table hquote (by simpa using user.noNul),
      afterString_nil] at hparsed
    obtain rfl := Option.some.inj hparsed
    refine ⟨rfl, rfl, rfl, _, rfl, rfl, rfl, ?_⟩
    change (strncpy 255 user.bytes).bytes = user.bytes
    rw [strncpy_bytes user.noNul, List.take_of_length_le (by omega)]

/-! ## The statements of a page -/

/-- A path without white space and no query yet. -/
def Undivided (req : Http.HttpReq) : Prop :=
  (∀ c ∈ req.path.bytes, isSpace c = false) ∧ req.qry.bytes = []

theorem undivided_empty {meth : CBuf 7} : Undivided { meth := meth } :=
  ⟨fun _ hc => absurd hc List.not_mem_nil, rfl⟩

theorem scanWord_blank {n : Nat} {text rest : Bytes} {word : CBuf n}
    (h : Http.scanWord n text = some (word, rest)) : ∀ c ∈ word.bytes, isSpace c = false := by
  unfold Http.scanWord at h
  simp only at h
  split at h
  · cases h
  · cases h
    intro c hc
    have hword := List.mem_of_mem_take hc
    have := List.mem_takeWhile_imp ((List.takeWhile_sublist _).subset hword)
    simpa using this

/-- The head that a line or a header gives, refused or not. -/
def headOf : Except Http.Head Http.Head → Http.Head
  | .ok head => head
  | .error head => head

theorem requestLine_undivided (line : Bytes) : Undivided (headOf (Http.requestLine line)).req := by
  unfold Http.requestLine
  split
  · exact undivided_empty
  · split
    · exact undivided_empty
    · rename_i path line' hpath
      have hblank := scanWord_blank hpath
      split
      · exact ⟨hblank, rfl⟩
      · split <;> exact ⟨hblank, rfl⟩

theorem headerLine_headOf (head : Http.Head) (line : Bytes) :
    (headOf (Http.headerLine head line)).req = head.req := by
  cases h : Http.headerLine head line with
  | ok head' => exact Http.headerLine_req h
  | error head' =>
      unfold Http.headerLine at h
      simp only at h
      repeat' split at h
      all_goals cases h
      all_goals rfl

theorem headerLines_headOf : ∀ (lines : List Bytes) (head : Http.Head),
    (headOf (lines.foldlM Http.headerLine head)).req = head.req
  | [], _ => rfl
  | line :: lines, head => by
      have hline := headerLine_headOf head line
      rw [List.foldlM_cons]
      cases h : Http.headerLine head line with
      | error head' =>
          rw [h] at hline
          exact hline
      | ok head' =>
          rw [h] at hline
          exact (headerLines_headOf lines head').trans hline

theorem parseHead_undivided (header : Bytes) : Undivided (headOf (Http.parseHead header)).req := by
  unfold Http.parseHead
  split
  · exact undivided_empty
  · rename_i line lines _
    have hline := requestLine_undivided line
    cases h : Http.requestLine line with
    | error head =>
        rw [h] at hline
        exact hline
    | ok head =>
        rw [h] at hline
        change Undivided (headOf (lines.foldlM Http.headerLine head)).req
        rw [headerLines_headOf]
        exact hline

theorem splitQuery_blank {req : Http.HttpReq} (h : Undivided req) :
    ∀ c ∈ (Http.splitQuery req).qry.bytes, isSpace c = false := by
  intro c hc
  unfold Http.splitQuery at hc
  split at hc
  · rw [h.2] at hc
    cases hc
  · rename_i d qry hqry
    have hin : c ∈ qry := (List.takeWhile_sublist _).subset (List.mem_of_mem_take hc)
    apply h.1 c
    apply (List.dropWhile_sublist (· != (63 : UInt8))).subset
    rw [hqry]
    exact List.mem_cons_of_mem d hin

/-- The target that `parse_req` hands on has no white space. -/
theorem parseReq_blank (maxBody : Int) (conn : Http.HttpConn) :
    ∀ c ∈ (Http.parseReq maxBody conn).1.req.qry.bytes, isSpace c = false := by
  have hempty : ∀ {req : Http.HttpReq}, Undivided req → ∀ c ∈ req.qry.bytes, isSpace c = false := by
    intro req h c hc
    rw [h.2] at hc
    cases hc
  unfold Http.parseReq
  split
  · exact hempty undivided_empty
  · rename_i hdrLen conn' _
    unfold Http.finishReq
    split
    · exact hempty undivided_empty
    · have hhead := parseHead_undivided (conn'.buf.take hdrLen)
      cases h : Http.parseHead (conn'.buf.take hdrLen) with
      | error head =>
          rw [h] at hhead
          exact hempty hhead
      | ok head =>
          rw [h] at hhead
          simp only
          split
          · exact hempty hhead
          · split
            · exact hempty hhead
            · split
              · exact hempty hhead
              · exact splitQuery_blank ⟨hhead.1, hhead.2⟩

def pageTable (name : Bytes) (h : name = str "orders" ∨ name = str "coupons" ∨ name = str "cart") :
    Name 255 where
  buf := ⟨name, by obtain rfl | rfl | rfl := h <;> decide, by
    obtain rfl | rfl | rfl := h <;> exact ne_zero_of_all rfl⟩
  isName := by
    obtain rfl | rfl | rfl := h
    · exact ⟨⟨111, str "rders", rfl, by decide, by decide⟩, fun k => by cases k <;> decide⟩
    · exact ⟨⟨99, str "oupons", rfl, by decide, by decide⟩, fun k => by cases k <;> decide⟩
    · exact ⟨⟨99, str "art", rfl, by decide, by decide⟩, fun k => by cases k <;> decide⟩

theorem pageUser_blank {req : Http.HttpReq} (h : ∀ c ∈ req.qry.bytes, isSpace c = false) :
    ∀ c ∈ (pageUser req).bytes, isSpace c = false := by
  intro c hc
  unfold pageUser at hc
  simp only at hc
  split at hc
  · have hone : (strncpy 63 (str "1")).bytes = [49] := by decide
    rw [hone, List.mem_singleton] at hc
    rw [hc]
    decide
  · exact h c (mem_qryGet _ hc)

/-- Whatever stands in the target, the three statements are refused or ask for the rows of the
user that it names. -/
theorem pageSqls_select_user (req : Http.HttpReq)
    (hblank : ∀ c ∈ req.qry.bytes, isSpace c = false) :
    SelectsUser (str "orders") (pageUser req).bytes (pageSqls req).sql1 ∧
      SelectsUser (str "coupons") (pageUser req).bytes (pageSqls req).sql2 ∧
      SelectsUser (str "cart") (pageUser req).bytes (pageSqls req).sql3 := by
  have hall : ∀ name (h : name = str "orders" ∨ name = str "coupons" ∨ name = str "cart"),
      SelectsUser name (pageUser req).bytes (pasted name (str "user_id") (pageUser req).bytes) := by
    intro name h
    refine pasted_selectsUser (pageTable name h) ?_ (pageUser req) (pageUser_blank hblank)
    obtain rfl | rfl | rfl := h <;> decide
  exact ⟨hall _ (.inl rfl), hall _ (.inr (.inl rfl)), hall _ (.inr (.inr rfl))⟩

/-- A request with a query string. -/
def pageFor (qry : Bytes) : Http.HttpReq := { qry := strncpy 511 qry }

/-- A user whose quotes end the value early, and one whose orders are asked for. -/
theorem quoteAnd_page :
    (SelectsUser (str "orders") (str "1'and'")
        (pageSqls (pageFor (str "lat=1&user_id=1'and'"))).sql1 ∧
      SelectsUser (str "coupons") (str "1'and'")
        (pageSqls (pageFor (str "lat=1&user_id=1'and'"))).sql2 ∧
      SelectsUser (str "cart") (str "1'and'")
        (pageSqls (pageFor (str "lat=1&user_id=1'and'"))).sql3) ∧
    (parseStatement (pageSqls (pageFor (str "user_id=7"))).sql1).isSome = true ∧
      SelectsUser (str "orders") (str "7") (pageSqls (pageFor (str "user_id=7"))).sql1 := by
  have huser : (pageUser (pageFor (str "lat=1&user_id=1'and'"))).bytes = str "1'and'" := by
    decide +kernel
  have hseven : (pageUser (pageFor (str "user_id=7"))).bytes = str "7" := by decide +kernel
  refine ⟨?_, by decide +kernel, ?_⟩
  · rw [← huser]
    exact pageSqls_select_user (pageFor (str "lat=1&user_id=1'and'")) (by decide +kernel)
  · rw [← hseven]
    exact (pageSqls_select_user (pageFor (str "user_id=7")) (by decide +kernel)).1

end MiniDbms
