import MiniDbms.Sql.Lexer

/-!
# The statement language

Abstract statements, the tokens they are written with, and the texts that spell
these tokens: keywords in any case, literals quoted or bare, any white space between
tokens where two words do not touch.
-/

namespace MiniDbms.Sql

inductive Keyword
  | select | insert | update | delete | from | where | set | into | values | between | and
deriving DecidableEq

namespace Keyword

def text : Keyword → Bytes
  | select => str "SELECT"
  | insert => str "INSERT"
  | update => str "UPDATE"
  | delete => str "DELETE"
  | «from» => str "FROM"
  | «where» => str "WHERE"
  | set => str "SET"
  | into => str "INTO"
  | values => str "VALUES"
  | between => str "BETWEEN"
  | and => str "AND"

def type : Keyword → SqlTokenType
  | select => .select
  | insert => .insert
  | update => .update
  | delete => .delete
  | «from» => .from
  | «where» => .where
  | set => .set
  | into => .into
  | values => .values
  | between => .between
  | and => .and

end Keyword

/-- `[A-Za-z_][A-Za-z0-9_.-]*`, and no keyword in any case. -/
structure IsName (s : Bytes) : Prop where
  shape : ∃ c rest, s = c :: rest ∧ (isAlpha c = true ∨ c = 95) ∧ rest.all isWordChar = true
  free : ∀ k : Keyword, s.map toUpper ≠ k.text

/-- A name of at most `n` bytes. -/
structure Name (n : Nat) where
  buf : CBuf n
  isName : IsName buf.bytes

/-- A literal of at most 255 bytes without quotes. -/
structure Literal where
  buf : CBuf 255
  noQuote : 39 ∉ buf.bytes

/-! ## Tokens and their spellings -/

inductive Lexeme
  | keyword (k : Keyword)
  | name (s : CBuf 255)
  | literal (s : CBuf 255)
  | symbol (c : UInt8)

/-- The texts a token can be written as. -/
inductive Spells : Lexeme → Bytes → Prop
  | keyword {k : Keyword} {s : Bytes} (h : s.map toUpper = k.text) : Spells (.keyword k) s
  | name {s : CBuf 255} (h : IsName s.bytes) : Spells (.name s) s.bytes
  | quoted {s : CBuf 255} (h : 39 ∉ s.bytes) : Spells (.literal s) (39 :: (s.bytes ++ [39]))
  | bareName {s : CBuf 255} (h : IsName s.bytes) : Spells (.literal s) s.bytes
  | number {s : CBuf 255} {c : UInt8} {rest : Bytes} (hs : s.bytes = c :: rest)
      (hc : isDigit c = true) (hrest : rest.all isWordChar = true) : Spells (.literal s) s.bytes
  | symbol {c : UInt8} (h : c ∈ str "*,=(") : Spells (.symbol c) [c]

/-- Texts that spell a list of tokens and go on with `tail`.  The flag says that a
word stands right in front, which the next word may not touch. -/
inductive Rendered (tail : Bytes) : Bool → List Lexeme → Bytes → Prop
  | nil {b : Bool} {w : Bytes} (hw : w.all isSpace = true) : Rendered tail b [] (w ++ tail)
  | cons {b : Bool} {l : Lexeme} {ls : List Lexeme} {w s rest : Bytes}
      (hw : w.all isSpace = true) (hs : Spells l s)
      (hsep : b = true → s.all isWordChar = true → w ≠ [])
      (hrest : Rendered tail (s.all isWordChar) ls rest) :
      Rendered tail b (l :: ls) (w ++ (s ++ rest))

/-! ## Statements -/

inductive Condition
  | eq (col : Name 49) (val : Literal)
  | between (col : Name 49) (val endVal : Literal)

/-- At most eight conditions joined by AND; none is no WHERE clause. -/
structure Conditions where
  list : List Condition
  bound : list.length ≤ MAX_WHERE_CONDITIONS

inductive Columns
  | star
  | list (col : Name 49) (cols : List (Name 49)) (bound : cols.length < MAX_COLS)

/-- Whether quotes are balanced and no closing parenthesis stands outside them. -/
def closed : Bool → Bytes → Bool
  | inQuote, [] => !inQuote
  | inQuote, c :: cs =>
    if c = 39 then closed (!inQuote) cs else if c = 41 && !inQuote then false else closed inQuote cs

/-- The text between the parentheses of VALUES. -/
structure Values where
  buf : CBuf 1023
  closed : Sql.closed false buf.bytes = true

inductive Stmt
  | select (columns : Columns) (table : Name 255) (conditions : Conditions)
  | update (table : Name 255) (col : Name 49) (val : Literal) (conditions : Conditions)
  | delete (table : Name 255) (conditions : Conditions)
  | insert (table : Name 255) (values : Values)

/-! ## The tokens of a statement -/

def widen (s : CBuf 49) : CBuf 255 := ⟨s.bytes, s.fits.trans (by decide), s.noNul⟩

def Condition.lexemes : Condition → List Lexeme
  | .eq col val => [.name (widen col.buf), .symbol 61, .literal val.buf]
  | .between col val endVal => [.name (widen col.buf), .keyword .between, .literal val.buf,
      .keyword .and, .literal endVal.buf]

def Conditions.lexemes (conditions : Conditions) : List Lexeme :=
  match conditions.list with
  | [] => []
  | first :: rest => .keyword .where :: (first.lexemes ++
      rest.flatMap fun condition => .keyword .and :: condition.lexemes)

def Columns.lexemes : Columns → List Lexeme
  | .star => [.symbol 42]
  | .list col cols _ => .name (widen col.buf) ::
      cols.flatMap fun col => [.symbol 44, .name (widen col.buf)]

/-- The tokens of a statement; those of an INSERT up to its opening parenthesis. -/
def Stmt.lexemes : Stmt → List Lexeme
  | .select columns table conditions => .keyword .select :: (columns.lexemes ++
      .keyword .from :: .name table.buf :: conditions.lexemes)
  | .update table col val conditions => .keyword .update :: .name table.buf :: .keyword .set ::
      .name (widen col.buf) :: .symbol 61 :: .literal val.buf :: conditions.lexemes
  | .delete table conditions => .keyword .delete :: .keyword .from :: .name table.buf ::
      conditions.lexemes
  | .insert table _ => [.keyword .insert, .keyword .into, .name table.buf, .keyword .values]

/-- The UTF-8 byte order mark. -/
def bom : Bytes := [0xEF, 0xBB, 0xBF]

/-- What may follow the tokens of a statement.  The text of VALUES is taken as it
stands. -/
def Stmt.Tail : Stmt → Bytes → Prop
  | .insert _ values, tail => ∃ ws : Bytes, ws.all isSpace = true ∧
      tail = 40 :: (values.buf.bytes ++ 41 :: ws)
  | _, tail => tail = []

/-- `sql` is a rendering of the statement. -/
def Renders (stmt : Stmt) (sql : Bytes) : Prop :=
  ∃ tail text, stmt.Tail tail ∧ Rendered tail false stmt.lexemes text ∧
    (sql = text ∨ sql = bom ++ text)

/-! ## The statement that the parser fills in -/

def Condition.fill : Condition → WhereCondition
  | .eq col val => ⟨.eq, col.buf, val.buf, .empty⟩
  | .between col val endVal => ⟨.between, col.buf, val.buf, endVal.buf⟩

def Conditions.fill (conditions : Conditions) (stmt : Statement) : Statement :=
  match conditions.list.map Condition.fill with
  | [] => stmt
  | first :: rest => { stmt with
      whereConditions := first :: rest
      whereType := first.type, whereCol := first.col
      whereVal := first.val, whereEndVal := first.endVal }

def Columns.fill : Columns → Statement → Statement
  | .star, stmt => { stmt with selectAll := true }
  | .list col cols _, stmt => { stmt with selectCols := (col :: cols).map Name.buf }

def Stmt.fill : Stmt → Statement
  | .select columns table conditions =>
    conditions.fill { (columns.fill { type := .select }) with tableName := table.buf }
  | .update table col val conditions =>
    conditions.fill
      { type := .update
        tableName := table.buf
        setCol := col.buf
        setVal := val.buf }
  | .delete table conditions => conditions.fill { type := .delete, tableName := table.buf }
  | .insert table values => { type := .insert, tableName := table.buf, rowData := values.buf }

end MiniDbms.Sql
