import MiniDbms.Sql.Lexer

/-!
# The parser

`parse_statement` and the functions below it.  A C function that returns 0 and
leaves the rest to its caller is an `Option`; the parser state is the current
token and the text behind it.
-/

namespace MiniDbms

structure Parser where
  lexer : Bytes
  currentToken : Token

namespace Parser

def advance (p : Parser) : Parser :=
  let (token, rest) := getNextToken p.lexer
  ⟨rest, token⟩

def expect (p : Parser) (type : SqlTokenType) : Option Parser :=
  if p.currentToken.type = type then some p.advance else none

/-- An identifier token copied into a buffer of `n + 1` bytes. -/
def identifier (p : Parser) (n : Nat) : Option (CBuf n × Parser) :=
  if p.currentToken.type = .identifier then
    some (strncpy n p.currentToken.text.bytes, p.advance)
  else none

def literal (p : Parser) : Option (CBuf 255 × Parser) :=
  if p.currentToken.type = .string ∨ p.currentToken.type = .number ∨
      p.currentToken.type = .identifier then
    some (strncpy 255 p.currentToken.text.bytes, p.advance)
  else none

def parseOneCondition (p : Parser) (stmt : Statement) : Option (Statement × Parser) := do
  if stmt.whereConditions.length ≥ MAX_WHERE_CONDITIONS then none
  else
    let (col, p) ← p.identifier 49
    if p.currentToken.type = .between then
      let (val, p) ← p.advance.literal
      let p ← p.expect .and
      let (endVal, p) ← p.literal
      some ({ stmt with
        whereConditions := stmt.whereConditions ++ [⟨.between, col, val, endVal⟩] }, p)
    else
      let p ← p.expect .eq
      let (val, p) ← p.literal
      some ({ stmt with
        whereConditions := stmt.whereConditions ++ [⟨.eq, col, val, .empty⟩] }, p)

/-- The `AND` loop.  `parse_one_condition` refuses a ninth condition, so eight
rounds are all the loop can take. -/
def parseMoreConditions : Nat → Parser → Statement → Option (Statement × Parser)
  | 0, p, stmt => if p.currentToken.type = .and then none else some (stmt, p)
  | n + 1, p, stmt =>
    if p.currentToken.type = .and then do
      let (stmt, p) ← p.advance.parseOneCondition stmt
      parseMoreConditions n p stmt
    else some (stmt, p)

def parseWhereClause (p : Parser) (stmt : Statement) : Option (Statement × Parser) :=
  if p.currentToken.type ≠ .where then some (stmt, p)
  else do
    let (stmt, p) ← p.advance.parseOneCondition stmt
    let (stmt, p) ← parseMoreConditions MAX_WHERE_CONDITIONS p stmt
    match stmt.whereConditions with
    | [] => some (stmt, p)
    | first :: _ => some ({ stmt with
        whereType := first.type, whereCol := first.col
        whereVal := first.val, whereEndVal := first.endVal }, p)

/-- The column list of a SELECT, `room` columns at most. -/
def parseSelectCols : Nat → Parser → List (CBuf 49) → Option (List (CBuf 49) × Parser)
  | 0, _, _ => none
  | room + 1, p, cols => do
    let (col, p) ← p.identifier 49
    if p.currentToken.type = .comma then
      parseSelectCols room p.advance (cols ++ [col])
    else some (cols ++ [col], p)

def parseSelect (p : Parser) (stmt : Statement) : Option (Statement × Parser) := do
  let p := p.advance
  let stmt := { stmt with type := .select }
  let (stmt, p) ←
    if p.currentToken.type = .star then some ({ stmt with selectAll := true }, p.advance)
    else (parseSelectCols MAX_COLS p []).map fun (cols, p) =>
      ({ stmt with selectCols := cols }, p)
  let p ← p.expect .from
  let (table, p) ← p.identifier 255
  p.parseWhereClause { stmt with tableName := table }

/-- The text up to the first closing parenthesis outside quotes, and the text
behind it. -/
def findValuesCloseParen : Bool → Bytes → Option (Bytes × Bytes)
  | _, [] => none
  | inQuote, c :: cs =>
    if c = 39 then (findValuesCloseParen (!inQuote) cs).map fun (a, b) => (c :: a, b)
    else if c = 41 && !inQuote then some ([], cs)
    else (findValuesCloseParen inQuote cs).map fun (a, b) => (c :: a, b)

def parseInsert (p : Parser) (stmt : Statement) : Option (Statement × Parser) := do
  let p := p.advance
  let p ← p.expect .into
  let (table, p) ← p.identifier 255
  let p ← p.expect .values
  if p.currentToken.type ≠ .lparen then none
  else
    let (data, after) ← findValuesCloseParen false p.lexer
    if after.all isSpace then
      let p := advance ⟨after, p.currentToken⟩
      some ({ stmt with
        type := .insert, tableName := table, rowData := strncpy 1023 data }, p)
    else none

def parseUpdate (p : Parser) (stmt : Statement) : Option (Statement × Parser) := do
  let p := p.advance
  let (table, p) ← p.identifier 255
  let p ← p.expect .set
  let (col, p) ← p.identifier 49
  let p ← p.expect .eq
  let (val, p) ← p.literal
  p.parseWhereClause { stmt with
    type := .update, tableName := table, setCol := col, setVal := val }

def parseDelete (p : Parser) (stmt : Statement) : Option (Statement × Parser) := do
  let p := p.advance
  let p ← p.expect .from
  let (table, p) ← p.identifier 255
  p.parseWhereClause { stmt with type := .delete, tableName := table }

/-- `finish_statement`: nothing may follow. `parse_insert` ends with the same
test of its own. -/
def finishStatement (parsed : Option (Statement × Parser)) : Option Statement := do
  let (stmt, p) ← parsed
  if p.currentToken.type = .eof then some stmt else none

end Parser

def parseStatement (sql : Bytes) : Option Statement :=
  let p := Parser.advance ⟨initLexer (cstr sql), ⟨.eof, .empty⟩⟩
  match p.currentToken.type with
  | .select => Parser.finishStatement (p.parseSelect .zero)
  | .insert => Parser.finishStatement (p.parseInsert .zero)
  | .update => Parser.finishStatement (p.parseUpdate .zero)
  | .delete => Parser.finishStatement (p.parseDelete .zero)
  | _ => none

end MiniDbms
