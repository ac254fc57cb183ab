import MiniDbms.Sql.Types

/-!
# The fast statement paths of the command line

`try_execute_insert_fast`, `try_execute_update_fast` and `try_execute_delete_fast` of
`main.c`.  A path that gives up is `none`; one that goes through has the statement it
executes as its result.
-/

namespace MiniDbms.Cli

def toLower (b : UInt8) : UInt8 := if 65 ≤ b && b ≤ 90 then b + 32 else b

def keywordMatchCi : Bytes → Bytes → Bool
  | _, [] => true
  | [], _ :: _ => false
  | c :: s, k :: kw => toLower c == toLower k && keywordMatchCi s kw

def skipSqlSpaces (s : Bytes) : Bytes := s.dropWhile isSpace

def isIdentChar (c : UInt8) : Bool := isAlnum c || c == 95

/-- `read_sql_identifier` into an array of `n + 1` bytes. -/
def readSqlIdentifier (s : Bytes) (n : Nat) : Option (CBuf n × Bytes) :=
  match skipSqlSpaces s with
  | [] => none
  | c :: rest =>
    if isAlpha c || c == 95 then
      let word := (c :: rest).takeWhile isIdentChar
      if n < word.length then none
      else some (strncpy n word, (c :: rest).dropWhile isIdentChar)
    else none

/-- `read_sql_literal`: a closed quoted text, or everything up to white space. -/
def readSqlLiteral (s : Bytes) : Option (CBuf 255 × Bytes) :=
  match skipSqlSpaces s with
  | [] => none
  | c :: rest =>
    if c = 39 then
      match rest.dropWhile (· != 39) with
      | [] => none
      | _ :: more =>
        let body := rest.takeWhile (· != 39)
        if 255 < body.length then none else some (strncpy 255 body, more)
    else
      let word := (c :: rest).takeWhile fun d => !isSpace d
      if 255 < word.length then none
      else some (strncpy 255 word, (c :: rest).dropWhile fun d => !isSpace d)

/-- The keyword at the front and the text behind it. -/
def afterKeyword (s kw : Bytes) : Option Bytes :=
  let s := skipSqlSpaces s
  if keywordMatchCi s kw then some (s.drop kw.length) else none

/-- The byte at the front and the text behind it. -/
def afterByte (s : Bytes) (b : UInt8) : Option Bytes :=
  match skipSqlSpaces s with
  | [] => none
  | c :: rest => if c = b then some rest else none

def finishSingleEqWhere (stmt : Statement) (whereCol : CBuf 49) (whereVal : CBuf 255) :
    Statement :=
  { stmt with
    whereConditions := [⟨.eq, whereCol, whereVal, .empty⟩]
    whereType := .eq
    whereCol := whereCol
    whereVal := whereVal
    whereEndVal := .empty }

/-- The scan for the end of the row: a closing parenthesis outside quotes. -/
def findRowEnd : Bool → Bytes → Option (Bytes × Bytes)
  | _, [] => none
  | q, c :: cs =>
    let q := if c = 39 then !q else q
    if c = 41 && !q then some ([], cs)
    else (findRowEnd q cs).map fun (a, b) => (c :: a, b)

def tryExecuteInsertFast (sql : Bytes) : Option Statement := do
  let p ← afterKeyword (cstr sql) (str "insert")
  let p ← afterKeyword p (str "into")
  let p := skipSqlSpaces p
  let table := p.takeWhile fun c => !isSpace c && c != 40
  if table = [] ∨ 255 < table.length then none
  else
    let p ← afterKeyword (p.drop table.length) (str "values")
    let p ← afterByte p 40
    let (row, after) ← findRowEnd false p
    if skipSqlSpaces after ≠ [] ∨ 1023 < row.length then none
    else
      some
        { type := .insert
          tableName := strncpy 255 table
          rowData := strncpy 1023 row }

/-- `where col = literal` and nothing behind it, the end of the two paths below. -/
def singleEqWhere (stmt : Statement) (p : Bytes) : Option Statement := do
  let p ← afterKeyword p (str "where")
  let (whereCol, p) ← readSqlIdentifier p 49
  let p ← afterByte p 61
  let (whereVal, p) ← readSqlLiteral p
  if skipSqlSpaces p ≠ [] then none else some (finishSingleEqWhere stmt whereCol whereVal)

def tryExecuteUpdateFast (sql : Bytes) : Option Statement := do
  let p ← afterKeyword (cstr sql) (str "update")
  let (table, p) ← readSqlIdentifier p 255
  let p ← afterKeyword p (str "set")
  let (setCol, p) ← readSqlIdentifier p 49
  let p ← afterByte p 61
  let (setVal, p) ← readSqlLiteral p
  singleEqWhere
    { type := .update
      tableName := table
      setCol := setCol
      setVal := setVal } p

def tryExecuteDeleteFast (sql : Bytes) : Option Statement := do
  let p ← afterKeyword (cstr sql) (str "delete")
  let p ← afterKeyword p (str "from")
  let (table, p) ← readSqlIdentifier p 255
  singleEqWhere { type := .delete, tableName := table } p

end MiniDbms.Cli
