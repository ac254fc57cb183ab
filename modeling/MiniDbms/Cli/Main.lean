import MiniDbms.Cli.FastPath

/-!
# Reading a SQL file

The read loop of `main` with `execute_sql_line_fast`.  An event is a text handed on to be
executed, or the report of a statement that is too long.
-/

namespace MiniDbms.Cli

def MAX_SQL_LEN : Nat := 4096

inductive SqlEvent
  | statement (text : Bytes)
  | tooLong
deriving DecidableEq

/-- What `fgets` reads: up to the end of the line, `MAX_SQL_LEN - 1` bytes at most. -/
def fgets (file : Bytes) : Bytes :=
  let head := file.take (MAX_SQL_LEN - 1)
  match head.dropWhile (· != 10) with
  | [] => head
  | _ :: _ => head.takeWhile (· != 10) ++ [10]

/-- The places of the semicolons outside quotes. -/
def semicolons : Bool → Nat → Bytes → List Nat
  | _, _, [] => []
  | q, i, c :: cs =>
    let q := if c = 39 then !q else q
    if c = 59 && !q then i :: semicolons q (i + 1) cs else semicolons q (i + 1) cs

/-- `execute_sql_line_fast`: `none` leaves the line to the character loop.  A fast path
and `execute_sql_text` are handed the same text. -/
def executeSqlLineFast (line : Bytes) : Option (List SqlEvent) :=
  let s := skipSqlSpaces line
  if s = [] ∨ s.take 2 = [45, 45] then some []
  else
    match semicolons false 0 s with
    | [i] => if (s.drop (i + 1)).all isSpace then some [.statement (s.take i)] else none
    | _ => none

structure ReadState where
  buf : Bytes := []
  q : Bool := false
  tooLong : Bool := false

/-- The end of a statement: `execute_sql_text(buf)` or the report. -/
def ReadState.finish (st : ReadState) : SqlEvent :=
  if st.tooLong then .tooLong else .statement st.buf

/-- The character loop on one line. -/
def charLoop : ReadState → Bytes → ReadState × List SqlEvent
  | st, [] => (st, [])
  | st, c :: cs =>
    if c = 45 && !st.q && cs.head? = some 45 then (st, [])
    else
      let q := if c = 39 then !st.q else st.q
      if c = 59 && !q then
        let (st', events) := charLoop { buf := [], q := q, tooLong := false } cs
        (st', st.finish :: events)
      else if st.buf.length < MAX_SQL_LEN - 1 then
        charLoop { st with buf := st.buf ++ [c], q := q } cs
      else charLoop { st with q := q, tooLong := true } cs

/-- One line, with the state behind it. -/
def readLine (st : ReadState) (line : Bytes) : ReadState × List SqlEvent :=
  match if st.buf = [] then executeSqlLineFast line else none with
  | some events => (st, events)
  | none => charLoop st line

/-- The loop over the lines of a file.  Every line takes something of it. -/
def readLoop : Nat → ReadState → Bytes → List SqlEvent
  | 0, st, _ => if st.buf = [] then [] else [st.finish]
  | fuel + 1, st, file =>
    if file = [] then if st.buf = [] then [] else [st.finish]
    else
      let (st', events) := readLine st (cstr (fgets file))
      events ++ readLoop fuel st' (file.drop (fgets file).length)

def mainEvents (file : Bytes) : List SqlEvent := readLoop file.length {} file

/-- Outside quotes a run of white space is one blank, and none at the end.  The flags say
whether white space is pending and whether the text starts in quotes. -/
def squeeze : Bool → Bool → Bytes → Bytes
  | _, _, [] => []
  | gap, q, c :: cs =>
    if !q && isSpace c then squeeze true q cs
    else if gap then 32 :: c :: squeeze false (if c = 39 then !q else q) cs
    else c :: squeeze false (if c = 39 then !q else q) cs

def byteOrderMark : Bytes := [0xEF, 0xBB, 0xBF]

/-- A statement text without a byte order mark and white space at its front, which
`execute_sql_text` and the lexer skip, and with white space squeezed.  `none` is a blank
one. -/
def statementText (text : Bytes) : Option Bytes :=
  let s := squeeze false false (skipSqlSpaces text)
  let s := if s.take 3 = byteOrderMark then skipSqlSpaces (s.drop 3) else s
  if s = [] then none else some s

def SqlEvent.visible : SqlEvent → Option SqlEvent
  | .statement text => (statementText text).map .statement
  | .tooLong => some .tooLong

/-- What `main` executes of a file. -/
def executed (file : Bytes) : List SqlEvent := (mainEvents file).filterMap SqlEvent.visible

/-! ## The reference -/

/-- The text without its comments.  The flags say whether the text starts in a comment and
in quotes; the end of the line stays. -/
def stripComments : Bool → Bool → Bytes → Bytes
  | _, _, [] => []
  | true, q, c :: cs => if c = 10 then c :: stripComments false q cs else stripComments true q cs
  | false, q, c :: cs =>
    if c = 45 && !q && cs.head? = some 45 then stripComments true q cs
    else c :: stripComments false (if c = 39 then !q else q) cs

/-- The pieces between semicolons outside quotes. -/
def splitStatements : Bool → Bytes → List Bytes
  | _, [] => [[]]
  | q, c :: cs =>
    let q := if c = 39 then !q else q
    if c = 59 && !q then [] :: splitStatements q cs
    else
      match splitStatements q cs with
      | [] => [[c]]
      | piece :: pieces => (c :: piece) :: pieces

/-- A piece is dropped when it is blank and reported when it is too long. -/
def reportPiece (piece : Bytes) : Option SqlEvent :=
  if MAX_SQL_LEN - 1 < (skipSqlSpaces piece).length then some .tooLong
  else (statementText piece).map .statement

def reference (file : Bytes) : List SqlEvent :=
  (splitStatements false (stripComments false false file)).filterMap reportPiece

end MiniDbms.Cli
