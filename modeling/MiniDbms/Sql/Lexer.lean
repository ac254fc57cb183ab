import MiniDbms.Sql.Types

/-!
# The lexer

`Lexer` is the SQL text together with a position.  Tokens are only ever read
forwards, so the state kept here is the text from the position on.
-/

namespace MiniDbms

/-- Skip a UTF-8 byte order mark. -/
def initLexer (sql : Bytes) : Bytes :=
  if sql.take 3 = [0xEF, 0xBB, 0xBF] then sql.drop 3 else sql

/-- Characters of an identifier or a number after its first one. -/
def isWordChar (c : UInt8) : Bool :=
  isAlnum c || c == 95 || c == 45 || c == 46

def symbolType (c : UInt8) : Option SqlTokenType :=
  if c = 42 then some .star
  else if c = 44 then some .comma
  else if c = 61 then some .eq
  else if c = 40 then some .lparen
  else if c = 41 then some .rparen
  else if c = 59 then some .semicolon
  else none

/-- Keywords are matched on the upper-cased token text, which has already been
cut to the size of `Token.text`. -/
def keywordType (text : Bytes) : SqlTokenType :=
  let upper := text.map toUpper
  if upper = str "SELECT" then .select
  else if upper = str "INSERT" then .insert
  else if upper = str "UPDATE" then .update
  else if upper = str "DELETE" then .delete
  else if upper = str "FROM" then .from
  else if upper = str "WHERE" then .where
  else if upper = str "SET" then .set
  else if upper = str "INTO" then .into
  else if upper = str "VALUES" then .values
  else if upper = str "BETWEEN" then .between
  else if upper = str "AND" then .and
  else .identifier

/-- `get_next_token`: the token at the front of the text and the text after it.
A character that starts no token is reported without being consumed. -/
def getNextToken (text : Bytes) : Token × Bytes :=
  match text.dropWhile isSpace with
  | [] => (⟨.eof, .empty⟩, [])
  | c :: rest =>
    match symbolType c with
    | some type => (⟨type, strncpy 255 [c]⟩, rest)
    | none =>
      if c = 39 then
        let body := rest.takeWhile (· != 39)
        -- the closing quote is consumed when there is one
        (⟨.string, strncpy 255 body⟩, (rest.dropWhile (· != 39)).drop 1)
      else if isAlpha c || c == 95 then
        let word := strncpy 255 (c :: rest.takeWhile isWordChar)
        (⟨keywordType word.bytes, word⟩, rest.dropWhile isWordChar)
      else if isDigit c then
        (⟨.number, strncpy 255 (c :: rest.takeWhile isWordChar)⟩,
          rest.dropWhile isWordChar)
      else
        (⟨.illegal, .empty⟩, c :: rest)

end MiniDbms
