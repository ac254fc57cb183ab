import MiniDbms.Legacy.Text
import Mathlib.Data.List.Infix

/-!
# Schema and rows

The header line of a CSV file names the columns and their constraints; a row is a
line that `parse_csv_row` cuts into at most `MAX_COLS` fields.
-/

namespace MiniDbms.Legacy

structure ColumnInfo where
  name : CBuf 49
  type : ColumnType
deriving DecidableEq

/-- The columns of a table.  The UK columns are listed in the order of the header. -/
structure Schema where
  cols : List ColumnInfo := []
  pkIdx : Option Nat := none
  ukIndices : List Nat := []
deriving DecidableEq

/-- What may follow a column name, from its first parenthesis on. -/
def columnType (paren : Bytes) : ColumnType :=
  if str "(PK)" <:+: paren then .pk
  else if str "(UK)" <:+: paren then .uk
  else if str "(NN)" <:+: paren then .nn
  else .normal

/-- One token of the header. -/
def Schema.addColumn (schema : Schema) (token : Bytes) : Schema :=
  let idx := schema.cols.length
  let paren := token.dropWhile (· != 40)
  let type := columnType paren
  { cols := schema.cols ++ [⟨strncpy 49 (token.takeWhile (· != 40)), type⟩]
    pkIdx := if type = .pk then some idx else schema.pkIdx
    ukIndices :=
      if type = .uk ∧ schema.ukIndices.length < MAX_UKS then schema.ukIndices ++ [idx]
      else schema.ukIndices }

def isHeaderDelimiter (c : UInt8) : Bool := c == comma || isLineEnd c

/-- The byte order mark is skipped. -/
def skipBom : Bytes → Bytes
  | 0xEF :: 0xBB :: 0xBF :: rest => rest
  | header => header

/-- The tokens that `strtok` finds. -/
def headerTokens (header : Bytes) : List Bytes :=
  ((cstr (skipBom header)).splitOnP isHeaderDelimiter).filter (· ≠ [])

/-- The first part of `load_table_contents`, on the first line. -/
def parseHeader (header : Bytes) : Schema :=
  ((headerTokens header).take MAX_COLS).foldl Schema.addColumn {}

/-! ## Rows -/

/-- `parse_csv_row` of a NUL-terminated row. -/
def parseCsvRow (row : Bytes) : List Bytes := splitCsv row

/-- A field of a row; `none` stands for the pointer that is still NULL. -/
def field (row : Bytes) (col : Nat) : Option Bytes := (parseCsvRow row)[col]?

/-- `parse_long_value` of a field. -/
def fieldLong (row : Bytes) (col : Nat) : Option Int := (field row col).bind parseLongValue

/-- The key of a row in the index of a UK column; an empty one is not indexed. -/
def ukKey (row : Bytes) (col : Nat) : Bytes := normV RECORD_SIZE ((field row col).getD [])

end MiniDbms.Legacy
