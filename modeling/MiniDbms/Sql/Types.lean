import MiniDbms.Lib.CString

/-!
# Statements and tokens

The records of `types.h` that the SQL front end fills in and the table engine
reads.  Arrays with a count become lists; the character arrays keep their sizes.
-/

namespace MiniDbms

def MAX_RECORDS : Nat := 2000000
def RECORD_SIZE : Nat := 1024
def MAX_COLS : Nat := 15
def MAX_UKS : Nat := 5
def MAX_WHERE_CONDITIONS : Nat := 8

inductive StatementType
  | insert
  | select
  | delete
  | update
  | unrecognized
deriving DecidableEq, Repr

inductive WhereType
  | none
  | eq
  | between
deriving DecidableEq, Repr

structure WhereCondition where
  type : WhereType
  col : CBuf 49
  val : CBuf 255
  endVal : CBuf 255
deriving DecidableEq

inductive ColumnType
  | normal
  | pk
  | uk
  | nn
deriving DecidableEq, Repr

/-- What the parser hands to the engine.  The four last fields repeat the first
condition of the WHERE clause. -/
structure Statement where
  type : StatementType := .insert
  tableName : CBuf 255 := .empty
  rowData : CBuf 1023 := .empty
  selectAll : Bool := false
  selectCols : List (CBuf 49) := []
  setCol : CBuf 49 := .empty
  setVal : CBuf 255 := .empty
  whereConditions : List WhereCondition := []
  whereType : WhereType := .none
  whereCol : CBuf 49 := .empty
  whereVal : CBuf 255 := .empty
  whereEndVal : CBuf 255 := .empty
deriving DecidableEq

/-- The statement `memset` leaves behind; `STMT_INSERT` and `WHERE_NONE` are the
enumerators of value zero. -/
def Statement.zero : Statement := {}

/-- Metadata of one column. -/
structure ColumnInfo where
  name : CBuf 49
  type : ColumnType
deriving DecidableEq

inductive SqlTokenType
  | eof | illegal | identifier | string | number
  | select | insert | update | delete | from | where | set | into | values
  | star | comma | lparen | rparen | eq | between | and | semicolon
deriving DecidableEq, Repr

structure Token where
  type : SqlTokenType
  text : CBuf 255
deriving DecidableEq

end MiniDbms
