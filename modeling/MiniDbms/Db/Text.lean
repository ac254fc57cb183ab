import MiniDbms.Sql.Types
import Mathlib.Data.List.DropRight
import Mathlib.Data.Int.Order.Basic

/-!
# Text helpers of the table engine

Cell texts, literals and CSV lines are cut, trimmed and compared by the small
functions at the top of `dbapi.c`.
-/

namespace MiniDbms

/-- The single quote. -/
def quote : UInt8 := 39

def comma : UInt8 := 44

/-- White space off both ends. -/
def trimWs (s : Bytes) : Bytes := (s.dropWhile isSpace).rdropWhile isSpace

/-- One pair of surrounding quotes off. -/
def unquote (s : Bytes) : Bytes :=
  if s.head? = some quote ∧ 2 ≤ s.length ∧ s.getLast? = some quote then s.tail.dropLast else s

/-- `trim_uq`. -/
def trimUq (s : Bytes) : Bytes := unquote (trimWs s)

/-- `norm_v` into a buffer of `size` bytes: the text is cut before it is trimmed. -/
def normV (size : Nat) (s : Bytes) : Bytes := trimUq (s.take (size - 1))

def cmpV (lhs rhs : Bytes) : Bool := normV RECORD_SIZE lhs == normV RECORD_SIZE rhs

def cmpRng (src lo hi : Bytes) : Bool :=
  decide (normV RECORD_SIZE lo ≤ normV RECORD_SIZE src) &&
    decide (normV RECORD_SIZE src ≤ normV RECORD_SIZE hi)

def LONG_MAX : Int := 9223372036854775807
def LONG_MIN : Int := -9223372036854775808

/-- The value of a string of decimal digits. -/
def digitsVal (s : Bytes) : Nat := s.foldl (fun n c => n * 10 + (c.toNat - 48)) 0

/-- The sign `strtol` accepts in front of the digits. -/
def takeSign : Bytes → Bool × Bytes
  | 45 :: cs => (true, cs)
  | 43 :: cs => (false, cs)
  | cs => (false, cs)

/-- `strtol(s, &end, 10)` together with the test that it consumed the whole text
without a range error. -/
def strtol (s : Bytes) : Option Int :=
  let (negative, digits) := takeSign (s.dropWhile isSpace)
  if digits ≠ [] ∧ digits.all isDigit then
    let v : Int := if negative then -(digitsVal digits : Int) else digitsVal digits
    if LONG_MIN ≤ v ∧ v ≤ LONG_MAX then some v else none
  else none

/-- `parse_l`. -/
def parseL (s : Bytes) : Option Int :=
  let buf := normV 256 s
  if buf = [] then none else strtol buf

/-- A `long` after signed arithmetic, in two's complement. -/
def wrapL (n : Int) : Int := (n - LONG_MIN) % (2 ^ 64) + LONG_MIN

/-- The decimal digits of a number below `10 ^ fuel`, in front of `acc`. -/
def printDigits : Nat → Nat → Bytes → Bytes
  | 0, _, acc => acc
  | fuel + 1, n, acc =>
    let acc := UInt8.ofNat (48 + n % 10) :: acc
    if n / 10 = 0 then acc else printDigits fuel (n / 10) acc

/-- `snprintf(buf, 64, "%ld", n)`. -/
def printL (n : Int) : Bytes :=
  if n < 0 then 45 :: printDigits 20 n.natAbs [] else printDigits 20 n.natAbs []

/-- Put a character in front of the first field. -/
def consField (c : UInt8) : List Bytes → List Bytes
  | [] => [[c]]
  | f :: fs => (c :: f) :: fs

/-- The loop of `split_csv` with room for `left` more fields.  Once the table of
fields is full the rest of the line belongs to the last one. -/
def splitLoop : Bool → Nat → Bytes → List Bytes
  | _, _, [] => [[]]
  | inQ, left, c :: cs =>
    if left = 0 then [c :: cs]
    else
      let inQ := if c = quote then !inQ else inQ
      if c = comma && !inQ then [] :: splitLoop inQ (left - 1) cs
      else consField c (splitLoop inQ left cs)

/-- `split_csv(row, vals, MAX_COLS, buf, RECORD_SIZE)`; every caller passes these
sizes. -/
def splitCsv (row : Bytes) : List Bytes :=
  splitLoop false (MAX_COLS - 1) (row.take (RECORD_SIZE - 1))

end MiniDbms
