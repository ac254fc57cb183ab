import MiniDbms.Db.Table

/-!
# Result documents

`sql_data` of `route.c` and the string encoder `buf_jsn` of `resp.c`.  Buffers
grow as needed, so a function that appends to a buffer is the text it appends.
-/

namespace MiniDbms

/-- A lower-case hexadecimal digit. -/
def hexDigit (n : UInt8) : UInt8 := if n < 10 then 48 + n else 87 + n

/-- One byte of a string in `buf_jsn`. -/
def jsnByte (b : UInt8) : Bytes :=
  if b = 34 ∨ b = 92 then [92, b]
  else if b = 10 then str "\\n"
  else if b = 13 then str "\\r"
  else if b = 9 then str "\\t"
  else if b < 32 then str "\\u00" ++ [hexDigit (b / 16), hexDigit (b % 16)]
  else [b]

def bufJsn (text : Bytes) : Bytes := 34 :: (cstr text).flatMap jsnByte ++ [34]

/-- Texts with a comma between them. -/
def commaSep : List Bytes → Bytes
  | [] => []
  | [x] => x
  | x :: y :: rest => x ++ comma :: commaSep (y :: rest)

def addObj (obj : DbObj) : Bytes :=
  123 :: commaSep (obj.map fun c => bufJsn c.1 ++ 58 :: bufJsn c.2) ++ [125]

def addRows (rows : List DbObj) : Bytes := 91 :: commaSep (rows.map addObj) ++ [93]

def sqlData (res : DbRes) : Bytes :=
  123 :: str "\"rows\":" ++ addRows res.rows ++ str ",\"count\":" ++ printL res.count ++
    (if 0 < res.lastId then str ",\"last_id\":" ++ printL res.lastId else []) ++ [125]

end MiniDbms
