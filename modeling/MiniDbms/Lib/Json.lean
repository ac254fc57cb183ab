import MiniDbms.Lib.CString

/-!
# JSON documents

A document together with the way it is written: the white space between its tokens,
the escapes in its strings and the digits of its numbers.  `text` gives its bytes, so
the values of these types are the valid documents.
-/

namespace MiniDbms.Json

def isWs (b : UInt8) : Bool := b == 32 || b == 9 || b == 10 || b == 13

/-- White space between two tokens. -/
structure Ws where
  bytes : Bytes := []
  blank : bytes.all isWs = true := by rfl
deriving DecidableEq

/-! ## Strings -/

/-- The escapes that are written with one letter. -/
inductive Escape
  | quote
  | backslash
  | slash
  | backspace
  | formFeed
  | lineFeed
  | carriageReturn
  | tab
deriving DecidableEq

def Escape.letter : Escape → UInt8
  | .quote => 34
  | .backslash => 92
  | .slash => 47
  | .backspace => 98
  | .formFeed => 102
  | .lineFeed => 110
  | .carriageReturn => 114
  | .tab => 116

def Escape.value : Escape → UInt8
  | .quote => 34
  | .backslash => 92
  | .slash => 47
  | .backspace => 8
  | .formFeed => 12
  | .lineFeed => 10
  | .carriageReturn => 13
  | .tab => 9

/-- A byte that stands for itself in a string. -/
def isPlain (b : UInt8) : Bool := 32 ≤ b && b != 34 && b != 92

/-- The value of a hexadecimal digit. -/
def hexVal (b : UInt8) : Option Nat :=
  if isDigit b then some (b.toNat - 48)
  else if 97 ≤ b ∧ b ≤ 102 then some (b.toNat - 87)
  else if 65 ≤ b ∧ b ≤ 70 then some (b.toNat - 55)
  else none

structure HexDigit where
  byte : UInt8
  hex : (hexVal byte).isSome = true
deriving DecidableEq

def HexDigit.val (d : HexDigit) : Nat := (hexVal d.byte).getD 0

/-- What a string is made of. -/
inductive Piece
  | plain (b : UInt8) (h : isPlain b = true)
  | escape (e : Escape)
  | unicode (a b c d : HexDigit)
deriving DecidableEq

def Piece.text : Piece → Bytes
  | .plain b _ => [b]
  | .escape e => [92, e.letter]
  | .unicode a b c d => [92, 117, a.byte, b.byte, c.byte, d.byte]

/-- A string between its quotes. -/
def quoted (s : List Piece) : Bytes := 34 :: (s.flatMap Piece.text ++ [34])

def utf8 (c : Nat) : Bytes :=
  let cont (n : Nat) : UInt8 := UInt8.ofNat (128 + n % 64)
  if c < 128 then [UInt8.ofNat c]
  else if c < 2048 then [UInt8.ofNat (192 + c / 64), cont c]
  else if c < 65536 then [UInt8.ofNat (224 + c / 4096), cont (c / 64), cont c]
  else [UInt8.ofNat (240 + c / 262144), cont (c / 4096), cont (c / 64), cont c]

def Piece.unit : Piece → Option Nat
  | .unicode a b c d => some (((a.val * 16 + b.val) * 16 + c.val) * 16 + d.val)
  | _ => none

/-- The bytes of a piece that is not half of a surrogate pair. -/
def Piece.decode : Piece → Bytes
  | .plain b _ => [b]
  | .escape e => [e.value]
  | p => utf8 (p.unit.getD 0)

/-- The code point of a surrogate pair. -/
def surrogates (hi lo : Piece) : Option Nat :=
  match hi.unit, lo.unit with
  | some h, some l =>
    if 0xD800 ≤ h ∧ h < 0xDC00 ∧ 0xDC00 ≤ l ∧ l < 0xE000 then
      some (0x10000 + (h - 0xD800) * 0x400 + (l - 0xDC00))
    else none
  | _, _ => none

/-- The bytes that a string stands for. -/
def decode : List Piece → Bytes
  | [] => []
  | [p] => p.decode
  | p :: q :: rest =>
    match surrogates p q with
    | some c => utf8 c ++ decode rest
    | none => p.decode ++ decode (q :: rest)

/-! ## Numbers -/

/-- A run of digits. -/
structure Digits where
  bytes : Bytes
  digits : bytes ≠ [] ∧ bytes.all isDigit = true
deriving DecidableEq

inductive Sign
  | none
  | plus
  | minus
deriving DecidableEq

def Sign.text : Sign → Bytes
  | .none => []
  | .plus => [43]
  | .minus => [45]

/-- A number: no zero leads an integer part of several digits. -/
structure Number where
  negative : Bool
  int : Digits
  noLead : int.bytes.head? = some 48 → int.bytes = [48]
  frac : Option Digits
  exp : Option (Bool × Sign × Digits)
deriving DecidableEq

def Number.text (n : Number) : Bytes :=
  (if n.negative then [45] else []) ++ n.int.bytes
    ++ (match n.frac with
        | some digits => 46 :: digits.bytes
        | none => [])
    ++ (match n.exp with
        | some (upper, sign, digits) => (if upper then 69 else 101) :: (sign.text ++ digits.bytes)
        | none => [])

/-! ## Values -/

inductive Literal
  | true
  | false
  | null
deriving DecidableEq

def Literal.text : Literal → Bytes
  | .true => str "true"
  | .false => str "false"
  | .null => str "null"

mutual

/-- A value.  `blank` stands before the closing bracket. -/
inductive Value
  | literal (l : Literal)
  | number (n : Number)
  | string (s : List Piece)
  | array (items : List Item) (blank : Ws)
  | object (members : List Member) (blank : Ws)

inductive Item
  | mk (before : Ws) (value : Value) (after : Ws)

inductive Member
  | mk (before : Ws) (name : List Piece) (afterName beforeValue : Ws) (value : Value) (after : Ws)

end

mutual

def Value.text : Value → Bytes
  | .literal l => l.text
  | .number n => n.text
  | .string s => quoted s
  | .array items blank => 91 :: (itemsText items ++ blank.bytes ++ [93])
  | .object members blank => 123 :: (membersText members ++ blank.bytes ++ [125])

def Item.text : Item → Bytes
  | .mk before value after => before.bytes ++ value.text ++ after.bytes

def Member.text : Member → Bytes
  | .mk before name afterName beforeValue value after =>
    before.bytes ++ quoted name ++ afterName.bytes
      ++ 58 :: (beforeValue.bytes ++ value.text ++ after.bytes)

/-- The items of an array, a comma between each two. -/
def itemsText : List Item → Bytes
  | [] => []
  | item :: items => item.text ++ moreItems items

def moreItems : List Item → Bytes
  | [] => []
  | item :: items => 44 :: (item.text ++ moreItems items)

def membersText : List Member → Bytes
  | [] => []
  | m :: members => m.text ++ moreMembers members

def moreMembers : List Member → Bytes
  | [] => []
  | m :: members => 44 :: (m.text ++ moreMembers members)

end

def Member.name : Member → List Piece
  | .mk _ name _ _ _ _ => name

end MiniDbms.Json
