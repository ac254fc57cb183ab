import MiniDbms.Db.Table

/-!
# CSV files

`tab_load` reads a table back from the file that `tab_save` writes.  Lines are
read with `fgets` into a buffer of `RECORD_SIZE` bytes, so a longer line arrives
in pieces.
-/

namespace MiniDbms

open Bptree

def newline : UInt8 := 10
def lparen : UInt8 := 40

/-- `strstr(hay, needle) != NULL`. -/
def strstr (hay needle : Bytes) : Bool := hay.tails.any fun t => needle.isPrefixOf t

/-- What `fgets` takes off the front of a file: `room` bytes at most, and nothing
behind a newline. -/
def fgets : Nat → Bytes → Bytes × Bytes
  | 0, file => ([], file)
  | _ + 1, [] => ([], [])
  | room + 1, c :: cs =>
    if c = newline then ([c], cs)
    else
      let (line, rest) := fgets room cs
      (c :: line, rest)

/-- The strings a loop of `fgets` calls sees until the end of the file. -/
def readLines : Nat → Bytes → List Bytes
  | 0, _ => []
  | fuel + 1, file =>
    match file with
    | [] => []
    | c :: cs =>
      let (line, rest) := fgets (RECORD_SIZE - 1) (c :: cs)
      cstr line :: readLines fuel rest

/-! ## Loading -/

/-- The schema fields `load_hdr` fills in. -/
structure Hdr where
  cols : List ColumnInfo := []
  pkIdx : Option Nat := none
  ukIdx : List Nat := []

/-- One column of the header line.  There is room for `MAX_UKS` unique columns;
the code does not check it. -/
def hdrStep (hdr : Hdr) (field : Bytes) : Except Fault Hdr :=
  let v := trimUq field
  let tag := v.dropWhile (· != lparen)
  let name := strncpy 49 (v.takeWhile (· != lparen))
  let i := hdr.cols.length
  if strstr tag (str "(PK)") then
    .ok { hdr with cols := hdr.cols ++ [⟨name, .pk⟩], pkIdx := some i }
  else if strstr tag (str "(UK)") then
    if MAX_UKS ≤ hdr.ukIdx.length then .error .ukOverflow
    else .ok { hdr with cols := hdr.cols ++ [⟨name, .uk⟩], ukIdx := hdr.ukIdx ++ [i] }
  else if strstr tag (str "(NN)") then
    .ok { hdr with cols := hdr.cols ++ [⟨name, .nn⟩] }
  else .ok { hdr with cols := hdr.cols ++ [⟨name, .normal⟩] }

def hdrLoop : Hdr → List Bytes → Except Fault Hdr
  | hdr, [] => .ok hdr
  | hdr, field :: fields => (hdrStep hdr field).bind fun hdr => hdrLoop hdr fields

def loadHdr (line : Bytes) : Except Fault Hdr := hdrLoop {} (splitCsv line)

def loadRow (tab : TabVer) (line : Bytes) : Option TabVer :=
  let vals := splitCsv line
  if vals.length ≠ tab.cols.length then none
  else
    (tab.ensureRowCap (tab.rows.length + 1)).bind fun tab =>
      let row := vals.map trimUq
      match tab.pkIdx with
      | none => some { tab with rows := tab.rows ++ [row] }
      | some p =>
        (parseL (cell row p)).map fun key =>
          { tab with
            rows := tab.rows ++ [row]
            nextId := if tab.nextId ≤ key then wrapL (key + 1) else tab.nextId }

/-- A line up to its first `\r` or `\n`. -/
def chomp (line : Bytes) : Bytes := line.takeWhile fun c => c != 13 && c != newline

/-- The row loop of `tab_load`; empty lines are skipped. -/
def loadRows : TabVer → List Bytes → Option TabVer
  | tab, [] => some tab
  | tab, line :: lines =>
    if chomp line = [] then loadRows tab lines
    else (loadRow tab (chomp line)).bind fun tab => loadRows tab lines

/-- The table a header line starts from. -/
def hdrTab (name : Bytes) (hdr : Hdr) : TabVer where
  name := name
  cols := hdr.cols
  pkIdx := hdr.pkIdx
  ukIdx := hdr.ukIdx
  rows := []
  rowCap := 0
  slots := 0
  nextId := 1
  verId := 0
  pkTree := create Int
  ukTree := []

/-- `tab_load` on the content of the table's file; `none` is NULL. -/
def tabLoad (name : Bytes) (file : Option Bytes) : Except Fault (Option TabVer) :=
  match file with
  | none => .ok none
  | some bytes =>
    match readLines bytes.length bytes with
    | [] => .ok none
    | header :: lines =>
      (loadHdr header).map fun hdr =>
        (loadRows (hdrTab name hdr) lines).bind fun tab =>
          match tab.idxBuild with
          | (tab, true) => some { tab with verId := 1 }
          | (_, false) => none

/-! ## Saving -/

def colTag : ColumnType → Bytes
  | .pk => str "(PK)"
  | .uk => str "(UK)"
  | .nn => str "(NN)"
  | .normal => []

def csvCol (col : ColumnInfo) : Bytes := col.name.bytes ++ colTag col.type

/-- A cell is quoted when it holds a comma, and for no other reason. -/
def csvCell (src : Bytes) : Bytes :=
  if comma ∈ src then quote :: src ++ [quote] else src

def csvLine (fields : List Bytes) : Bytes := List.intercalate [comma] fields ++ [newline]

/-- The text `tab_save` writes. -/
def csvText (tab : TabVer) : Bytes :=
  csvLine (tab.cols.map csvCol) ++ tab.rows.flatMap fun row => csvLine (row.map csvCell)

end MiniDbms
