import MiniDbms.Db.Text
import MiniDbms.Lib.Chunks

/-!
# Requests on a connection

`parse_req` of `srv.c` and what it calls.  The buffer of a connection is the list of
its `used` bytes, and the socket the list of the chunks that `recv` will deliver
before the end of the stream.  Receiving and allocating do not fail.
-/

namespace MiniDbms.Http

open Chunks

def CONN_BUF_INIT : Nat := 32768
def MAX_HDR_BYTES : Nat := 8192

structure HttpConn where
  fd : List Bytes
  buf : Bytes
  cap : Nat
  maxTotal : Nat

structure HttpReq where
  meth : CBuf 7 := .empty
  path : CBuf 255 := .empty
  qry : CBuf 511 := .empty
  body : Bytes := []
deriving DecidableEq

/-- What one call reports to the connection handler. -/
structure Result where
  code : Nat
  req : HttpReq := {}
  connClose : Bool := false
deriving DecidableEq

def connInit (fd : List Bytes) (maxBody : Int) : HttpConn :=
  let body := if maxBody > 0 then maxBody.toNat else 1048576
  let hard := body + MAX_HDR_BYTES + 4
  ⟨fd, [], if hard < CONN_BUF_INIT then hard else CONN_BUF_INIT, hard⟩

/-! ## Receiving -/

/-- The offset of the first `\r\n\r\n`. -/
def findHdrEnd : Bytes → Option Nat
  | [] => none
  | c :: rest =>
    if (c :: rest).take 4 = [13, 10, 13, 10] then some 0 else (findHdrEnd rest).map (· + 1)

/-- The doubling loop of `ensure_buffered`. -/
def grow (target maxTotal ncap : Nat) : Nat :=
  if 0 < ncap ∧ ncap < target then
    if ncap > maxTotal / 2 then maxTotal else grow target maxTotal (ncap * 2)
  else ncap
termination_by target - ncap

/-- The capacity that `ensure_buffered` continues with, if it can be had. -/
def reserve (conn : HttpConn) (target : Nat) : Option Nat :=
  if conn.cap < target then
    let ncap := grow target conn.maxTotal (if conn.cap > 0 then conn.cap else CONN_BUF_INIT)
    let ncap := if ncap > conn.maxTotal then conn.maxTotal else ncap
    if ncap < target then none else some ncap
  else some conn.cap

def ensureBuffered (conn : HttpConn) (target : Nat) : Nat × HttpConn :=
  if conn.buf.length < target then
    if target > conn.maxTotal then (413, conn)
    else
      match reserve conn target with
      | none => (413, conn)
      | some cap =>
        let data := (recv (cap - conn.buf.length) conn.fd).1
        let fd := (recv (cap - conn.buf.length) conn.fd).2
        if data = [] then (if conn.buf = [] then 0 else 400, { conn with fd := fd, cap := cap })
        else ensureBuffered { conn with fd := fd, cap := cap, buf := conn.buf ++ data } target
  else (200, conn)
termination_by target - conn.buf.length
decreasing_by
  rename_i hdata
  have hpos : 0 < (recv (cap - conn.buf.length) conn.fd).1.length := List.length_pos_iff.2 hdata
  simp only [List.length_append]
  omega

theorem ensureBuffered_used {conn : HttpConn} {target : Nat} :
    (ensureBuffered conn target).1 = 200 → target ≤ (ensureBuffered conn target).2.buf.length := by
  fun_induction ensureBuffered conn target with
  | case1 => simp
  | case2 => simp
  | case3 =>
      intro hcode
      split at hcode <;> simp at hcode
  | case4 _ _ _ _ _ _ _ _ ih => exact ih
  | case5 conn hlt => exact fun _ => Nat.le_of_not_lt hlt

/-- The loop that waits for the end of the header; `inl` is a code to return. -/
def readHeader (conn : HttpConn) : (Nat ⊕ Nat) × HttpConn :=
  match findHdrEnd conn.buf with
  | some hdrLen => (.inr hdrLen, conn)
  | none =>
    if conn.buf.length ≥ MAX_HDR_BYTES then (.inl 413, conn)
    else if (ensureBuffered conn (conn.buf.length + 1)).1 = 200 then
      readHeader (ensureBuffered conn (conn.buf.length + 1)).2
    else (.inl (ensureBuffered conn (conn.buf.length + 1)).1,
      (ensureBuffered conn (conn.buf.length + 1)).2)
termination_by MAX_HDR_BYTES - conn.buf.length
decreasing_by
  rename_i hcode
  have hused := ensureBuffered_used hcode
  omega

/-! ## The header -/

/-- One `%Ns` of `sscanf`, which reads a C string. -/
def scanWord (n : Nat) (text : Bytes) : Option (CBuf n × Bytes) :=
  let text := (cstr text).dropWhile isSpace
  if text = [] then none
  else
    let word := strncpy n (text.takeWhile (!isSpace ·))
    some (word, text.drop word.bytes.length)

/-- `trim`, which takes fewer characters for white space than `isspace`. -/
def isBlank (c : UInt8) : Bool := c == 32 || c == 9 || c == 13 || c == 10

def trim (s : Bytes) : Bytes := (s.dropWhile isBlank).rdropWhile isBlank

/-- `strncasecmp` with the length of the literal: the text starts with it. -/
def startsWith (s literal : Bytes) : Bool :=
  (s.take literal.length).map toUpper == literal.map toUpper

/-- `strtoul` in base ten: the value and the text behind it. -/
def strtoul (s : Bytes) : Nat × Bytes :=
  let (neg, text) := takeSign (s.dropWhile isSpace)
  let digits := text.takeWhile isDigit
  if digits = [] then (0, s)
  else
    let value := digitsVal digits
    (if value ≥ 2 ^ 64 then 2 ^ 64 - 1 else if neg then (2 ^ 64 - value) % 2 ^ 64 else value,
      text.dropWhile isDigit)

/-- What the header says. -/
structure Head where
  req : HttpReq := {}
  connClose : Bool := false
  bodyLen : Nat := 0

/-- The request line; the state at a `return 400` is kept with it. -/
def requestLine (line : Bytes) : Except Head Head :=
  match scanWord 7 line with
  | none => .error {}
  | some (meth, line) =>
    match scanWord 255 line with
    | none => .error { req := { meth := meth } }
    | some (path, line) =>
      match scanWord 15 line with
      | none => .error { req := { meth := meth, path := path } }
      | some (version, _) =>
        if version.bytes = str "HTTP/1.1" then .ok { req := { meth := meth, path := path } }
        else .error { req := { meth := meth, path := path } }

/-- One header line; a line without a colon is passed over. -/
def headerLine (head : Head) (line : Bytes) : Except Head Head :=
  match line.dropWhile (· != 58) with
  | [] => .ok head
  | _ :: value =>
    let name := trim (line.takeWhile (· != 58))
    let value := trim value
    if startsWith name (str "Content-Length") then
      if (strtoul value).2 = [] then .ok { head with bodyLen := (strtoul value).1 }
      else .error head
    else if startsWith name (str "Connection") then
      if startsWith value (str "close") then .ok { head with connClose := true } else .ok head
    else if startsWith name (str "Transfer-Encoding") then .error head
    else .ok head

/-- The header is a C string cut into its non-empty lines by `strtok_r`. -/
def parseHead (header : Bytes) : Except Head Head :=
  match ((cstr header).splitOnP fun c => c == 13 || c == 10).filter (· ≠ []) with
  | [] => .error {}
  | line :: lines => do
    let head ← requestLine line
    lines.foldlM headerLine head

/-! ## The request -/

/-- The query string is cut off the path. -/
def splitQuery (req : HttpReq) : HttpReq :=
  match req.path.bytes.dropWhile (· != 63) with
  | [] => req
  | _ :: qry => { req with
      qry := strncpy 511 qry, path := strncpy 255 (req.path.bytes.takeWhile (· != 63)) }

def bodyCap (maxBody : Int) : Nat := if maxBody > 0 then maxBody.toNat else 0

/-- `parse_req` from the header of `hdrLen` bytes on. -/
def finishReq (maxBody : Int) (hdrLen : Nat) (conn : HttpConn) : Result × HttpConn :=
  if hdrLen > MAX_HDR_BYTES then ({ code := 413 }, conn)
  else
    match parseHead (conn.buf.take hdrLen) with
    | .error head => (⟨400, head.req, head.connClose⟩, conn)
    | .ok head =>
      if head.bodyLen > bodyCap maxBody then (⟨413, head.req, head.connClose⟩, conn)
      else if hdrLen + 4 + head.bodyLen > conn.maxTotal then
        (⟨413, head.req, head.connClose⟩, conn)
      else
        let (code, conn) := ensureBuffered conn (hdrLen + 4 + head.bodyLen)
        if code ≠ 200 then (⟨code, head.req, head.connClose⟩, conn)
        else
          let body := (conn.buf.drop (hdrLen + 4)).take head.bodyLen
          (⟨200, splitQuery { head.req with body := body }, head.connClose⟩,
            { conn with buf := conn.buf.drop (hdrLen + 4 + head.bodyLen) })

def parseReq (maxBody : Int) (conn : HttpConn) : Result × HttpConn :=
  match readHeader conn with
  | (.inl code, conn) => ({ code := code }, conn)
  | (.inr hdrLen, conn) => finishReq maxBody hdrLen conn

end MiniDbms.Http
