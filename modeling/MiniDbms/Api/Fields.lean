import MiniDbms.Lib.Json
import MiniDbms.Lib.Lists
import Mathlib.Data.List.Infix
import Mathlib.Order.Nat

/-!
# Fields of a request body

`find_key`, `scan_str`, `json_str` and `json_arr` of `route.c` and the place in a JSON
body that they read.  A pointer into the body is the rest of the body from there on.
-/

namespace MiniDbms.Api

open Json

/-! ## The scanner -/

def skipWs (ptr : Bytes) : Bytes := ptr.dropWhile isSpace

/-- The quoted name in a buffer of 64 bytes. -/
def keyPat (key : Bytes) : Bytes := (34 :: (key ++ [34])).take 63

/-- `strstr`. -/
def strstr (hay needle : Bytes) : Option Bytes := hay.tails.find? (needle.isPrefixOf ·)

/-- `find_key`. -/
def findKey (json key : Bytes) : Option Bytes :=
  match strstr json (keyPat key) with
  | none => none
  | some ptr =>
    match (ptr.drop (keyPat key).length).dropWhile (· != 58) with
    | [] => none
    | _ :: ptr => some (skipWs ptr)

/-- The first loop of `scan_str`: the text up to the closing quote, and what is behind. -/
def scanEnd : Bool → Bytes → Option (Bytes × Bytes)
  | _, [] => none
  | esc, c :: rest =>
    if !esc && c == 34 then some ([], rest)
    else (scanEnd (!esc && c == 92) rest).map fun (text, rest) => (c :: text, rest)

def unescape (c : UInt8) : UInt8 :=
  if c = 110 then 10 else if c = 114 then 13 else if c = 116 then 9 else c

/-- The second loop of `scan_str`. -/
def unescapeAll : Bytes → Bytes
  | [] => []
  | [c] => [c]
  | c :: d :: rest =>
    if c = 92 then unescape d :: unescapeAll rest else c :: unescapeAll (d :: rest)

/-- `scan_str` where allocation succeeds: the decoded string and the end position. -/
def scanStr : Bytes → Option (Bytes × Bytes)
  | 34 :: ptr => (scanEnd false ptr).map fun (text, rest) => (unescapeAll text, rest)
  | _ => none

/-- `json_str`; `none` is the return value 0. -/
def jsonStr (json key : Bytes) : Option Bytes :=
  (findKey json key).bind fun ptr => (scanStr ptr).map Prod.fst

theorem scanEnd_length {ptr : Bytes} : ∀ {esc : Bool} {text rest : Bytes},
    scanEnd esc ptr = some (text, rest) → rest.length < ptr.length := by
  induction ptr with
  | nil =>
      intro esc text rest h
      cases h
  | cons c ptr ih =>
      intro esc text rest h
      rw [scanEnd] at h
      split at h
      · cases h
        exact Nat.lt_succ_self _
      · obtain ⟨⟨text', rest'⟩, hrest, he⟩ := Option.map_eq_some_iff.1 h
        cases he
        have := ih hrest
        rw [List.length_cons]
        omega

theorem scanStr_length {ptr text rest : Bytes} (h : scanStr ptr = some (text, rest)) :
    rest.length < ptr.length := by
  unfold scanStr at h
  split at h
  · obtain ⟨⟨raw, rest'⟩, hscan, he⟩ := Option.map_eq_some_iff.1 h
    cases he
    have := scanEnd_length hscan
    rw [List.length_cons]
    omega
  · cases h

theorem length_skipWs_le (ptr : Bytes) : (skipWs ptr).length ≤ ptr.length :=
  (List.dropWhile_sublist _).length_le

/-- What `json_arr` returns: 0, -1, or 1 with the strings. -/
inductive ArrResult
  | absent
  | failed
  | values (vals : List Bytes)
deriving DecidableEq

def ArrResult.push (item : Bytes) : ArrResult → ArrResult
  | .values vals => .values (item :: vals)
  | r => r

/-- Past a comma, if there is one. -/
def skipComma : Bytes → Bytes
  | 44 :: ptr => ptr
  | ptr => ptr

theorem length_skipComma_le (ptr : Bytes) : (skipComma ptr).length ≤ ptr.length := by
  unfold skipComma
  split
  · simp
  · exact le_rfl

/-- The loop of `json_arr`. -/
def arrLoop (ptr : Bytes) : ArrResult :=
  match skipWs ptr with
  | 34 :: _ =>
    match _h : scanStr (skipWs ptr) with
    | none => .failed
    | some (item, rest) => (arrLoop (skipComma (skipWs rest))).push item
  | _ => .values []
termination_by ptr.length
decreasing_by
  have h1 := scanStr_length _h
  have h2 := length_skipWs_le ptr
  have h3 := length_skipWs_le rest
  have h4 := length_skipComma_le (skipWs rest)
  omega

/-- `json_arr`. -/
def jsonArr (json key : Bytes) : ArrResult :=
  match findKey json key with
  | some (91 :: ptr) => arrLoop ptr
  | _ => .absent

/-! ## Searching -/

theorem isPrefix_append_cons {pat a b : Bytes} {x : UInt8} (hx : x ∉ pat) :
    pat <+: a ++ x :: b ↔ pat <+: a := by
  constructor
  · intro h
    have hax : a ++ [x] <+: a ++ x :: b := ⟨b, by simp⟩
    obtain h | h := List.prefix_or_prefix_of_prefix h hax
    · rw [List.prefix_concat_iff] at h
      obtain rfl | h := h
      · exact absurd (by simp) hx
      · exact h
    · exact absurd (h.subset (by simp)) hx
  · exact fun h => h.trans (List.prefix_append _ _)

theorem strstr_cons (pat s : Bytes) (c : UInt8) :
    strstr (c :: s) pat = if pat <+: c :: s then some (c :: s) else strstr s pat := by
  unfold strstr
  rw [List.tails_cons, List.find?_cons]
  by_cases h : pat <+: c :: s
  · rw [if_pos h, List.isPrefixOf_iff_prefix.2 h]
  · rw [if_neg h, Bool.eq_false_iff.2 (mt List.isPrefixOf_iff_prefix.1 h)]

/-- An occurrence does not reach over a byte that the pattern does not hold. -/
theorem strstr_append_cons {pat b : Bytes} {x : UInt8} (hpat : pat ≠ []) (hx : x ∉ pat) :
    ∀ a, strstr (a ++ x :: b) pat =
      match strstr a pat with
      | some ptr => some (ptr ++ x :: b)
      | none => strstr b pat
  | [] => by
      have hnil : strstr [] pat = none := by
        cases pat with
        | nil => exact absurd rfl hpat
        | cons c pat => rfl
      rw [hnil, List.nil_append, strstr_cons, if_neg]
      intro h
      cases pat with
      | nil => exact hpat rfl
      | cons c pat =>
          obtain ⟨rfl, -⟩ := List.cons_prefix_cons.1 h
          exact hx List.mem_cons_self
  | c :: a => by
      rw [List.cons_append, strstr_cons, strstr_cons, strstr_append_cons hpat hx a]
      by_cases h : pat <+: c :: a
      · have h' : pat <+: c :: (a ++ x :: b) := (isPrefix_append_cons hx).2 h
        rw [if_pos h, if_pos h']
        rfl
      · have h' : ¬ pat <+: c :: (a ++ x :: b) := mt (isPrefix_append_cons (a := c :: a) hx).1 h
        rw [if_neg h, if_neg h']

theorem strstr_suffix {s pat ptr : Bytes} (h : strstr s pat = some ptr) : ptr <:+ s ∧ pat <+: ptr :=
  ⟨(List.mem_tails _ _).1 (List.mem_of_find?_eq_some h),
    List.isPrefixOf_iff_prefix.1 (List.find?_some (p := (pat.isPrefixOf ·)) h)⟩

/-! ## Strings -/

/-- The escapes that `scan_str` knows. -/
def Escape.simple : Escape → Bool
  | .backspace => false
  | .formFeed => false
  | _ => true

def Piece.simple : Piece → Bool
  | .plain _ _ => true
  | .escape e => Escape.simple e
  | .unicode _ _ _ _ => false

theorem decode_cons_simple {p : Piece} {s : List Piece} (hp : Piece.simple p = true) :
    decode (p :: s) = p.decode ++ decode s := by
  cases s with
  | nil => simp [decode]
  | cons q s =>
      have hno : surrogates p q = none := by
        cases p with
        | plain b h => rfl
        | escape e => rfl
        | unicode a b c d => cases hp
      rw [decode, hno]

theorem unescape_letter {e : Escape} (he : Escape.simple e = true) :
    unescape e.letter = e.value := by
  cases e <;> first | rfl | cases he

theorem unescapeAll_plain {c : UInt8} (hc : c ≠ 92) (s : Bytes) :
    unescapeAll (c :: s) = c :: unescapeAll s := by
  cases s with
  | nil => rfl
  | cons d s => rw [unescapeAll, if_neg hc]

theorem scanEnd_pieces (rest : Bytes) : ∀ {s : List Piece}, s.all Piece.simple = true →
    scanEnd false (s.flatMap Piece.text ++ 34 :: rest) = some (s.flatMap Piece.text, rest) ∧
      unescapeAll (s.flatMap Piece.text) = decode s
  | [], _ => ⟨rfl, rfl⟩
  | p :: s, h => by
      rw [List.all_cons, Bool.and_eq_true] at h
      obtain ⟨hend, htext⟩ := scanEnd_pieces rest h.2
      rw [decode_cons_simple h.1, List.flatMap_cons]
      cases p with
      | plain b hb =>
          simp only [isPlain, Bool.and_eq_true, decide_eq_true_eq, bne_iff_ne] at hb
          have hesc : (b == 92) = false := beq_eq_false_iff_ne.2 hb.2
          constructor
          · simp [Piece.text, scanEnd, hb.1.2, hesc, hend]
          · simp [Piece.text, unescapeAll_plain hb.2, Piece.decode, htext]
      | escape e =>
          constructor
          · simp [Piece.text, scanEnd, hend]
          · simp [Piece.text, unescapeAll, unescape_letter h.1, Piece.decode, htext]
      | unicode a b c d => exact absurd h.1 (by simp [Piece.simple])

theorem scanStr_quoted {s : List Piece} (hs : s.all Piece.simple = true) (rest : Bytes) :
    scanStr (quoted s ++ rest) = some (decode s, rest) := by
  obtain ⟨hend, htext⟩ := scanEnd_pieces rest hs
  have htail : s.flatMap Piece.text ++ [34] ++ rest = s.flatMap Piece.text ++ 34 :: rest := by simp
  rw [quoted, List.cons_append, htail, scanStr, hend, Option.map_some]
  simp only [htext]

theorem isSpace_of_isWs {b : UInt8} (h : isWs b = true) : isSpace b = true := by
  have hall : ∀ c : UInt8, isWs c = true → isSpace c = true := forall_byte (by decide +kernel)
  exact hall b h

theorem skipWs_append (ws : Ws) {s : Bytes} (hs : ∀ c ∈ s.head?, isSpace c = false) :
    skipWs (ws.bytes ++ s) = s := by
  refine (span_append ?_ hs).2
  rw [List.all_eq_true]
  exact fun c hc => isSpace_of_isWs (List.all_eq_true.1 ws.blank c hc)

/-! ## Arrays of strings -/

/-- A string with the white space around it. -/
structure StringItem where
  before : Ws := {}
  string : List Piece
  after : Ws := {}

def StringItem.item (i : StringItem) : Item := .mk i.before (.string i.string) i.after

theorem StringItem.text_item (i : StringItem) :
    i.item.text = i.before.bytes ++ (quoted i.string ++ i.after.bytes) := by
  rw [item, Item.text, Value.text, List.append_assoc]

theorem head_quoted (s : List Piece) (rest : Bytes) :
    ∀ c ∈ (quoted s ++ rest).head?, isSpace c = false := by
  intro c hc
  obtain rfl : 34 = c := Option.some.inj hc
  decide

theorem arrLoop_item {i : StringItem} (hi : i.string.all Piece.simple = true) (rest : Bytes) :
    arrLoop (i.item.text ++ rest) =
      (arrLoop (skipComma (skipWs (i.after.bytes ++ rest)))).push (decode i.string) := by
  have hskip : skipWs (i.item.text ++ rest) = quoted i.string ++ (i.after.bytes ++ rest) := by
    rw [i.text_item, List.append_assoc, List.append_assoc]
    exact skipWs_append i.before (head_quoted _ _)
  have hscan := scanStr_quoted hi (i.after.bytes ++ rest)
  rw [arrLoop]
  split
  · split
    · rename_i hnone
      rw [hskip, hscan] at hnone
      cases hnone
    · rename_i item rest' hsome
      rw [hskip, hscan] at hsome
      cases hsome
      rfl
  · rename_i hno
    rw [hskip, quoted] at hno
    exact absurd rfl (hno _)

theorem arrLoop_close (blank : Ws) (rest : Bytes) :
    arrLoop (blank.bytes ++ 93 :: rest) = .values [] := by
  have hskip : skipWs (blank.bytes ++ 93 :: rest) = 93 :: rest :=
    skipWs_append blank (by simp [isSpace])
  rw [arrLoop, hskip]
  simp

theorem arrLoop_items {blank : Ws} {rest : Bytes} : ∀ {items : List StringItem},
    (∀ i ∈ items, i.string.all Piece.simple = true) →
      arrLoop (itemsText (items.map StringItem.item) ++ (blank.bytes ++ 93 :: rest)) =
        .values (items.map fun i => decode i.string)
  | [], _ => by
      rw [List.map_nil, itemsText, List.nil_append]
      exact arrLoop_close blank rest
  | [i], h => by
      have hclose : skipWs (i.after.bytes ++ (blank.bytes ++ 93 :: rest)) = 93 :: rest := by
        rw [← List.append_assoc]
        exact skipWs_append ⟨i.after.bytes ++ blank.bytes, by
          rw [List.all_append, i.after.blank, blank.blank]; rfl⟩ (by simp [isSpace])
      rw [List.map_singleton, itemsText, moreItems, List.append_nil,
        arrLoop_item (h i List.mem_cons_self), hclose, skipComma]
      · exact congrArg (ArrResult.push (decode i.string)) (arrLoop_close {} rest)
      · simp
  | i :: j :: items, h => by
      have htext : itemsText ((i :: j :: items).map StringItem.item) =
          i.item.text ++ 44 :: itemsText ((j :: items).map StringItem.item) := by
        simp only [List.map_cons, itemsText, moreItems]
      have hcomma : skipWs (i.after.bytes ++ 44 :: (itemsText ((j :: items).map StringItem.item)
          ++ (blank.bytes ++ 93 :: rest))) = 44 :: (itemsText ((j :: items).map StringItem.item)
          ++ (blank.bytes ++ 93 :: rest)) := skipWs_append i.after (by simp [isSpace])
      rw [htext, List.append_assoc, List.cons_append, arrLoop_item (h i List.mem_cons_self),
        hcomma, skipComma, arrLoop_items fun i' hi' => h i' (List.mem_cons_of_mem i hi')]
      rfl

/-! ## Bodies with one such field -/

inductive Field
  | query
  | queries
deriving DecidableEq

def Field.key : Field → Bytes
  | .query => str "query"
  | .queries => str "queries"

theorem Field.key_noColon (field : Field) : 58 ∉ keyPat field.key := by
  cases field <;> decide +kernel

/-- A JSON object with exactly one member of the name, in the place where it stands. -/
structure Body (field : Field) where
  lead : Ws := {}
  front : List Member := []
  before : Ws := {}
  name : List Piece
  afterName : Ws := {}
  beforeValue : Ws := {}
  value : Value
  after : Ws := {}
  back : List Member := []
  blank : Ws := {}
  trail : Ws := {}
  named : decode name = field.key
  only : ∀ m ∈ front ++ back, decode m.name ≠ field.key

namespace Body

variable {field : Field} (body : Body field)

def member : Member :=
  .mk body.before body.name body.afterName body.beforeValue body.value body.after

def text : Bytes :=
  body.lead.bytes
    ++ (Value.object (body.front ++ body.member :: body.back) body.blank).text
    ++ body.trail.bytes

/-- The text up to the colon of the member. -/
def beforeColon : Bytes :=
  body.lead.bytes
    ++ 123 :: (body.front.flatMap (fun m => m.text ++ [44])
      ++ body.before.bytes ++ quoted body.name ++ body.afterName.bytes)

/-- The text from the value of the member on. -/
def fromValue : Bytes :=
  body.value.text
    ++ (body.after.bytes ++ moreMembers body.back ++ body.blank.bytes ++ [125] ++ body.trail.bytes)

/-- The field is read at the member's value. -/
def ReadsMember : Prop := findKey body.text field.key = some body.fromValue

/-- The quoted name occurs in front of the member's colon, and behind its first
occurrence this is the first colon. -/
def NameLeads : Prop :=
  ∃ ptr, strstr body.beforeColon (keyPat field.key) = some ptr ∧
    58 ∉ ptr.drop (keyPat field.key).length

end Body

theorem membersText_append (m : Member) (back : List Member) : ∀ front : List Member,
    membersText (front ++ m :: back) =
      front.flatMap (fun m => m.text ++ [44]) ++ m.text ++ moreMembers back
  | [] => by
      rw [List.nil_append, membersText]
      rfl
  | m' :: front => by
      have hmore : ∀ members, members ≠ [] → moreMembers members = 44 :: membersText members := by
        intro members hne
        cases members with
        | nil => exact absurd rfl hne
        | cons m members => rw [moreMembers, membersText]
      rw [List.cons_append, membersText, hmore _ (by simp), membersText_append m back front]
      simp

namespace Body

variable {field : Field} (body : Body field)

theorem text_eq : body.text =
    body.beforeColon ++ 58 :: (body.beforeValue.bytes ++ body.fromValue) := by
  unfold text beforeColon fromValue
  rw [Value.text, membersText_append, member, Member.text]
  simp

theorem dropWhile_colon {x : Bytes} (hx : 58 ∉ x) (y : Bytes) :
    (x ++ 58 :: y).dropWhile (· != 58) = 58 :: y := by
  refine (span_append ?_ (by simp)).2
  rw [List.all_eq_true]
  intro c hc
  exact bne_iff_ne.2 fun he => hx (he ▸ hc)

theorem exists_skipWs_colon (r : Bytes) : ∀ x : Bytes, ∃ z, skipWs (x ++ 58 :: r) = z ++ 58 :: r
  | [] => ⟨[], rfl⟩
  | c :: x => by
      obtain ⟨z, hz⟩ := exists_skipWs_colon r x
      unfold skipWs at hz ⊢
      rw [List.cons_append, List.dropWhile_cons]
      split
      · exact ⟨z, hz⟩
      · exact ⟨c :: x, rfl⟩

/-- An occurrence of a quoted name does not start in white space. -/
theorem length_ptr_le {ws : Ws} {rest ptr : Bytes} (h : ptr <:+ ws.bytes ++ rest)
    (hhead : ptr.head? = some 34) : ptr.length ≤ rest.length := by
  obtain hs | ⟨w, rfl⟩ := List.suffix_or_suffix_of_suffix h (List.suffix_append ws.bytes rest)
  · exact hs.length_le
  · cases w with
    | nil => exact le_rfl
    | cons c w =>
        obtain ⟨t, ht⟩ := h
        rw [← List.append_assoc, List.append_left_inj] at ht
        have hc : isWs c = true := List.all_eq_true.1 ws.blank c (by rw [← ht]; simp)
        obtain rfl : c = 34 := Option.some.inj hhead
        exact absurd hc (by decide)

theorem readsMember_iff (hvalue : ∀ c ∈ body.fromValue.head?, isSpace c = false) :
    body.ReadsMember ↔ body.NameLeads := by
  have hpat : keyPat field.key ≠ [] := by simp [keyPat]
  have hfind := strstr_append_cons (b := body.beforeValue.bytes ++ body.fromValue) hpat
    field.key_noColon body.beforeColon
  have hskip := skipWs_append body.beforeValue hvalue
  unfold ReadsMember NameLeads findKey
  rw [text_eq, hfind]
  cases hptr : strstr body.beforeColon (keyPat field.key) with
  | none =>
      -- an occurrence behind the colon leads to a pointer behind the value's start
      simp only [reduceCtorEq, false_and, exists_false, iff_false]
      cases hback : strstr (body.beforeValue.bytes ++ body.fromValue) (keyPat field.key) with
      | none => simp
      | some ptr =>
          obtain ⟨hsuffix, hpre⟩ := strstr_suffix hback
          have hhead : ptr.head? = some 34 := by
            obtain ⟨rest, rfl⟩ := hpre
            simp [keyPat]
          have hlen := length_ptr_le hsuffix hhead
          intro h
          simp only at h
          split at h
          · cases h
          · rename_i c rest hrest
            have hsub := (List.dropWhile_sublist (l := ptr.drop (keyPat field.key).length)
              (· != (58 : UInt8))).length_le
            rw [hrest, List.length_cons, List.length_drop] at hsub
            have hle := length_skipWs_le rest
            rw [Option.some.inj h] at hle
            omega
  | some ptr =>
      obtain ⟨-, hpre⟩ := strstr_suffix hptr
      simp only [Option.some.injEq, exists_eq_left']
      rw [List.drop_append_of_le_length hpre.length_le]
      constructor
      · intro h hcolon
        obtain ⟨x, y, hxy, hx⟩ := List.eq_append_cons_of_mem hcolon
        rw [hxy, List.append_assoc, List.cons_append, dropWhile_colon hx] at h
        obtain ⟨z, hz⟩ := exists_skipWs_colon (body.beforeValue.bytes ++ body.fromValue) y
        have hlen := congrArg List.length (Option.some.inj h)
        rw [hz] at hlen
        simp only [List.length_append, List.length_cons] at hlen
        omega
      · intro hcolon
        rw [dropWhile_colon hcolon]
        exact congrArg some hskip

/-- The fields of a request body are taken from their member exactly when its colon is the
first one behind the first occurrence of the quoted name. -/
theorem field_from_member_iff :
    (∀ s, body.value = .string s → s.all Piece.simple = true →
      ((body.ReadsMember ∧ jsonStr body.text field.key = some (decode s)) ↔ body.NameLeads)) ∧
    (∀ (items : List StringItem) (blank : Ws), body.value = .array (items.map StringItem.item) blank →
      (∀ i ∈ items, i.string.all Piece.simple = true) →
        ((body.ReadsMember ∧
          jsonArr body.text field.key = .values (items.map fun i => decode i.string)) ↔
            body.NameLeads)) := by
  constructor
  · intro s hvalue hs
    have hfrom : ∃ rest, body.fromValue = quoted s ++ rest := by
      unfold fromValue
      rw [hvalue, Value.text]
      exact ⟨_, rfl⟩
    obtain ⟨rest, hfrom⟩ := hfrom
    rw [← body.readsMember_iff (hfrom ▸ head_quoted s rest), and_iff_left_iff_imp]
    intro hreads
    have hfind : findKey body.text field.key = some body.fromValue := hreads
    rw [jsonStr, hfind, hfrom, Option.bind_some, scanStr_quoted hs]
    rfl
  · intro items blank hvalue hitems
    have hfrom : ∃ rest, body.fromValue =
        91 :: (itemsText (items.map StringItem.item) ++ (blank.bytes ++ 93 :: rest)) := by
      unfold fromValue
      rw [hvalue, Value.text]
      exact ⟨_, by simp; rfl⟩
    obtain ⟨rest, hfrom⟩ := hfrom
    have hhead : ∀ c ∈ body.fromValue.head?, isSpace c = false := by
      rw [hfrom]
      simp [isSpace]
    rw [← body.readsMember_iff hhead, and_iff_left_iff_imp]
    intro hreads
    have hfind : findKey body.text field.key = some body.fromValue := hreads
    rw [jsonArr, hfind, hfrom]
    exact arrLoop_items hitems

end Body

/-- A string without escapes. -/
def plainPieces (s : Bytes) : List Piece :=
  s.filterMap fun b => if h : isPlain b = true then some (.plain b h) else none

/-- The body `{"note":{"by":"X"},"query":"Y","old":{"query":"Z"}}`. -/
def queryBody : Body .query where
  front := [.mk {} (plainPieces (str "note")) {} {}
    (.object [.mk {} (plainPieces (str "by")) {} {} (.string (plainPieces (str "X"))) {}] {}) {}]
  name := plainPieces (str "query")
  value := .string (plainPieces (str "Y"))
  back := [.mk {} (plainPieces (str "old")) {} {}
    (.object [.mk {} (plainPieces (str "query")) {} {} (.string (plainPieces (str "Z"))) {}] {}) {}]
  named := by decide +kernel
  only := by
    intro m hm
    rw [List.singleton_append, List.mem_pair] at hm
    obtain rfl | rfl := hm
    · decide +kernel
    · decide +kernel

theorem queryBody_read : queryBody.ReadsMember ∧
    jsonStr queryBody.text (str "query") = some (decode (plainPieces (str "Y"))) :=
  (queryBody.field_from_member_iff.1 (plainPieces (str "Y")) rfl (by decide +kernel)).2
    ⟨str "\"query\"", by decide +kernel, by decide +kernel⟩

/-- The body `{"note":{"query":"X"},"query":"Y"}`. -/
def nestedBody : Body .query where
  front := [.mk {} (plainPieces (str "note")) {} {}
    (.object [.mk {} (plainPieces (str "query")) {} {} (.string (plainPieces (str "X"))) {}] {}) {}]
  name := plainPieces (str "query")
  value := .string (plainPieces (str "Y"))
  named := by decide +kernel
  only := by
    intro m hm
    obtain rfl := List.mem_singleton.1 hm
    decide +kernel

/-- The query of a nested object is taken for that of the body. -/
theorem nestedBody_misread :
    nestedBody.text = str "\x7b\"note\":\x7b\"query\":\"X\"\x7d,\"query\":\"Y\"\x7d" ∧
    nestedBody.value = .string (plainPieces (str "Y")) ∧
    (plainPieces (str "Y")).all Piece.simple = true ∧
    decode (plainPieces (str "Y")) = str "Y" ∧
    jsonStr nestedBody.text (str "query") = some (str "X") := by
  refine ⟨?_, rfl, ?_, ?_, ?_⟩
  all_goals decide +kernel

end MiniDbms.Api
