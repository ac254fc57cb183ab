import MiniDbms.Api.Connection
import MiniDbms.Api.Replies

/-!
# Responses that are read back

A client finds the end of the head, takes the code, the fields it needs and as many bytes of
a body as the head announces.  It gets back what `send_res` was given, whatever comes behind.
-/

namespace MiniDbms.Api

open Http (findHdrEnd)

/-! ## The client -/

/-- What a client makes of a response. -/
structure Received where
  code : Nat
  contentType : Bytes
  close : Bool
  body : Bytes

/-- The value of a field. -/
def fieldOf (name : Bytes) (lines : List Bytes) : Option Bytes :=
  (lines.find? fun line => (name ++ str ": ").isPrefixOf line).map fun line =>
    line.drop (name.length + 2)

/-- The response at the front of a stream, and what is behind it. -/
def readRes (stream : Bytes) : Option (Received × Bytes) := do
  let headLen ← findHdrEnd stream
  let lines := ((stream.take headLen).splitOnP fun c => c == 13 || c == 10).filter (· ≠ [])
  let status ← lines.head?
  let contentType ← fieldOf (str "Content-Type") lines
  let length ← fieldOf (str "Content-Length") lines
  let connection ← fieldOf (str "Connection") lines
  let behind := stream.drop (headLen + 4)
  let bodyLen := (Http.strtoul length).1
  if behind.length < bodyLen then none
  else some (⟨(Http.strtoul (status.drop 9)).1, contentType, connection == str "close",
    behind.take bodyLen⟩, behind.drop bodyLen)

/-- At most `fuel` responses. -/
def readLoop : Nat → Bytes → Option (List Received)
  | 0, stream => if stream = [] then some [] else none
  | fuel + 1, stream =>
    if stream = [] then some []
    else do
      let (received, rest) ← readRes stream
      let more ← readLoop fuel rest
      return received :: more

/-- All responses of a stream; `none` where something else is left. -/
def readAll (stream : Bytes) : Option (List Received) := readLoop stream.length stream

/-- What `send_res` was given. -/
def receivedOf (res : HttpRes) (connClose : Bool) : Received :=
  ⟨res.code, if res.contentType ≠ [] then res.contentType else jsonType, connClose, res.body⟩

/-! ## Lines -/

def crlf : Bytes := [13, 10]

/-- Something, and no line ends inside. -/
structure OneLine (line : Bytes) : Prop where
  nonempty : line ≠ []
  noEnd : ∀ c ∈ line, c ≠ 13 ∧ c ≠ 10

/-- Lines with their ends. -/
def linesText (lines : List Bytes) : Bytes := lines.flatMap (· ++ crlf)

theorem findHdrEnd_skip {line : Bytes} (rest : Bytes) (hline : ∀ c ∈ line, c ≠ 13) :
    findHdrEnd (line ++ rest) = (findHdrEnd rest).map (· + line.length) := by
  induction line with
  | nil => simp
  | cons c line ih =>
      rw [List.forall_mem_cons] at hline
      have hne : (c :: (line ++ rest)).take 4 ≠ [13, 10, 13, 10] := fun h =>
        hline.1 (List.cons.inj h).1
      rw [List.cons_append, Http.findHdrEnd_cons hne, ih hline.2, Option.map_map]
      rfl

/-- A line end with a line behind it does not end a head. -/
theorem findHdrEnd_crlf {line : Bytes} (rest : Bytes) (hline : OneLine line) :
    findHdrEnd (crlf ++ (line ++ rest)) = (findHdrEnd (line ++ rest)).map (· + 2) := by
  obtain ⟨c, line, rfl⟩ := List.exists_cons_of_ne_nil hline.nonempty
  have hc := (hline.noEnd c List.mem_cons_self).1
  have h₁ : (13 :: 10 :: c :: (line ++ rest)).take 4 ≠ [13, 10, 13, 10] := fun h => by
    simp only [List.take_succ_cons, List.cons.injEq] at h
    exact hc h.2.2.1
  have h₂ : (10 :: c :: (line ++ rest)).take 4 ≠ [13, 10, 13, 10] := fun h =>
    absurd (List.cons.inj h).1 (by decide)
  change findHdrEnd (13 :: 10 :: c :: (line ++ rest)) = _
  rw [Http.findHdrEnd_cons h₁, Http.findHdrEnd_cons h₂, Option.map_map]
  rfl

/-- **Where a head ends.** -/
theorem findHdrEnd_lines (rest : Bytes) : ∀ {front : List Bytes} {last : Bytes},
    (∀ line ∈ front, OneLine line) → OneLine last →
    findHdrEnd (linesText front ++ (last ++ (crlf ++ (crlf ++ rest)))) =
      some (linesText front ++ last).length
  | [], last, _, hlast => by
      have hend : findHdrEnd (crlf ++ (crlf ++ rest)) = some 0 := by
        change findHdrEnd (13 :: 10 :: 13 :: 10 :: rest) = some 0
        unfold findHdrEnd
        rw [if_pos (by simp)]
      change findHdrEnd (last ++ (crlf ++ (crlf ++ rest))) = some ([] ++ last).length
      rw [findHdrEnd_skip _ fun c hc => (hlast.noEnd c hc).1, hend, Option.map_some, Nat.zero_add]
      rfl
  | line :: front, last, hfront, hlast => by
      rw [List.forall_mem_cons] at hfront
      have ih := findHdrEnd_lines rest hfront.2 hlast
      have hnext : ∃ line' rest', OneLine line' ∧
          linesText front ++ (last ++ (crlf ++ (crlf ++ rest))) = line' ++ rest' := by
        cases front with
        | nil => exact ⟨last, _, hlast, rfl⟩
        | cons line' front =>
            refine ⟨line', crlf ++ (linesText front ++ (last ++ (crlf ++ (crlf ++ rest)))),
              hfront.2 line' List.mem_cons_self, ?_⟩
            unfold linesText
            simp only [List.flatMap_cons, List.append_assoc]
      obtain ⟨line', rest', hline', heq⟩ := hnext
      have hsplit : linesText (line :: front) = line ++ (crlf ++ linesText front) := by
        unfold linesText
        rw [List.flatMap_cons, List.append_assoc]
      rw [hsplit, List.append_assoc, List.append_assoc,
        findHdrEnd_skip _ fun c hc => (hfront.1.noEnd c hc).1, heq, findHdrEnd_crlf _ hline',
        ← heq, ih]
      simp only [Option.map_some, List.length_append, crlf, List.length_cons, List.length_nil]
      congr 1
      omega

theorem splitLines_step {line : Bytes} (rest : Bytes) (hline : OneLine line) :
    ((line ++ (crlf ++ rest)).splitOnP fun c => c == 13 || c == 10).filter (· ≠ []) =
      line :: (rest.splitOnP fun c => c == 13 || c == 10).filter (· ≠ []) := by
  have hno : ∀ c ∈ line, (c == 13 || c == 10) = false := fun c hc => by
    have := hline.noEnd c hc
    simp [this]
  change ((line ++ 13 :: (10 :: rest)).splitOnP fun c => c == 13 || c == 10).filter _ = _
  rw [List.splitOnP_append_cons_of_forall_mem hno 13 rfl,
    List.filter_cons_of_pos (by simpa using hline.nonempty)]
  have hnext : (10 :: rest).splitOnP (fun c => c == 13 || c == 10) =
      [] :: rest.splitOnP fun c => c == 13 || c == 10 :=
    List.splitOnP_append_cons_of_forall_mem (fun c hc => absurd hc List.not_mem_nil) 10 rfl rest
  rw [hnext, List.filter_cons_of_neg (by simp)]

/-- **The lines of a head.** -/
theorem splitLines {last : Bytes} (hlast : OneLine last) : ∀ {front : List Bytes},
    (∀ line ∈ front, OneLine line) →
    ((linesText front ++ last).splitOnP fun c => c == 13 || c == 10).filter (· ≠ []) =
      front ++ [last]
  | [], _ => by
      have hno : ∀ c ∈ last, (c == 13 || c == 10) = false := fun c hc => by
        have := hlast.noEnd c hc
        simp [this]
      change (last.splitOnP fun c => c == 13 || c == 10).filter _ = _
      rw [List.splitOnP_eq_singleton hno, List.filter_cons_of_pos (by simpa using hlast.nonempty)]
      rfl
  | line :: front, hfront => by
      rw [List.forall_mem_cons] at hfront
      have hsplit : linesText (line :: front) = line ++ (crlf ++ linesText front) := by
        unfold linesText
        rw [List.flatMap_cons, List.append_assoc]
      rw [hsplit, List.append_assoc, List.append_assoc, splitLines_step _ hfront.1,
        splitLines hlast hfront.2]
      rfl

/-! ## Fields -/

theorem isPrefixOf_other {p q : Bytes} (s : Bytes) (h : p.take q.length ≠ q.take p.length) :
    p.isPrefixOf (q ++ s) = false := by
  rw [← Bool.not_eq_true, List.isPrefixOf_iff_prefix]
  rintro ⟨t, ht⟩
  have hlen := congrArg (List.take (min p.length q.length)) ht
  rw [List.take_append_of_le_length (Nat.min_le_left _ _),
    List.take_append_of_le_length (Nat.min_le_right _ _)] at hlen
  refine h ?_
  rcases Nat.le_total p.length q.length with hle | hle
  · rw [Nat.min_eq_left hle, List.take_length] at hlen
    exact (List.take_of_length_le hle).trans hlen
  · rw [Nat.min_eq_right hle, List.take_length] at hlen
    exact hlen.trans (List.take_of_length_le hle).symm

theorem fieldOf_here (name v : Bytes) (lines : List Bytes) :
    fieldOf name ((name ++ str ": " ++ v) :: lines) = some v := by
  have hpre : (name ++ str ": ").isPrefixOf (name ++ str ": " ++ v) = true :=
    List.isPrefixOf_iff_prefix.2 (List.prefix_append _ _)
  unfold fieldOf
  rw [List.find?_cons_of_pos hpre, Option.map_some]
  exact congrArg some (List.drop_left' (by rw [List.length_append]; rfl))

theorem fieldOf_later {name q : Bytes} (s : Bytes) (lines : List Bytes)
    (h : (name ++ str ": ").take q.length ≠ q.take (name ++ str ": ").length) :
    fieldOf name ((q ++ s) :: lines) = fieldOf name lines := by
  unfold fieldOf
  rw [List.find?_cons_of_neg]
  rw [isPrefixOf_other s h]
  decide

/-- A number that is printed is read back up to the first byte that is no digit. -/
theorem strtoul_printL {n : Nat} (hn : n < 2 ^ 63) {rest : Bytes}
    (hrest : ∀ c ∈ rest.head?, isDigit c = false) :
    (Http.strtoul (printL n ++ rest)).1 = n := by
  obtain ⟨ds, hne, -, hds, hval, hprint⟩ := printL_spec (n := (n : Int))
    (by unfold LONG_MIN; omega) (by unfold LONG_MAX; omega)
  rw [if_neg (by omega)] at hprint
  rw [hprint]
  obtain ⟨c, ds, rfl⟩ := List.exists_cons_of_ne_nil hne
  have hc := hds c List.mem_cons_self
  have hspace : (c :: ds ++ rest).dropWhile isSpace = c :: ds ++ rest := by
    rw [List.cons_append, List.dropWhile_cons_of_neg]
    rw [not_isSpace_of_isDigit hc]
    decide
  have hsign : takeSign (c :: ds ++ rest) = (false, c :: ds ++ rest) := by
    have h45 : c ≠ 45 := ne_of_isDigit hc (by decide)
    have h43 : c ≠ 43 := ne_of_isDigit hc (by decide)
    unfold takeSign
    split <;> simp_all
  have htake : (c :: ds ++ rest).takeWhile isDigit = c :: ds := by
    rw [List.takeWhile_append_of_pos hds]
    cases rest with
    | nil => simp
    | cons b rest =>
        have hb : isDigit b = false := hrest b rfl
        rw [List.takeWhile_cons_of_neg (by simp [hb]), List.append_nil]
  unfold Http.strtoul
  rw [hspace, hsign]
  dsimp only
  rw [htake, if_neg (List.cons_ne_nil _ _), hval]
  have hsmall : ¬ (n : Int).natAbs ≥ 2 ^ 64 := by omega
  rw [if_neg hsmall]
  simp

/-! ## The head of a response -/

variable {res : HttpRes} {connClose : Bool}

/-- The type that is sent. -/
def sentType (res : HttpRes) : Bytes :=
  if res.contentType ≠ [] then res.contentType else jsonType

def closeText (connClose : Bool) : Bytes := if connClose then str "close" else str "keep-alive"

def statusLine (res : HttpRes) : Bytes :=
  str "HTTP/1.1 " ++ (printL res.code ++ (str " " ++ reasonOf res.code))

def typeLine (res : HttpRes) : Bytes := str "Content-Type" ++ str ": " ++ sentType res

def lengthLine (res : HttpRes) : Bytes :=
  str "Content-Length" ++ str ": " ++ printL res.body.length

def closeLine (connClose : Bool) : Bytes := str "Connection" ++ str ": " ++ closeText connClose

theorem headOf_eq (res : HttpRes) (connClose : Bool) :
    headOf res connClose = linesText [statusLine res, typeLine res, lengthLine res] ++
      (closeLine connClose ++ (crlf ++ crlf)) := by
  have hend : crlf = str "\r\n" := by decide
  simp only [hend, headOf, linesText, statusLine, typeLine, lengthLine, closeLine, sentType,
    closeText, List.flatMap_cons, List.flatMap_nil, List.append_assoc, List.append_nil, str_append,
    str_append_append, String.reduceAppend]

/-! ### What the lines say -/

theorem status_read (res : HttpRes) (h : res.code < 2 ^ 63) :
    (Http.strtoul ((statusLine res).drop 9)).1 = res.code := by
  unfold statusLine
  rw [List.drop_left' (by decide)]
  refine strtoul_printL h ?_
  rw [show (str " " ++ reasonOf res.code).head? = some 32 from rfl]
  decide

theorem type_read (res : HttpRes) (lines : List Bytes) :
    fieldOf (str "Content-Type") (statusLine res :: typeLine res :: lines) =
      some (sentType res) := by
  unfold statusLine typeLine
  rw [fieldOf_later (q := str "HTTP/1.1 ") _ _ (by decide), fieldOf_here]

theorem length_read (res : HttpRes) (lines : List Bytes) :
    fieldOf (str "Content-Length") (statusLine res :: typeLine res :: lengthLine res :: lines) =
      some (printL res.body.length) := by
  unfold statusLine typeLine lengthLine
  rw [fieldOf_later (q := str "HTTP/1.1 ") _ _ (by decide),
    fieldOf_later (q := str "Content-Type" ++ str ": ") _ _ (by decide), fieldOf_here]

theorem close_read (res : HttpRes) (connClose : Bool) :
    fieldOf (str "Connection")
        [statusLine res, typeLine res, lengthLine res, closeLine connClose] =
      some (closeText connClose) := by
  unfold statusLine typeLine lengthLine closeLine
  rw [fieldOf_later (q := str "HTTP/1.1 ") _ _ (by decide),
    fieldOf_later (q := str "Content-Type" ++ str ": ") _ _ (by decide),
    fieldOf_later (q := str "Content-Length" ++ str ": ") _ _ (by decide), fieldOf_here]

theorem closeText_eq (connClose : Bool) : (closeText connClose == str "close") = connClose := by
  cases connClose with
  | true => decide
  | false => decide

theorem noEnd_of_all {s : Bytes} (h : s.all (fun c => c != 13 && c != 10) = true) :
    ∀ c ∈ s, c ≠ 13 ∧ c ≠ 10 := fun c hc => by
  simpa using List.all_eq_true.1 h c hc

theorem oneLine_append {s t : Bytes} (hs : OneLine s) (ht : ∀ c ∈ t, c ≠ 13 ∧ c ≠ 10) :
    OneLine (s ++ t) where
  nonempty := fun h => hs.nonempty (List.append_eq_nil_iff.1 h).1
  noEnd := fun c hc => (List.mem_append.1 hc).elim (hs.noEnd c) (ht c)

theorem printL_noEnd (n : Nat) (hn : n < 2 ^ 63) : ∀ c ∈ printL n, c ≠ 13 ∧ c ≠ 10 := by
  obtain ⟨ds, -, -, hds, -, hprint⟩ := printL_spec (n := (n : Int))
    (by unfold LONG_MIN; omega) (by unfold LONG_MAX; omega)
  rw [if_neg (by omega)] at hprint
  rw [hprint]
  exact fun c hc => ⟨ne_of_isDigit (hds c hc) (by decide), ne_of_isDigit (hds c hc) (by decide)⟩

theorem printL_length (n : Nat) (hn : n < 2 ^ 63) : (printL n).length ≤ 20 := by
  obtain ⟨ds, -, hlen, -, -, hprint⟩ := printL_spec (n := (n : Int))
    (by unfold LONG_MIN; omega) (by unfold LONG_MAX; omega)
  rw [if_neg (by omega)] at hprint
  rw [hprint]
  exact hlen

theorem reasonOf_spec (code : Nat) :
    (∀ c ∈ reasonOf code, c ≠ 13 ∧ c ≠ 10) ∧ (reasonOf code).length ≤ 21 := by
  unfold reasonOf
  repeat' split
  all_goals exact ⟨noEnd_of_all (by decide), by decide⟩

/-- A response that `send_res` can be given: its type is one line of at most 80 bytes, and its
numbers are numbers of the machine. -/
structure Sendable (res : HttpRes) : Prop where
  code : res.code < 2 ^ 31
  length : res.body.length < 2 ^ 63
  contentType : ∀ c ∈ res.contentType, c ≠ 13 ∧ c ≠ 10
  short : res.contentType.length ≤ 80

theorem Sendable.sentType (h : Sendable res) :
    (∀ c ∈ sentType res, c ≠ 13 ∧ c ≠ 10) ∧ (Api.sentType res).length ≤ 80 := by
  unfold Api.sentType
  split
  · exact ⟨h.contentType, h.short⟩
  · exact ⟨noEnd_of_all (by decide), by decide⟩

/-- **The head fits into its 256 bytes.** -/
theorem Sendable.sendRes (h : Sendable res) (connClose : Bool) :
    sendRes res connClose = some (headOf res connClose ++ res.body) := by
  have hcode := printL_length res.code (Nat.lt_trans h.code (by decide))
  have hlen := printL_length res.body.length h.length
  have hreason := (reasonOf_spec res.code).2
  have htype := h.sentType.2
  have hclose : (closeText connClose).length ≤ 10 := by
    cases connClose with
    | true => decide
    | false => decide
  have hfits : (headOf res connClose).length < 256 := by
    have h₁ : (str "HTTP/1.1 ").length = 9 := by decide
    have h₂ : (str "Content-Type").length = 12 := by decide
    have h₃ : (str "Content-Length").length = 14 := by decide
    have h₄ : (str "Connection").length = 10 := by decide
    have h₅ : (str ": ").length = 2 := by decide
    have h₆ : (str " ").length = 1 := by decide
    rw [headOf_eq]
    simp only [linesText, statusLine, typeLine, lengthLine, closeLine, crlf, List.flatMap_cons,
      List.flatMap_nil, List.length_append, List.length_cons, List.length_nil, h₁, h₂, h₃, h₄, h₅,
      h₆]
    omega
  unfold Api.sendRes
  rw [if_pos hfits]

theorem Sendable.lines (h : Sendable res) :
    ∀ line ∈ [statusLine res, typeLine res, lengthLine res], OneLine line := by
  have hblank : ∀ c ∈ str " ", c ≠ 13 ∧ c ≠ 10 := noEnd_of_all (by decide)
  have hstatus : OneLine (statusLine res) := by
    refine oneLine_append ⟨by decide, noEnd_of_all (by decide)⟩ fun c hc => ?_
    rcases List.mem_append.1 hc with hc | hc
    · exact printL_noEnd _ (Nat.lt_trans h.code (by decide)) c hc
    · rcases List.mem_append.1 hc with hc | hc
      · exact hblank c hc
      · exact (reasonOf_spec res.code).1 c hc
  have htype : OneLine (typeLine res) :=
    oneLine_append ⟨by decide, noEnd_of_all (by decide)⟩ h.sentType.1
  have hlength : OneLine (lengthLine res) :=
    oneLine_append ⟨by decide, noEnd_of_all (by decide)⟩ (printL_noEnd _ h.length)
  exact List.forall_mem_cons.2 ⟨hstatus, List.forall_mem_cons.2 ⟨htype,
    List.forall_mem_cons.2 ⟨hlength, fun _ hl => absurd hl List.not_mem_nil⟩⟩⟩

theorem closeLine_oneLine (connClose : Bool) : OneLine (closeLine connClose) := by
  refine oneLine_append ⟨by decide, noEnd_of_all (by decide)⟩ ?_
  cases connClose with
  | true => exact noEnd_of_all (by decide)
  | false => exact noEnd_of_all (by decide)

/-- **What `send_res` sends is read back.** -/
theorem Sendable.readRes (h : Sendable res) (connClose : Bool) (rest : Bytes) :
    readRes (headOf res connClose ++ res.body ++ rest) =
      some (receivedOf res connClose, rest) := by
  have hfind := findHdrEnd_lines (res.body ++ rest) h.lines (closeLine_oneLine connClose)
  have hlines := splitLines (closeLine_oneLine connClose) h.lines
  generalize hhead : linesText [statusLine res, typeLine res, lengthLine res] ++
    closeLine connClose = head at hfind hlines
  have hstream : headOf res connClose ++ res.body ++ rest =
      head ++ ((crlf ++ crlf) ++ (res.body ++ rest)) := by
    rw [headOf_eq, ← hhead]
    simp only [List.append_assoc]
  have hfind' : findHdrEnd (headOf res connClose ++ res.body ++ rest) = some head.length := by
    rw [← hfind, hstream, ← hhead]
    simp only [List.append_assoc]
  have htake : (headOf res connClose ++ res.body ++ rest).take head.length = head := by
    rw [hstream]
    exact List.take_left' rfl
  have hdrop : (headOf res connClose ++ res.body ++ rest).drop (head.length + 4) =
      res.body ++ rest := by
    rw [hstream, ← List.append_assoc]
    exact List.drop_left' (by rw [List.length_append]; rfl)
  have hsize : (Http.strtoul (printL res.body.length)).1 = res.body.length := by
    have hread : (Http.strtoul (printL res.body.length ++ [])).1 = res.body.length :=
      strtoul_printL h.length (by simp)
    rwa [List.append_nil] at hread
  unfold Api.readRes
  simp only [hfind', Option.bind_eq_bind, Option.bind_some, htake, hdrop, hlines, List.cons_append,
    List.nil_append, List.head?_cons, type_read, length_read, close_read, hsize,
    status_read res (Nat.lt_trans h.code (by decide)), closeText_eq]
  rw [if_neg (by simp), List.take_left' rfl, List.drop_left' rfl]
  rfl

/-- What is sent for some responses. -/
def streamOf (sent : List (HttpRes × Bool)) : Bytes :=
  sent.flatMap fun e => headOf e.1 e.2 ++ e.1.body

theorem headOf_ne_nil (res : HttpRes) (connClose : Bool) : headOf res connClose ≠ [] := by
  rw [headOf_eq]
  unfold linesText statusLine
  rw [List.flatMap_cons, show str "HTTP/1.1 " = 72 :: str "TTP/1.1 " from rfl]
  simp

theorem readLoop_streamOf : ∀ {sent : List (HttpRes × Bool)} {fuel : Nat},
    (∀ e ∈ sent, Sendable e.1) → sent.length ≤ fuel →
    readLoop fuel (streamOf sent) = some (sent.map fun e => receivedOf e.1 e.2)
  | [], fuel, _, _ => by
      cases fuel with
      | zero => rfl
      | succ fuel => rfl
  | (res, connClose) :: sent, 0, _, hfuel => by
      rw [List.length_cons] at hfuel
      omega
  | (res, connClose) :: sent, fuel + 1, hsend, hfuel => by
      rw [List.forall_mem_cons] at hsend
      have ih := readLoop_streamOf hsend.2 (Nat.le_of_succ_le_succ hfuel)
      have hcons : streamOf ((res, connClose) :: sent) =
          headOf res connClose ++ res.body ++ streamOf sent := List.flatMap_cons
      have hne : ¬ headOf res connClose ++ res.body ++ streamOf sent = [] := fun h =>
        headOf_ne_nil res connClose
          (List.append_eq_nil_iff.1 (List.append_eq_nil_iff.1 h).1).1
      rw [readLoop, hcons, if_neg hne, hsend.1.readRes]
      simp only [Option.bind_eq_bind, Option.bind_some, ih]
      rfl

/-- **A client reads the responses, in order, and nothing else.** -/
theorem readAll_streamOf {sent : List (HttpRes × Bool)} (hsend : ∀ e ∈ sent, Sendable e.1) :
    readAll (streamOf sent) = some (sent.map fun e => receivedOf e.1 e.2) := by
  refine readLoop_streamOf hsend ?_
  clear hsend
  induction sent with
  | nil => exact Nat.le_refl 0
  | cons e sent ih =>
      have hpos : 0 < (headOf e.1 e.2).length := List.length_pos_iff.2 (headOf_ne_nil e.1 e.2)
      have hcons : streamOf (e :: sent) = headOf e.1 e.2 ++ e.1.body ++ streamOf sent :=
        List.flatMap_cons
      rw [hcons, List.length_cons, List.length_append, List.length_append]
      omega

end MiniDbms.Api
