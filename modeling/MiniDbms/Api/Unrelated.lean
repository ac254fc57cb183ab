import MiniDbms.Api.Framing
import MiniDbms.Lib.Lists

/-!
# Header fields that say nothing about framing

`parse_req` compares as many characters of a field's name as the name it looks for has, so a
longer name that begins like it is taken for it.
-/

namespace MiniDbms.Http

/-! ## Heads -/

def crlf : Bytes := [13, 10]

/-- A line of a request head, without its line end. -/
def IsLine (line : Bytes) : Prop := line ≠ [] ∧ ∀ c ∈ line, c ≠ 13 ∧ c ≠ 10 ∧ c ≠ 0

instance (line : Bytes) : Decidable (IsLine line) := inferInstanceAs (Decidable (_ ∧ _))

/-- A request head within the limit: the request line and the header fields. -/
structure ReqHead where
  line : Bytes
  fields : List Bytes
  plain : ∀ l ∈ line :: fields, IsLine l
  fits : (line ++ fields.flatMap (crlf ++ ·)).length + 4 ≤ MAX_HDR_BYTES

def ReqHead.text (h : ReqHead) : Bytes := h.line ++ h.fields.flatMap (crlf ++ ·)

/-- The head with the empty line behind it. -/
def ReqHead.terminated (h : ReqHead) : Bytes := h.text ++ (crlf ++ crlf)

/-- The name of a field; a line without a colon has none. -/
def fieldName (line : Bytes) : Option Bytes :=
  if 58 ∈ line then some (trim (line.takeWhile (· != 58))) else none

def sameName (name name' : Bytes) : Bool := name.map toUpper == name'.map toUpper

/-- The fields that `parse_req` looks for. -/
def framingNames : List Bytes := [str "Content-Length", str "Connection", str "Transfer-Encoding"]

def isRelated (line : Bytes) : Bool :=
  (fieldName line).any fun name => framingNames.any (sameName name)

/-- The heads differ only in fields of these names. -/
structure Agree (names : Set Bytes) (h h' : ReqHead) : Prop where
  line : h.line = h'.line
  related : h.fields.filter isRelated = h'.fields.filter isRelated
  unrelated : ∀ l ∈ h.fields ++ h'.fields, isRelated l = false →
    ∀ name, fieldName l = some name → name ∈ names

/-- With the same bytes behind the head the calls come to the same status, body, `conn_close`
flag and next request. -/
def SameFraming (maxBody : Int) (h h' : ReqHead) : Prop :=
  ∀ (rest : Bytes) (conn conn' : HttpConn), Ready maxBody conn → Ready maxBody conn' →
    conn.pending = h.terminated ++ rest → conn'.pending = h'.terminated ++ rest →
      (parseReq maxBody conn).1.code = (parseReq maxBody conn').1.code ∧
      (parseReq maxBody conn).1.req.body.length = (parseReq maxBody conn').1.req.body.length ∧
      (parseReq maxBody conn).1.req.body = (parseReq maxBody conn').1.req.body ∧
      (parseReq maxBody conn).1.connClose = (parseReq maxBody conn').1.connClose ∧
      ((parseReq maxBody conn).1.code = 200 →
        (parseReq maxBody conn).2.pending = (parseReq maxBody conn').2.pending)

/-! ## What a call makes of a head -/

theorem findHdrEnd_line {line : Bytes} (hline : ∀ c ∈ line, c ≠ 13) (s : Bytes) :
    findHdrEnd (line ++ s) = (findHdrEnd s).map (· + line.length) := by
  induction line with
  | nil =>
      rw [List.nil_append]
      cases findHdrEnd s <;> rfl
  | cons c line ih =>
      have hc : (c :: (line ++ s)).take 4 ≠ [13, 10, 13, 10] := by
        intro h
        rw [List.take_succ_cons] at h
        exact hline c List.mem_cons_self (List.cons.inj h).1
      rw [List.cons_append, findHdrEnd_cons hc, ih fun d hd => hline d (List.mem_cons_of_mem c hd),
        Option.map_map]
      rfl

theorem findHdrEnd_fields (rest : Bytes) : ∀ fields : List Bytes, (∀ l ∈ fields, IsLine l) →
    findHdrEnd (fields.flatMap (crlf ++ ·) ++ (crlf ++ crlf ++ rest)) =
      some (fields.flatMap (crlf ++ ·)).length
  | [], _ => rfl
  | l :: fields, h => by
      have hl := h l List.mem_cons_self
      have ih := findHdrEnd_fields rest fields fun l' hl' => h l' (List.mem_cons_of_mem l hl')
      cases l with
      | nil => exact absurd rfl hl.1
      | cons c l =>
          have hc := (hl.2 c List.mem_cons_self).1
          have hskip : ∀ s : Bytes, findHdrEnd (13 :: 10 :: c :: s) =
              (findHdrEnd (c :: s)).map (· + 2) := by
            intro s
            have h₁ : (13 :: 10 :: c :: s).take 4 ≠ [13, 10, 13, 10] := by
              intro h
              simp only [List.take_succ_cons, List.cons.injEq, true_and] at h
              exact hc h.1
            have h₂ : (10 :: c :: s).take 4 ≠ [13, 10, 13, 10] := by
              intro h
              rw [List.take_succ_cons] at h
              exact absurd (List.cons.inj h).1 (by decide)
            rw [findHdrEnd_cons h₁, findHdrEnd_cons h₂, Option.map_map]
            rfl
          have hline := findHdrEnd_line (fun d hd => (hl.2 d hd).1)
            (fields.flatMap (crlf ++ ·) ++ (crlf ++ crlf ++ rest))
          rw [ih] at hline
          rw [List.flatMap_cons, List.append_assoc, crlf, List.append_assoc]
          change findHdrEnd (13 :: 10 :: c :: (l ++ _)) = _
          rw [hskip]
          change (findHdrEnd (c :: l ++ (fields.flatMap (crlf ++ ·) ++ (crlf ++ crlf ++ rest)))).map
            (· + 2) = _
          rw [hline]
          simp only [Option.map_some, List.length_append, List.length_cons, List.length_nil, crlf]
          congr 1
          omega

theorem ReqHead.findHdrEnd (h : ReqHead) (rest : Bytes) :
    findHdrEnd (h.terminated ++ rest) = some h.text.length := by
  have hline := h.plain h.line List.mem_cons_self
  unfold terminated text
  rw [List.append_assoc, List.append_assoc, findHdrEnd_line fun c hc => (hline.2 c hc).1,
    findHdrEnd_fields rest h.fields fun l hl => h.plain l (List.mem_cons_of_mem _ hl)]
  rw [Option.map_some, List.length_append, Nat.add_comm]

theorem ReqHead.lines (h : ReqHead) :
    ((cstr h.text).splitOnP fun c => c == 13 || c == 10).filter (· ≠ []) = h.line :: h.fields := by
  have hnul : ∀ c ∈ h.text, c ≠ 0 := by
    intro c hc
    obtain hc | hc := List.mem_append.1 hc
    · exact ((h.plain h.line List.mem_cons_self).2 c hc).2.2
    · obtain ⟨l, hl, hc⟩ := List.mem_flatMap.1 hc
      obtain hc | hc := List.mem_append.1 hc
      · rintro rfl
        exact absurd hc (by decide)
      · exact ((h.plain l (List.mem_cons_of_mem _ hl)).2 c hc).2.2
  have hplain : ∀ l, IsLine l → ∀ c ∈ l, (c == 13 || c == 10) = false := by
    intro l hl c hc
    have := hl.2 c hc
    simp [this.1, this.2.1]
  have hall : ∀ (fields : List Bytes) (line : Bytes), (∀ l ∈ line :: fields, IsLine l) →
      ((line ++ fields.flatMap (crlf ++ ·)).splitOnP fun c => c == 13 || c == 10).filter (· ≠ []) =
        line :: fields := by
    intro fields
    induction fields with
    | nil =>
        intro line hl
        have hline := hl line List.mem_cons_self
        rw [List.flatMap_nil, List.append_nil, List.splitOnP_eq_singleton (hplain line hline)]
        simp [hline.1]
    | cons l fields ih =>
        intro line hl
        have hline := hl line List.mem_cons_self
        have hnext := ih l fun l' hl' => hl l' (List.mem_cons_of_mem _ hl')
        have htext : line ++ (l :: fields).flatMap (crlf ++ ·) =
            line ++ 13 :: ([] ++ 10 :: (l ++ fields.flatMap (crlf ++ ·))) := by
          simp [crlf]
        rw [htext, List.splitOnP_append_cons_of_forall_mem (hplain line hline) 13 rfl,
          List.splitOnP_append_cons_of_forall_mem (by simp) 10 rfl,
          List.filter_cons_of_pos (by simp [hline.1]), List.filter_cons_of_neg (by simp), hnext]
  rw [cstr_eq_self hnul]
  exact hall h.fields h.line h.plain

theorem ReqHead.parseHead (h : ReqHead) :
    parseHead h.text = (requestLine h.line).bind fun head => h.fields.foldlM headerLine head := by
  unfold Http.parseHead
  rw [h.lines]
  rfl

/-- What the connection handler is told, and the bytes behind the request if it is taken. -/
def frame (maxBody : Int) (rest : Bytes) : Except Head Head → Result × Bytes
  | .error head => (⟨400, head.req, head.connClose⟩, [])
  | .ok head =>
    if bodyCap maxBody < head.bodyLen then (⟨413, head.req, head.connClose⟩, [])
    else if rest.length < head.bodyLen then (⟨400, head.req, head.connClose⟩, [])
    else (⟨200, splitQuery { head.req with body := rest.take head.bodyLen }, head.connClose⟩,
      rest.drop head.bodyLen)

/-- Only what the head says and the bytes behind it matter. -/
theorem parseReq_frame {maxBody : Int} {conn : HttpConn} {h : ReqHead} {rest : Bytes}
    (hready : Ready maxBody conn) (hpending : conn.pending = h.terminated ++ rest) :
    (parseReq maxBody conn).1 = (frame maxBody rest (parseHead h.text)).1 ∧
      ((parseReq maxBody conn).1.code = 200 →
        (parseReq maxBody conn).2.pending = (frame maxBody rest (parseHead h.text)).2) := by
  have hfind : Http.findHdrEnd conn.pending = some h.text.length := by
    rw [hpending]
    exact h.findHdrEnd rest
  have hlen : h.terminated.length = h.text.length + 4 := by
    rw [ReqHead.terminated, List.length_append]
    rfl
  have hfits : h.text.length + 4 ≤ MAX_HDR_BYTES := h.fits
  obtain ⟨-, hframed | ⟨-, n, hn, hcut⟩⟩ := parseReq_spec hready
  · have htake : conn.pending.take h.text.length = h.text := by
      rw [hpending, ReqHead.terminated, List.append_assoc, List.take_left]
    have hdrop : ∀ k, conn.pending.drop (h.text.length + 4 + k) = rest.drop k := by
      intro k
      rw [hpending, ← hlen, List.drop_append, List.drop_eq_nil_of_le (by omega), List.nil_append,
        Nat.add_sub_cancel_left]
    have hshort : ∀ k, conn.pending.length < h.text.length + 4 + k ↔ rest.length < k := by
      intro k
      rw [hpending, List.length_append, hlen]
      omega
    have hrequest : (request maxBody conn.pending).1 =
          (frame maxBody rest (parseHead h.text)).1 ∧
        ((request maxBody conn.pending).1.code = 200 → (request maxBody conn.pending).2 =
          (frame maxBody rest (parseHead h.text)).2) := by
      have hlong : ¬ MAX_HDR_BYTES < h.text.length := by omega
      unfold request frame
      simp only [hfind, if_neg hlong, htake, hshort]
      cases parseHead h.text with
      | error head => exact ⟨rfl, fun hcode => by cases hcode⟩
      | ok head =>
          simp only
          by_cases hbig : bodyCap maxBody < head.bodyLen
          · rw [if_pos hbig, if_pos hbig]
            exact ⟨rfl, fun hcode => by cases hcode⟩
          · rw [if_neg hbig, if_neg hbig]
            by_cases hbody : rest.length < head.bodyLen
            · rw [if_pos hbody, if_pos hbody]
              exact ⟨rfl, fun hcode => by cases hcode⟩
            · rw [if_neg hbody, if_neg hbody]
              have hzero := hdrop 0
              rw [Nat.add_zero, List.drop_zero] at hzero
              rw [hzero, hdrop]
              exact ⟨rfl, fun _ => rfl⟩
    rw [hframed.result, hframed.pending]
    exact hrequest
  · refine absurd ?_ hcut
    rw [hfind, Option.some.injEq] at hn
    exact .inl (by omega)

/-! ## Fields that are passed over -/

/-- The name starts with one that `parse_req` looks for. -/
def takenFor (name : Bytes) : Bool := framingNames.any (startsWith name)

theorem headerLine_eq {line value : Bytes} (h : line.dropWhile (· != 58) = 58 :: value)
    (head : Head) : headerLine head line =
      if startsWith (trim (line.takeWhile (· != 58))) (str "Content-Length") = true then
        if (strtoul (trim value)).2 = [] then .ok { head with bodyLen := (strtoul (trim value)).1 }
        else .error head
      else if startsWith (trim (line.takeWhile (· != 58))) (str "Connection") = true then
        if startsWith (trim value) (str "close") = true then .ok { head with connClose := true }
        else .ok head
      else if startsWith (trim (line.takeWhile (· != 58))) (str "Transfer-Encoding") = true then
        .error head
      else .ok head := by
  unfold headerLine
  rw [h]

theorem headerLine_passed {line : Bytes} (h : ∀ name, fieldName line = some name →
    takenFor name = false) (head : Head) : headerLine head line = .ok head := by
  cases hvalue : line.dropWhile (· != 58) with
  | nil =>
      unfold headerLine
      rw [hvalue]
  | cons c value =>
      have hc : c = 58 := by
        have hhead := List.head?_dropWhile_not (· != (58 : UInt8)) line
        rw [hvalue] at hhead
        simpa using hhead
      subst hc
      have hmem : 58 ∈ line := by
        apply (List.dropWhile_sublist (· != (58 : UInt8))).subset
        rw [hvalue]
        exact List.mem_cons_self
      have hname := h _ (if_pos hmem)
      simp only [takenFor, framingNames, List.any_cons, List.any_nil, Bool.or_false,
        Bool.or_eq_false_iff] at hname
      rw [headerLine_eq hvalue, hname.1, hname.2.1, hname.2.2]
      rfl

theorem foldlM_filter_passed {α β ε : Type} {step : β → α → Except ε β} {p : α → Bool}
    (xs : List α) (h : ∀ a ∈ xs, p a = false → ∀ b, step b a = .ok b) (b : β) :
    xs.foldlM step b = (xs.filter p).foldlM step b := by
  induction xs generalizing b with
  | nil => rfl
  | cons a xs ih =>
      have ih' := ih fun a' ha' => h a' (List.mem_cons_of_mem a ha')
      cases hp : p a with
      | true =>
          rw [List.filter_cons_of_pos hp, List.foldlM_cons, List.foldlM_cons]
          congr 1
          funext b'
          exact ih' b'
      | false =>
          rw [List.filter_cons_of_neg (by simp [hp]), List.foldlM_cons,
            h a List.mem_cons_self hp b]
          exact ih' b

theorem parseHead_agree {names : Set Bytes} {h h' : ReqHead} (hagree : Agree names h h')
    (hnames : ∀ name ∈ names, takenFor name = false) : parseHead h.text = parseHead h'.text := by
  have hpassed : ∀ l ∈ h.fields ++ h'.fields, isRelated l = false → ∀ head : Head,
      headerLine head l = .ok head := by
    intro l hl hrelated
    exact headerLine_passed fun name hname => hnames name (hagree.unrelated l hl hrelated name hname)
  have hfields : ∀ head : Head, h.fields.foldlM headerLine head =
      h'.fields.foldlM headerLine head := by
    intro head
    rw [foldlM_filter_passed h.fields fun l hl => hpassed l (List.mem_append_left _ hl),
      foldlM_filter_passed h'.fields fun l hl => hpassed l (List.mem_append_right _ hl),
      hagree.related]
  rw [h.parseHead, h'.parseHead, hagree.line]
  congr 1
  funext head
  exact hfields head

theorem sameFraming_of_parseHead (maxBody : Int) {h h' : ReqHead}
    (hsame : parseHead h.text = parseHead h'.text) : SameFraming maxBody h h' := by
  intro rest conn conn' hready hready' hpending hpending'
  obtain ⟨hresult, hleft⟩ := parseReq_frame hready hpending
  obtain ⟨hresult', hleft'⟩ := parseReq_frame hready' hpending'
  rw [← hsame] at hresult' hleft'
  have heq := hresult.trans hresult'.symm
  rw [heq]
  refine ⟨rfl, rfl, rfl, rfl, fun hcode => ?_⟩
  rw [hleft' hcode, hleft (heq ▸ hcode)]

/-! ## Fields that are mistaken -/

/-- The name of a field that fits in a head. -/
structure FieldName (name : Bytes) : Prop where
  plain : ∀ c ∈ name, c ≠ 13 ∧ c ≠ 10 ∧ c ≠ 0 ∧ c ≠ 58
  trimmed : trim name = name
  fits : name.length + 26 ≤ MAX_HDR_BYTES

def bareLine : Bytes := str "GET / HTTP/1.1"

def bareHead : ReqHead where
  line := bareLine
  fields := []
  plain := by decide +kernel
  fits := by decide

/-- A request with one field. -/
def oneField {name value : Bytes} (hname : FieldName name)
    (hvalue : ∀ c ∈ value, c ≠ 13 ∧ c ≠ 10 ∧ c ≠ 0) (hlen : value.length ≤ 5) : ReqHead where
  line := bareLine
  fields := [name ++ 58 :: value]
  plain := by
    intro l hl
    obtain rfl | hl := List.mem_cons.1 hl
    · decide +kernel
    · rw [List.mem_singleton.1 hl]
      refine ⟨by simp, fun c hc => ?_⟩
      obtain hc | hc := List.mem_append.1 hc
      · have := hname.plain c hc
        exact ⟨this.1, this.2.1, this.2.2.1⟩
      · obtain rfl | hc := List.mem_cons.1 hc
        · decide
        · exact hvalue c hc
  fits := by
    have hbare : bareLine.length = 14 := by decide
    have hfits := hname.fits
    simp only [List.flatMap_cons, List.flatMap_nil, List.length_append, List.length_cons, hbare,
      crlf, List.length_nil]
    omega

theorem field_split {name : Bytes} (hname : FieldName name) (value : Bytes) :
    (name ++ 58 :: value).takeWhile (· != 58) = name ∧
      (name ++ 58 :: value).dropWhile (· != 58) = 58 :: value := by
  refine span_append ?_ (by simp)
  rw [List.all_eq_true]
  intro c hc
  exact bne_iff_ne.2 (hname.plain c hc).2.2.2

theorem agree_oneField {name value : Bytes} {names : Set Bytes} (hmem : name ∈ names)
    (hname : FieldName name) (hunrelated : framingNames.any (sameName name) = false)
    (hvalue : ∀ c ∈ value, c ≠ 13 ∧ c ≠ 10 ∧ c ≠ 0) (hlen : value.length ≤ 5) :
    Agree names bareHead (oneField hname hvalue hlen) := by
  have hfield : fieldName (name ++ 58 :: value) = some name := by
    unfold fieldName
    rw [if_pos (by simp), (field_split hname value).1, hname.trimmed]
  have hnot : isRelated (name ++ 58 :: value) = false := by
    unfold isRelated
    rw [hfield]
    exact hunrelated
  refine ⟨rfl, ?_, ?_⟩
  · change [] = [name ++ 58 :: value].filter isRelated
    rw [List.filter_cons_of_neg (by simp [hnot])]
    rfl
  · intro l hl _ n hn
    rw [List.mem_singleton.1 hl, hfield] at hn
    exact Option.some.inj hn ▸ hmem

theorem frames_of_same {maxBody : Int} {h h' : ReqHead} (hsame : SameFraming maxBody h h')
    (rest : Bytes) :
    (frame maxBody rest (parseHead h.text)).1.code =
        (frame maxBody rest (parseHead h'.text)).1.code ∧
      (frame maxBody rest (parseHead h.text)).1.req.body =
        (frame maxBody rest (parseHead h'.text)).1.req.body ∧
      (frame maxBody rest (parseHead h.text)).1.connClose =
        (frame maxBody rest (parseHead h'.text)).1.connClose := by
  have hconn : ∀ h : ReqHead, Ready maxBody (connInit [h.terminated ++ rest] maxBody) ∧
      (connInit [h.terminated ++ rest] maxBody).pending = h.terminated ++ rest := by
    intro h
    refine ⟨connInit_ready fun chunk hchunk => ?_, ?_⟩
    · rw [List.mem_singleton.1 hchunk]
      simp [ReqHead.terminated, crlf]
    · rw [connInit_pending, List.flatten_singleton]
  obtain ⟨hready, hpending⟩ := hconn h
  obtain ⟨hready', hpending'⟩ := hconn h'
  obtain ⟨hcode, -, hbody, hclose, -⟩ := hsame rest _ _ hready hready' hpending hpending'
  rw [(parseReq_frame hready hpending).1, (parseReq_frame hready' hpending').1]
    at hcode hbody hclose
  exact ⟨hcode, hbody, hclose⟩

theorem bareHead_parsed : ∃ head, requestLine bareLine = .ok head ∧
    parseHead bareHead.text = .ok head ∧ head.connClose = false ∧ head.bodyLen = 0 := by
  have hline : (requestLine bareLine).toOption.map (fun head => (head.connClose, head.bodyLen)) =
      some (false, 0) := by decide +kernel
  cases h : requestLine bareLine with
  | error head =>
      rw [h] at hline
      cases hline
  | ok head =>
      rw [h] at hline
      obtain ⟨hclose, hlen⟩ := Prod.mk.inj (Option.some.inj hline)
      refine ⟨head, rfl, ?_, hclose, hlen⟩
      rw [bareHead.parseHead]
      change (requestLine bareLine).bind (fun head => .ok head) = _
      rw [h]
      rfl

theorem frame_bare (maxBody : Int) {head : Head} (hlen : head.bodyLen = 0) :
    (frame maxBody [] (.ok head)).1.code = 200 ∧
      (frame maxBody [] (.ok head)).1.connClose = head.connClose := by
  unfold frame
  simp only [hlen, Nat.not_lt_zero, if_false, List.length_nil]
  exact ⟨trivial, trivial⟩

/-- A field whose name starts like one that `parse_req` looks for changes the framing. -/
theorem mistaken (maxBody : Int) {name : Bytes} {names : Set Bytes} (hmem : name ∈ names)
    (hname : FieldName name) (hunrelated : framingNames.any (sameName name) = false)
    (htaken : takenFor name = true) :
    ∃ h', Agree names bareHead h' ∧ ¬ SameFraming maxBody bareHead h' := by
  obtain ⟨head, hline, hbare, hclose, hlen⟩ := bareHead_parsed
  have hone : ∀ {value : Bytes} (hvalue : ∀ c ∈ value, c ≠ 13 ∧ c ≠ 10 ∧ c ≠ 0)
      (hshort : value.length ≤ 5), parseHead (oneField hname hvalue hshort).text =
        headerLine head (name ++ 58 :: value) := by
    intro value hvalue hshort
    rw [ReqHead.parseHead]
    change (requestLine bareLine).bind (fun head => [name ++ 58 :: value].foldlM headerLine head) = _
    rw [hline]
    change headerLine head (name ++ 58 :: value) >>= pure = _
    rw [bind_pure]
  have hvalue : ∀ c ∈ str "x", c ≠ 13 ∧ c ≠ 10 ∧ c ≠ 0 := by decide +kernel
  have hvalue' : ∀ c ∈ str "close", c ≠ 13 ∧ c ≠ 10 ∧ c ≠ 0 := by decide +kernel
  have hcolon : ∀ value : Bytes, (name ++ 58 :: value).dropWhile (· != 58) = 58 :: value :=
    fun value => (field_split hname value).2
  have hlookup : ∀ value : Bytes, trim ((name ++ 58 :: value).takeWhile (· != 58)) = name := by
    intro value
    rw [(field_split hname value).1, hname.trimmed]
  -- a value that is refused, and one that closes the connection
  have hrefused : headerLine head (name ++ 58 :: str "x") = .error head →
      ∃ h', Agree names bareHead h' ∧ ¬ SameFraming maxBody bareHead h' := by
    intro h
    refine ⟨oneField hname hvalue (by decide), agree_oneField hmem hname hunrelated hvalue _, ?_⟩
    intro hsame
    have hcode := (frames_of_same hsame []).1
    rw [hbare, (frame_bare maxBody hlen).1, hone, h] at hcode
    cases hcode
  by_cases hlength : startsWith name (str "Content-Length") = true
  · apply hrefused
    rw [headerLine_eq (hcolon _), hlookup, if_pos hlength, if_neg (by decide +kernel)]
  by_cases hconnection : startsWith name (str "Connection") = true
  · refine ⟨oneField hname hvalue' (by decide), agree_oneField hmem hname hunrelated hvalue' _, ?_⟩
    intro hsame
    have hkeep := (frames_of_same hsame []).2.2
    rw [hbare, (frame_bare maxBody hlen).2, hclose, hone, headerLine_eq (hcolon _), hlookup,
      if_neg hlength, if_pos hconnection, if_pos (by decide +kernel),
      (@frame_bare maxBody { head with connClose := true } hlen).2] at hkeep
    cases hkeep
  · apply hrefused
    have htransfer : startsWith name (str "Transfer-Encoding") = true := by
      rw [Bool.not_eq_true] at hlength hconnection
      simpa [takenFor, framingNames, hlength, hconnection] using htaken
    rw [headerLine_eq (hcolon _), hlookup, if_neg hlength, if_neg hconnection, if_pos htransfer]

/-- Fields of unrelated names do not influence the framing, exactly when none of these names
starts like one that `parse_req` looks for. -/
theorem framing_unrelated_iff (maxBody : Int) (names : Set Bytes)
    (hnames : ∀ name ∈ names, FieldName name)
    (hunrelated : ∀ name ∈ names, framingNames.any (sameName name) = false) :
    (∀ h h', Agree names h h' → SameFraming maxBody h h') ↔
      ∀ name ∈ names, takenFor name = false := by
  constructor
  · intro hall name hmem
    by_contra htaken
    rw [Bool.not_eq_false] at htaken
    obtain ⟨h', hagree, hdiffer⟩ :=
      mistaken maxBody hmem (hnames name hmem) (hunrelated name hmem) htaken
    exact hdiffer (hall bareHead h' hagree)
  · intro hpassed h h' hagree
    exact sameFraming_of_parseHead maxBody (parseHead_agree hagree hpassed)

theorem host_unrelated :
    (∀ h h', Agree {str "Host"} h h' → SameFraming 1048576 h h') ↔
      ∀ name ∈ ({str "Host"} : Set Bytes), takenFor name = false :=
  framing_unrelated_iff 1048576 {str "Host"}
    (fun _ hname => (Set.mem_singleton_iff.1 hname).symm ▸
      ⟨by decide +kernel, by decide +kernel, by decide +kernel⟩)
    (fun _ hname => (Set.mem_singleton_iff.1 hname).symm ▸ by decide +kernel)

def hintHead : ReqHead where
  line := bareLine
  fields := [str "Content-Length-Hint: 4"]
  plain := by decide +kernel
  fits := by decide

/-- A hint takes four bytes of the next request for the body. -/
theorem hint_takes_body : Agree {str "Content-Length-Hint"} bareHead hintHead ∧
    framingNames.any (sameName (str "Content-Length-Hint")) = false ∧
    ¬ SameFraming 1048576 bareHead hintHead := by
  refine ⟨⟨rfl, by decide +kernel, ?_⟩, by decide +kernel, fun hsame => ?_⟩
  · intro l hl _ name hname
    rw [List.mem_singleton.1 hl] at hname
    have hhint : fieldName (str "Content-Length-Hint: 4") = some (str "Content-Length-Hint") := by
      decide +kernel
    rw [hhint] at hname
    exact (Option.some.inj hname).symm
  · have hbody := (frames_of_same hsame (str "GET ")).2.1
    have hbare : (frame 1048576 (str "GET ") (parseHead bareHead.text)).1.req.body = [] := by
      decide +kernel
    have hhint : (frame 1048576 (str "GET ") (parseHead hintHead.text)).1.req.body =
        str "GET " := by decide +kernel
    rw [hbare, hhint] at hbody
    exact absurd hbody (by decide)

end MiniDbms.Http
