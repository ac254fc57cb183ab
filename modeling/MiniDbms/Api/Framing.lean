import MiniDbms.Api.Http

/-!
# Framing of requests

Where a request ends is a function of the bytes that are still to be read, however
they arrive, as long as no header is so long that the limit cuts into its
terminator.
-/

namespace MiniDbms.Http

open Chunks

/-! ## The end of the header -/

theorem findHdrEnd_le {s : Bytes} {n : Nat} (h : findHdrEnd s = some n) : n + 4 ≤ s.length := by
  induction s generalizing n with
  | nil => simp [findHdrEnd] at h
  | cons c rest ih =>
      rw [findHdrEnd] at h
      split at h
      · rename_i htake
        have hlen := congrArg List.length htake
        have hn : n = 0 := by simpa using h.symm
        simp only [List.length_take, List.length_cons, List.length_nil] at hlen ⊢
        omega
      · obtain ⟨m, hm, rfl⟩ := Option.map_eq_some_iff.1 h
        have := ih hm
        simp only [List.length_cons]
        omega

theorem findHdrEnd_append {s t : Bytes} {n : Nat} (h : findHdrEnd s = some n) :
    findHdrEnd (s ++ t) = some n := by
  induction s generalizing n with
  | nil => simp [findHdrEnd] at h
  | cons c rest ih =>
      have hlen := findHdrEnd_le h
      have htake : (c :: (rest ++ t)).take 4 = (c :: rest).take 4 := by
        rw [← List.cons_append, List.take_append_of_le_length (by omega)]
      rw [findHdrEnd] at h
      rw [List.cons_append, findHdrEnd, htake]
      split at h
      · rename_i h4
        rw [if_pos h4]
        exact h
      · rename_i h4
        obtain ⟨m, hm, rfl⟩ := Option.map_eq_some_iff.1 h
        rw [if_neg h4, ih hm]
        rfl

theorem findHdrEnd_of_append {s t : Bytes} {n : Nat} (h : findHdrEnd (s ++ t) = some n)
    (hlen : n + 4 ≤ s.length) : findHdrEnd s = some n := by
  induction s generalizing n with
  | nil => simp at hlen
  | cons c rest ih =>
      rw [List.cons_append, findHdrEnd] at h
      rw [findHdrEnd]
      have htake : (c :: (rest ++ t)).take 4 = (c :: rest).take 4 := by
        rw [← List.cons_append, List.take_append_of_le_length (by omega)]
      rw [htake] at h
      split at h
      · rename_i h4
        rw [if_pos h4]
        exact h
      · rename_i h4
        obtain ⟨m, hm, rfl⟩ := Option.map_eq_some_iff.1 h
        rw [List.length_cons] at hlen
        rw [if_neg h4, ih hm (by omega)]
        rfl

/-! ## Receiving -/

/-- The bytes of the stream that no request has taken. -/
def HttpConn.pending (conn : HttpConn) : Bytes := conn.buf ++ conn.fd.flatten

/-- The state of a connection between two calls. -/
structure Ready (maxBody : Int) (conn : HttpConn) : Prop where
  chunks : Nonempty conn.fd
  room : MAX_HDR_BYTES + 4 < conn.cap
  fits : conn.cap ≤ conn.maxTotal
  total : bodyCap maxBody + MAX_HDR_BYTES + 4 ≤ conn.maxTotal

variable {maxBody : Int} {conn : HttpConn} {target : Nat}

theorem le_grow {maxTotal ncap : Nat} (hncap : 0 < ncap) (htarget : target ≤ maxTotal) :
    target ≤ grow target maxTotal ncap := by
  fun_induction grow target maxTotal ncap with
  | case1 ncap h hhalf => exact htarget
  | case2 ncap h hhalf ih => exact ih (by omega)
  | case3 ncap h => omega

theorem Ready.reserve (h : Ready maxBody conn) (htarget : target ≤ conn.maxTotal) :
    ∃ cap, reserve conn target = some cap ∧ target ≤ cap ∧ conn.cap ≤ cap ∧
      cap ≤ conn.maxTotal := by
  have hroom := h.room
  have hfits := h.fits
  unfold Http.reserve
  by_cases hcap : conn.cap < target
  · have hpos : 0 < conn.cap := by omega
    have hgrow := le_grow hpos htarget
    rw [if_pos hcap, if_pos hpos]
    generalize grow target conn.maxTotal conn.cap = ncap at hgrow
    by_cases hbig : ncap > conn.maxTotal
    · simp only [if_pos hbig]
      rw [if_neg (by omega)]
      exact ⟨_, rfl, htarget, hfits, le_refl _⟩
    · simp only [if_neg hbig]
      rw [if_neg (by omega)]
      exact ⟨_, rfl, hgrow, by omega, by omega⟩
  · rw [if_neg hcap]
    exact ⟨_, rfl, by omega, le_refl _, hfits⟩

/-- What `ensure_buffered` does to a connection. -/
structure Buffered (maxBody : Int) (conn : HttpConn) (target : Nat) (r : Nat × HttpConn) :
    Prop where
  ready : Ready maxBody r.2
  total : r.2.maxTotal = conn.maxTotal
  pending : r.2.pending = conn.pending
  enough : target ≤ conn.pending.length → r.1 = 200 ∧ target ≤ r.2.buf.length
  ended : conn.pending.length < target → r.1 = if conn.pending = [] then 0 else 400
  -- chunks behind the bytes that are asked for are not touched
  rest : ∀ rest, rest <:+ conn.fd → target + rest.flatten.length ≤ conn.pending.length →
    rest <:+ r.2.fd

theorem ensureBuffered_spec (h : Ready maxBody conn) (htarget : target ≤ conn.maxTotal) :
    Buffered maxBody conn target (ensureBuffered conn target) := by
  induction hn : target - conn.buf.length using Nat.strong_induction_on generalizing conn with
  | _ n ih =>
      rw [ensureBuffered]
      by_cases hlt : conn.buf.length < target
      · obtain ⟨cap, hcap, hle, hgrown, hmax⟩ := h.reserve htarget
        rw [if_pos hlt, if_neg (by omega)]
        simp only [hcap]
        have happend := recv_append conn.fd (cap - conn.buf.length)
        have hroom : 0 < cap - conn.buf.length := by omega
        have hnil := h.chunks.recv_eq_nil hroom
        have hchunks : Nonempty (recv (cap - conn.buf.length) conn.fd).2 := h.chunks.recv
        have hsuffix : ∀ rest, rest <:+ conn.fd →
            target + rest.flatten.length ≤ conn.pending.length →
            rest <:+ (recv (cap - conn.buf.length) conn.fd).2 := by
          intro rest hrest hroom
          apply recv_suffix hrest
          rw [HttpConn.pending, List.length_append] at hroom
          omega
        generalize recv (cap - conn.buf.length) conn.fd = r at happend hnil hchunks hsuffix
        obtain ⟨data, fd⟩ := r
        simp only at happend hnil hchunks hsuffix
        by_cases hdata : data = []
        · have hflat := hnil hdata
          have hpending : conn.pending = conn.buf := by
            rw [HttpConn.pending, hflat, List.append_nil]
          have hfd : fd.flatten = [] := by
            rw [hdata, List.nil_append] at happend
            rw [happend, hflat]
          rw [if_pos hdata]
          constructor
          · exact ⟨hchunks, h.room.trans_le hgrown, hmax, h.total⟩
          · rfl
          · rw [HttpConn.pending, hfd, List.append_nil, hpending]
          · intro henough
            rw [hpending] at henough
            omega
          · intro _
            rw [hpending]
          · exact hsuffix
        · have hpos : 0 < data.length := List.length_pos_iff.2 hdata
          rw [if_neg hdata]
          have hready : Ready maxBody { conn with fd := fd, cap := cap, buf := conn.buf ++ data } :=
            ⟨hchunks, h.room.trans_le hgrown, hmax, h.total⟩
          have hpending :
              { conn with fd := fd, cap := cap, buf := conn.buf ++ data : HttpConn }.pending =
                conn.pending := by
            rw [HttpConn.pending, HttpConn.pending, List.append_assoc, happend]
          have hrec := ih _ (by simp only [List.length_append]; omega) hready htarget rfl
          have henough := hrec.enough
          have hended := hrec.ended
          have hkeep := hrec.rest
          rw [hpending] at henough hended hkeep
          refine ⟨hrec.ready, hrec.total, hrec.pending.trans hpending, henough, hended, ?_⟩
          intro rest hrest hroom
          exact hkeep rest (hsuffix rest hrest hroom) hroom
      · rw [if_neg hlt]
        have hle : target ≤ conn.buf.length := Nat.le_of_not_lt hlt
        refine ⟨h, rfl, rfl, fun _ => ⟨rfl, hle⟩, ?_, fun rest hrest _ => hrest⟩
        intro hshort
        rw [HttpConn.pending, List.length_append] at hshort
        omega

/-! ## The header -/

/-- A header of this length is read whole before the buffer holds `MAX_HDR_BYTES`,
or refused whenever it is found. -/
def Clear (hdrLen : Nat) : Prop := hdrLen + 4 ≤ MAX_HDR_BYTES ∨ MAX_HDR_BYTES < hdrLen

/-- How the loop over the header can end. -/
inductive HeaderRead (conn : HttpConn) : (Nat ⊕ Nat) × HttpConn → Prop
  | found {hdrLen : Nat} {conn' : HttpConn} (hfind : findHdrEnd conn.pending = some hdrLen)
      (hused : hdrLen + 4 ≤ conn'.buf.length)
      (hrest : ∀ rest, rest <:+ conn.fd →
        hdrLen + 4 + rest.flatten.length ≤ conn.pending.length → rest <:+ conn'.fd) :
      HeaderRead conn (.inr hdrLen, conn')
  | tooLong {conn' : HttpConn} (hlen : MAX_HDR_BYTES ≤ conn.pending.length)
      (hfind : ∀ hdrLen, findHdrEnd conn.pending = some hdrLen → MAX_HDR_BYTES < hdrLen + 4) :
      HeaderRead conn (.inl 413, conn')
  | ended {conn' : HttpConn} (hlen : conn.pending.length < MAX_HDR_BYTES)
      (hfind : findHdrEnd conn.pending = none) :
      HeaderRead conn (.inl (if conn.pending = [] then 0 else 400), conn')

theorem findHdrEnd_pending {hdrLen : Nat} (hfind : findHdrEnd conn.buf = some hdrLen) :
    findHdrEnd conn.pending = some hdrLen := findHdrEnd_append hfind

/-- Where the buffer holds no terminator, one in the stream ends behind it. -/
theorem lt_of_not_found (hnone : findHdrEnd conn.buf = none) {hdrLen : Nat}
    (hfind : findHdrEnd conn.pending = some hdrLen) : conn.buf.length < hdrLen + 4 := by
  by_contra hge
  rw [findHdrEnd_of_append hfind (by omega)] at hnone
  exact absurd hnone (by simp)

theorem readHeader_spec (h : Ready maxBody conn) :
    Ready maxBody (readHeader conn).2 ∧ (readHeader conn).2.maxTotal = conn.maxTotal ∧
      (readHeader conn).2.pending = conn.pending ∧ HeaderRead conn (readHeader conn) := by
  induction hn : MAX_HDR_BYTES - conn.buf.length using Nat.strong_induction_on
    generalizing conn with
  | _ n ih =>
      rw [readHeader]
      cases hfind : findHdrEnd conn.buf with
      | some hdrLen =>
          refine ⟨h, rfl, rfl, .found (findHdrEnd_pending hfind) (findHdrEnd_le hfind) ?_⟩
          exact fun rest hrest _ => hrest
      | none =>
          have hbehind : ∀ hdrLen, findHdrEnd conn.pending = some hdrLen →
              conn.buf.length < hdrLen + 4 := fun _ => lt_of_not_found hfind
          have hused : conn.buf.length ≤ conn.pending.length := by
            rw [HttpConn.pending, List.length_append]
            omega
          by_cases hfull : conn.buf.length ≥ MAX_HDR_BYTES
          · simp only [if_pos hfull]
            refine ⟨h, trivial, trivial, .tooLong (by omega) fun hdrLen hsome => ?_⟩
            have := hbehind hdrLen hsome
            omega
          · have htarget : conn.buf.length + 1 ≤ conn.maxTotal := by
              have := h.total
              omega
            have hbuffered := ensureBuffered_spec h htarget
            generalize ensureBuffered conn (conn.buf.length + 1) = r at hbuffered
            obtain ⟨code, conn'⟩ := r
            obtain ⟨hready, htotal, hpending, henough, hended, hrest⟩ := hbuffered
            simp only at hready htotal hpending henough hended hrest
            simp only [if_neg hfull]
            by_cases hmore : conn.buf.length + 1 ≤ conn.pending.length
            · obtain ⟨hcode, hgrown⟩ := henough hmore
              rw [if_pos hcode]
              obtain ⟨hready', htotal', hpending', hread⟩ := ih _ (by omega) hready rfl
              refine ⟨hready', htotal'.trans htotal, hpending'.trans hpending, ?_⟩
              generalize readHeader conn' = r' at hread
              cases hread with
              | found hsome hle hkeep =>
                  rw [hpending] at hsome hkeep
                  refine .found hsome hle fun rest hsuffix hroom => ?_
                  have := hbehind _ hsome
                  exact hkeep rest (hrest rest hsuffix (by omega)) hroom
              | tooLong hlen hlong =>
                  rw [hpending] at hlen hlong
                  exact .tooLong hlen hlong
              | ended hlen hnone =>
                  rw [hpending] at hlen hnone ⊢
                  exact .ended hlen hnone
            · have hall : conn.pending.length = conn.buf.length := by omega
              have hcode := hended (by omega)
              have hnot : ¬ code = 200 := by
                rw [hcode]
                split <;> decide
              rw [if_neg hnot]
              simp only [hcode]
              refine ⟨hready, htotal, hpending, .ended (by omega) ?_⟩
              cases hsome : findHdrEnd conn.pending with
              | none => rfl
              | some hdrLen =>
                  have := hbehind hdrLen hsome
                  have := findHdrEnd_le hsome
                  omega

/-! ## The request at the front of a stream -/

/-- A stream starts with a request that a call accepts. -/
structure Complete (maxBody : Int) (stream : Bytes) (hdrLen : Nat) (head : Head) : Prop where
  find : findHdrEnd stream = some hdrLen
  short : hdrLen ≤ MAX_HDR_BYTES
  parsed : parseHead (stream.take hdrLen) = .ok head
  allowed : head.bodyLen ≤ bodyCap maxBody
  arrived : hdrLen + 4 + head.bodyLen ≤ stream.length

/-- What a call says about a stream, and the bytes it leaves. -/
def request (maxBody : Int) (stream : Bytes) : Result × Bytes :=
  match findHdrEnd stream with
  | none =>
    ({ code := if MAX_HDR_BYTES ≤ stream.length then 413 else if stream = [] then 0 else 400 },
      stream)
  | some hdrLen =>
    if MAX_HDR_BYTES < hdrLen then ({ code := 413 }, stream)
    else
      match parseHead (stream.take hdrLen) with
      | .error head => (⟨400, head.req, head.connClose⟩, stream)
      | .ok head =>
        if bodyCap maxBody < head.bodyLen then (⟨413, head.req, head.connClose⟩, stream)
        else if stream.length < hdrLen + 4 + head.bodyLen then
          (⟨400, head.req, head.connClose⟩, stream)
        else
          (⟨200, splitQuery { head.req with
              body := (stream.drop (hdrLen + 4)).take head.bodyLen }, head.connClose⟩,
            stream.drop (hdrLen + 4 + head.bodyLen))

/-- A stream is refused and left as it is, or its first request is taken. -/
theorem request_cases (maxBody : Int) (stream : Bytes) :
    ((request maxBody stream).1.code ≠ 200 ∧ (request maxBody stream).2 = stream) ∨
      ∃ hdrLen head, Complete maxBody stream hdrLen head ∧
        request maxBody stream = (⟨200, splitQuery { head.req with
            body := (stream.drop (hdrLen + 4)).take head.bodyLen }, head.connClose⟩,
          stream.drop (hdrLen + 4 + head.bodyLen)) := by
  unfold request
  cases hfind : findHdrEnd stream with
  | none =>
      refine Or.inl ⟨?_, rfl⟩
      simp only
      split
      · decide
      · split <;> decide
  | some hdrLen =>
      by_cases hlong : MAX_HDR_BYTES < hdrLen
      · simp only [if_pos hlong]
        exact Or.inl ⟨by decide, trivial⟩
      · simp only [if_neg hlong]
        cases hhead : parseHead (stream.take hdrLen) with
        | error head => exact Or.inl ⟨by simp, rfl⟩
        | ok head =>
            simp only
            by_cases hbig : bodyCap maxBody < head.bodyLen
            · rw [if_pos hbig]
              exact Or.inl ⟨by simp, rfl⟩
            · rw [if_neg hbig]
              by_cases hshort : stream.length < hdrLen + 4 + head.bodyLen
              · rw [if_pos hshort]
                exact Or.inl ⟨by simp, rfl⟩
              · rw [if_neg hshort]
                exact Or.inr ⟨hdrLen, head, ⟨hfind, by omega, hhead, by omega, by omega⟩, rfl⟩

theorem Complete.request {stream : Bytes} {hdrLen : Nat} {head : Head}
    (h : Complete maxBody stream hdrLen head) :
    request maxBody stream = (⟨200, splitQuery { head.req with
        body := (stream.drop (hdrLen + 4)).take head.bodyLen }, head.connClose⟩,
      stream.drop (hdrLen + 4 + head.bodyLen)) := by
  have hlong : ¬ MAX_HDR_BYTES < hdrLen := Nat.not_lt.2 h.short
  have hbig : ¬ bodyCap maxBody < head.bodyLen := Nat.not_lt.2 h.allowed
  have hshort : ¬ stream.length < hdrLen + 4 + head.bodyLen := Nat.not_lt.2 h.arrived
  simp only [Http.request, h.find, if_neg hlong, h.parsed, if_neg hbig, if_neg hshort]

theorem splitQuery_body (req : HttpReq) : (splitQuery req).body = req.body := by
  unfold splitQuery
  split <;> rfl

theorem request_code {stream : Bytes} (h : (request maxBody stream).1.code = 200) :
    ∃ hdrLen head, Complete maxBody stream hdrLen head ∧
      (request maxBody stream).1.req.body = (stream.drop (hdrLen + 4)).take head.bodyLen ∧
      (request maxBody stream).2 = stream.drop (hdrLen + 4 + head.bodyLen) := by
  obtain ⟨hcode, -⟩ | ⟨hdrLen, head, hcomplete, hrequest⟩ := request_cases maxBody stream
  · exact absurd h hcode
  · refine ⟨hdrLen, head, hcomplete, ?_, ?_⟩
    · rw [hrequest, splitQuery_body]
    · rw [hrequest]

/-- A call treats a connection as `request` treats the bytes that are pending. -/
structure Framed (maxBody : Int) (conn : HttpConn) (r : Result × HttpConn) : Prop where
  result : r.1 = (request maxBody conn.pending).1
  pending : r.2.pending = (request maxBody conn.pending).2
  -- no byte behind the request has been read if it ends with a chunk
  rest : r.1.code = 200 → ∀ rest, rest <:+ conn.fd →
    rest.flatten.length ≤ (request maxBody conn.pending).2.length → rest <:+ r.2.fd

theorem Framed.refused {r : Result} {conn' : HttpConn}
    (hrequest : request maxBody conn.pending = (r, conn.pending)) (hcode : r.code ≠ 200)
    (hpending : conn'.pending = conn.pending) : Framed maxBody conn (r, conn') := by
  refine ⟨?_, ?_, fun hok => absurd hok hcode⟩
  · rw [hrequest]
  · rw [hrequest]
    exact hpending

theorem finishReq_spec (h : Ready maxBody conn) {hdrLen : Nat}
    (hfind : findHdrEnd conn.pending = some hdrLen) (hused : hdrLen + 4 ≤ conn.buf.length) :
    Ready maxBody (finishReq maxBody hdrLen conn).2 ∧
      Framed maxBody conn (finishReq maxBody hdrLen conn) := by
  have htake : conn.pending.take hdrLen = conn.buf.take hdrLen :=
    List.take_append_of_le_length (by omega)
  unfold finishReq
  by_cases hlong : hdrLen > MAX_HDR_BYTES
  · have hrequest : request maxBody conn.pending = ({ code := 413 }, conn.pending) := by
      simp only [request, hfind, if_pos hlong]
    rw [if_pos hlong]
    exact ⟨h, .refused hrequest (by simp) rfl⟩
  · rw [if_neg hlong]
    have hnot : ¬ MAX_HDR_BYTES < hdrLen := hlong
    cases hhead : parseHead (conn.buf.take hdrLen) with
    | error head =>
        have hrequest : request maxBody conn.pending =
            (⟨400, head.req, head.connClose⟩, conn.pending) := by
          simp only [request, hfind, if_neg hnot, htake, hhead]
        exact ⟨h, .refused hrequest (by simp) rfl⟩
    | ok head =>
        simp only
        by_cases hbig : head.bodyLen > bodyCap maxBody
        · have hrequest : request maxBody conn.pending =
              (⟨413, head.req, head.connClose⟩, conn.pending) := by
            simp only [request, hfind, if_neg hnot, htake, hhead, if_pos hbig]
          rw [if_pos hbig]
          exact ⟨h, .refused hrequest (by simp) rfl⟩
        · have hcap : ¬ bodyCap maxBody < head.bodyLen := hbig
          have htarget : hdrLen + 4 + head.bodyLen ≤ conn.maxTotal := by
            have := h.total
            omega
          rw [if_neg hbig, if_neg (by omega)]
          obtain ⟨hready, -, hpending, henough, hended, hrest⟩ := ensureBuffered_spec h htarget
          generalize ensureBuffered conn (hdrLen + 4 + head.bodyLen) = r at *
          obtain ⟨code, conn'⟩ := r
          simp only at hready hpending henough hended hrest ⊢
          by_cases hshort : conn.pending.length < hdrLen + 4 + head.bodyLen
          · have hne : conn.pending ≠ [] := by
              intro hnil
              rw [HttpConn.pending, List.append_eq_nil_iff] at hnil
              rw [hnil.1, List.length_nil] at hused
              omega
            have hcode : code = 400 := by
              rw [hended hshort, if_neg hne]
            have hrequest : request maxBody conn.pending =
                (⟨400, head.req, head.connClose⟩, conn.pending) := by
              simp only [request, hfind, if_neg hnot, htake, hhead, if_neg hcap, if_pos hshort]
            rw [hcode, if_pos (by decide)]
            exact ⟨hready, .refused hrequest (by simp) hpending⟩
          · obtain ⟨hcode, hall⟩ := henough (by omega)
            have hrequest : request maxBody conn.pending =
                (⟨200, splitQuery { head.req with
                    body := (conn.pending.drop (hdrLen + 4)).take head.bodyLen },
                  head.connClose⟩, conn.pending.drop (hdrLen + 4 + head.bodyLen)) := by
              simp only [request, hfind, if_neg hnot, htake, hhead, if_neg hcap, if_neg hshort]
            have hbody : (conn.pending.drop (hdrLen + 4)).take head.bodyLen =
                (conn'.buf.drop (hdrLen + 4)).take head.bodyLen := by
              rw [← hpending, HttpConn.pending, List.drop_append_of_le_length (by omega),
                List.take_append_of_le_length (by rw [List.length_drop]; omega)]
            rw [hcode, if_neg (by decide)]
            refine ⟨⟨hready.chunks, hready.room, hready.fits, hready.total⟩, ?_, ?_, ?_⟩
            · rw [hrequest, hbody]
            · rw [hrequest, ← hpending, HttpConn.pending, HttpConn.pending,
                List.drop_append_of_le_length hall]
            · intro _ rest hsuffix hlen
              rw [hrequest, List.length_drop] at hlen
              exact hrest rest hsuffix (by omega)

/-- A call frames its request, or the limit has cut into the end of the header. -/
theorem parseReq_spec (h : Ready maxBody conn) :
    Ready maxBody (parseReq maxBody conn).2 ∧
      (Framed maxBody conn (parseReq maxBody conn) ∨
        (parseReq maxBody conn).1 = { code := 413 } ∧
        ∃ hdrLen, findHdrEnd conn.pending = some hdrLen ∧ ¬ Clear hdrLen) := by
  obtain ⟨hready, htotal, hpending, hread⟩ := readHeader_spec h
  unfold parseReq
  generalize readHeader conn = r at *
  cases hread with
  | @found hdrLen conn' hfind hused hrest =>
      simp only at hready hpending ⊢
      rw [← hpending] at hfind
      obtain ⟨hready', hframed⟩ := finishReq_spec hready hfind hused
      refine ⟨hready', Or.inl ⟨?_, ?_, ?_⟩⟩
      · rw [hframed.result, hpending]
      · rw [hframed.pending, hpending]
      · intro hcode rest hsuffix hlen
        rw [← hpending] at hlen
        apply hframed.rest hcode rest _ hlen
        have hok := hcode
        rw [hframed.result] at hok
        obtain ⟨n, head, hcomplete, -, hleft⟩ := request_code hok
        have hn : n = hdrLen := Option.some.inj (hcomplete.find.symm.trans hfind)
        rw [hleft, List.length_drop, hpending, hn] at hlen
        have harrived := hcomplete.arrived
        rw [hpending] at harrived
        exact hrest rest hsuffix (by omega)
  | @tooLong conn' hlen hfind =>
      simp only at hready hpending ⊢
      refine ⟨hready, ?_⟩
      cases hsome : findHdrEnd conn.pending with
      | none =>
          have hrequest : request maxBody conn.pending = ({ code := 413 }, conn.pending) := by
            simp only [request, hsome, if_pos hlen]
          exact Or.inl (.refused hrequest (by simp) hpending)
      | some hdrLen =>
          have hbehind := hfind hdrLen hsome
          by_cases hlong : MAX_HDR_BYTES < hdrLen
          · have hrequest : request maxBody conn.pending = ({ code := 413 }, conn.pending) := by
              simp only [request, hsome, if_pos hlong]
            exact Or.inl (.refused hrequest (by simp) hpending)
          · refine Or.inr ⟨trivial, hdrLen, rfl, ?_⟩
            unfold Clear
            omega
  | @ended conn' hlen hfind =>
      simp only at hready hpending ⊢
      have hrequest : request maxBody conn.pending =
          ({ code := if conn.pending = [] then 0 else 400 }, conn.pending) := by
        simp only [request, hfind, if_neg (Nat.not_le_of_lt hlen)]
      refine ⟨hready, Or.inl (.refused hrequest ?_ hpending)⟩
      simp only
      split <;> decide

theorem connInit_ready {chunks : List Bytes} (h : Nonempty chunks) :
    Ready maxBody (connInit chunks maxBody) := by
  have hbody : bodyCap maxBody ≤ (if maxBody > 0 then maxBody.toNat else 1048576) ∧
      0 < (if maxBody > 0 then maxBody.toNat else 1048576) := by
    unfold bodyCap
    split <;> omega
  unfold connInit
  generalize (if maxBody > 0 then maxBody.toNat else 1048576) = body at hbody
  by_cases hsmall : body + MAX_HDR_BYTES + 4 < CONN_BUF_INIT
  · simp only [if_pos hsmall]
    exact ⟨h, by simp only; omega, le_refl _, by simp only; omega⟩
  · simp only [if_neg hsmall]
    exact ⟨h, by simp only; decide, by simp only; omega, by simp only; omega⟩

theorem connInit_pending (chunks : List Bytes) :
    (connInit chunks maxBody).pending = chunks.flatten := by
  rw [HttpConn.pending, connInit, List.nil_append]

/-! ## Runs of calls -/

/-- The connection after `n` calls. -/
def after (maxBody : Int) : Nat → HttpConn → HttpConn
  | 0, conn => conn
  | n + 1, conn => after maxBody n (parseReq maxBody conn).2

/-- The results of the first `n` calls. -/
def calls (maxBody : Int) : Nat → HttpConn → List Result
  | 0, _ => []
  | n + 1, conn => (parseReq maxBody conn).1 :: calls maxBody n (parseReq maxBody conn).2

/-- A way to deliver the stream. -/
structure Splits (stream : Bytes) (chunks : List Bytes) : Prop where
  flatten : chunks.flatten = stream
  nonempty : Nonempty chunks

/-- The results do not depend on how the stream arrives. -/
def SameResults (maxBody : Int) (stream : Bytes) : Prop :=
  ∀ chunks chunks', Splits stream chunks → Splits stream chunks' → ∀ n,
    calls maxBody n (connInit chunks maxBody) = calls maxBody n (connInit chunks' maxBody)

/-- A successful call takes its request from the stream and nothing else. -/
def ConsumesRequests (maxBody : Int) (stream : Bytes) : Prop :=
  ∀ chunks, Splits stream chunks → ∀ n conn, conn = after maxBody n (connInit chunks maxBody) →
    (parseReq maxBody conn).1.code = 200 →
      ∃ hdrLen head, Complete maxBody conn.pending hdrLen head ∧
        (parseReq maxBody conn).1.req.body =
          (conn.pending.drop (hdrLen + 4)).take head.bodyLen ∧
        (parseReq maxBody conn).2.pending = conn.pending.drop (hdrLen + 4 + head.bodyLen)

/-- The places of a stream where a call looks for a request. -/
inductive Reaches (maxBody : Int) : Bytes → Bytes → Prop
  | here (stream : Bytes) : Reaches maxBody stream stream
  | next {stream rest : Bytes} {hdrLen : Nat} {head : Head}
      (hcomplete : Complete maxBody stream hdrLen head)
      (hrest : Reaches maxBody (stream.drop (hdrLen + 4 + head.bodyLen)) rest) :
      Reaches maxBody stream rest

/-- No header that a call meets ends across the limit. -/
def HeadersClear (maxBody : Int) (stream : Bytes) : Prop :=
  ∀ rest, Reaches maxBody stream rest → ∀ hdrLen, findHdrEnd rest = some hdrLen → Clear hdrLen

theorem HeadersClear.request {stream : Bytes} (h : HeadersClear maxBody stream) :
    HeadersClear maxBody (request maxBody stream).2 := by
  obtain ⟨-, hleft⟩ | ⟨hdrLen, head, hcomplete, hrequest⟩ := request_cases maxBody stream
  · rw [hleft]
    exact h
  · rw [hrequest]
    exact fun rest hrest => h rest (.next hcomplete hrest)

theorem parseReq_framed (h : Ready maxBody conn)
    (hclear : ∀ hdrLen, findHdrEnd conn.pending = some hdrLen → Clear hdrLen) :
    Framed maxBody conn (parseReq maxBody conn) := by
  obtain ⟨-, hframed | ⟨-, hdrLen, hfind, hcut⟩⟩ := parseReq_spec h
  · exact hframed
  · exact absurd (hclear hdrLen hfind) hcut

/-- Two connections with the same bytes to come give the same results. -/
theorem calls_eq (n : Nat) {conn' : HttpConn} (h : Ready maxBody conn) (h' : Ready maxBody conn')
    (hsame : conn.pending = conn'.pending) (hclear : HeadersClear maxBody conn.pending) :
    calls maxBody n conn = calls maxBody n conn' := by
  induction n generalizing conn conn' with
  | zero => rfl
  | succ n ih =>
      have hframed := parseReq_framed h (hclear _ (.here _))
      have hframed' : Framed maxBody conn' (parseReq maxBody conn') := by
        rw [hsame] at hclear
        exact parseReq_framed h' (hclear _ (.here _))
      have hresult : (parseReq maxBody conn).1 = (parseReq maxBody conn').1 := by
        rw [hframed.result, hframed'.result, hsame]
      have hpending : (parseReq maxBody conn).2.pending = (parseReq maxBody conn').2.pending := by
        rw [hframed.pending, hframed'.pending, hsame]
      have hclear' : HeadersClear maxBody (parseReq maxBody conn).2.pending := by
        rw [hframed.pending]
        exact hclear.request
      rw [calls, calls, hresult, ih (parseReq_spec h).1 (parseReq_spec h').1 hpending hclear']

theorem sameResults_of_headersClear {stream : Bytes} (h : HeadersClear maxBody stream) :
    SameResults maxBody stream := by
  intro chunks chunks' hsplits hsplits' n
  apply calls_eq n (connInit_ready hsplits.nonempty) (connInit_ready hsplits'.nonempty)
  · rw [connInit_pending, connInit_pending, hsplits.flatten, hsplits'.flatten]
  · rw [connInit_pending, hsplits.flatten]
    exact h

theorem after_ready (n : Nat) (h : Ready maxBody conn) : Ready maxBody (after maxBody n conn) := by
  induction n generalizing conn with
  | zero => exact h
  | succ n ih => exact ih (parseReq_spec h).1

theorem consumesRequests (maxBody : Int) (stream : Bytes) : ConsumesRequests maxBody stream := by
  intro chunks hsplits n conn hconn hcode
  have hready : Ready maxBody conn := by
    rw [hconn]
    exact after_ready n (connInit_ready hsplits.nonempty)
  obtain ⟨-, hframed | ⟨hcut, -⟩⟩ := parseReq_spec hready
  · have hok := hcode
    rw [hframed.result] at hok
    obtain ⟨hdrLen, head, hcomplete, hbody, hleft⟩ := request_code hok
    refine ⟨hdrLen, head, hcomplete, ?_, ?_⟩
    · rw [hframed.result, hbody]
    · rw [hframed.pending, hleft]
  · rw [hcut] at hcode
    exact absurd hcode (by decide)

/-! ## A header that ends across the limit -/

/-- Nothing buffered, and the rest of the stream in these chunks. -/
def Fresh (conn : HttpConn) (chunks : List Bytes) : Prop := conn.buf = [] ∧ conn.fd = chunks

/-- A request that ends with a chunk is taken without a byte of the next one. -/
theorem parseReq_fresh {front : Bytes} {chunks : List Bytes} {hdrLen : Nat} {head : Head}
    (h : Ready maxBody conn) (hfresh : Fresh conn (front :: chunks))
    (hcomplete : Complete maxBody conn.pending hdrLen head) (hclear : Clear hdrLen)
    (hfront : front.length = hdrLen + 4 + head.bodyLen) :
    (parseReq maxBody conn).1 = (request maxBody conn.pending).1 ∧
      Fresh (parseReq maxBody conn).2 chunks := by
  have hpending : conn.pending = front ++ chunks.flatten := by
    rw [HttpConn.pending, hfresh.1, hfresh.2]
    rfl
  obtain ⟨hresult, hleft, hrest⟩ := parseReq_framed h fun n hn => by
    rwa [Option.some.inj (hn.symm.trans hcomplete.find)]
  have hcode : (request maxBody conn.pending).1.code = 200 := by
    rw [hcomplete.request]
  have hgone : (request maxBody conn.pending).2 = chunks.flatten := by
    rw [hcomplete.request, hpending, ← hfront]
    exact List.drop_left
  rw [hresult, hgone] at hrest
  rw [hgone] at hleft
  have hsuffix := hrest hcode chunks (by rw [hfresh.2]; exact List.suffix_cons front chunks)
    (le_refl _)
  have hlen := congrArg List.length hleft
  rw [HttpConn.pending, List.length_append] at hlen
  have hready := (parseReq_spec h).1
  have hfd : (parseReq maxBody conn).2.fd = chunks :=
    hready.chunks.eq_of_suffix hsuffix (by omega)
  rw [hfd] at hlen
  exact ⟨hresult, List.length_eq_zero_iff.1 (by omega), hfd⟩

theorem ensureBuffered_fresh {chunks : List Bytes} (h : Ready maxBody conn)
    (hfresh : Fresh conn chunks) (hdata : (recv conn.cap chunks).1 ≠ []) :
    ensureBuffered conn 1 = (200, { conn with
      fd := (recv conn.cap chunks).2, buf := (recv conn.cap chunks).1 }) := by
  have hroom := h.room
  have hfits := h.fits
  have hcap : reserve conn 1 = some conn.cap := by
    rw [reserve, if_neg (by omega)]
  have hpos : 0 < (recv conn.cap chunks).1.length := List.length_pos_iff.2 hdata
  rw [ensureBuffered, hfresh.1, if_pos (by simp), if_neg (by omega), hcap, hfresh.2]
  simp only [List.length_nil, Nat.sub_zero, List.nil_append]
  rw [if_neg hdata, ensureBuffered, if_neg (by simp only; omega)]

theorem readHeader_fresh {chunks : List Bytes} (h : Ready maxBody conn)
    (hfresh : Fresh conn chunks) (hdata : (recv conn.cap chunks).1 ≠ []) :
    readHeader conn = readHeader { conn with
      fd := (recv conn.cap chunks).2, buf := (recv conn.cap chunks).1 } := by
  have hone := ensureBuffered_fresh h hfresh hdata
  have hnone : findHdrEnd conn.buf = none := by
    rw [hfresh.1]
    rfl
  have hempty : ¬ conn.buf.length ≥ MAX_HDR_BYTES := by
    rw [hfresh.1]
    decide
  have hnext : conn.buf.length + 1 = 1 := by
    rw [hfresh.1]
    rfl
  conv_lhs => rw [readHeader]
  simp only [hnone, if_neg hempty, hnext, hone, if_true]

theorem Ready.received {chunks : List Bytes} (h : Ready maxBody conn) (hfresh : Fresh conn chunks) :
    Ready maxBody { conn with fd := (recv conn.cap chunks).2, buf := (recv conn.cap chunks).1 } :=
  ⟨hfresh.2 ▸ h.chunks.recv, h.room, h.fits, h.total⟩

/-! ### The head of a request that is not refused for its length -/

theorem scanWord_ne {n : Nat} (hn : 0 < n) {text rest : Bytes} {word : CBuf n}
    (h : scanWord n text = some (word, rest)) : word.bytes ≠ [] := by
  unfold scanWord at h
  cases htext : (cstr text).dropWhile isSpace with
  | nil => simp [htext] at h
  | cons c tl =>
      have hc : isSpace c = false := by
        have := List.head?_dropWhile_not isSpace (cstr text)
        rw [htext] at this
        simpa using this
      have hne : c ≠ 0 := by
        apply ne_zero_of_mem_cstr
        apply (List.dropWhile_sublist isSpace).subset
        rw [htext]
        exact List.mem_cons_self
      simp only [htext, if_neg (List.cons_ne_nil c tl), Option.some.injEq, Prod.mk.injEq] at h
      rw [← h.1]
      change ((((c :: tl).takeWhile (!isSpace ·)).takeWhile (· != 0)).take n) ≠ []
      rw [List.takeWhile_cons_of_pos (by simp [hc]), List.takeWhile_cons_of_pos (by simp [hne])]
      simp
      omega

theorem requestLine_meth {line : Bytes} {head : Head} (h : requestLine line = .ok head) :
    head.req.meth.bytes ≠ [] := by
  unfold requestLine at h
  cases hmeth : scanWord 7 line with
  | none => simp [hmeth] at h
  | some word =>
      obtain ⟨meth, line'⟩ := word
      have hne := scanWord_ne (by decide) hmeth
      simp only [hmeth] at h
      split at h
      · exact absurd h (by simp)
      · split at h
        · exact absurd h (by simp)
        · split at h
          · rw [← Except.ok.inj h]
            exact hne
          · exact absurd h (by simp)

theorem headerLine_req {line : Bytes} {head head' : Head} (h : headerLine head line = .ok head') :
    head'.req = head.req := by
  unfold headerLine at h
  split at h
  · rw [← Except.ok.inj h]
  · simp only at h
    split at h
    · split at h
      · rw [← Except.ok.inj h]
      · exact absurd h (by simp)
    · split at h
      · split at h <;> rw [← Except.ok.inj h]
      · split at h
        · exact absurd h (by simp)
        · rw [← Except.ok.inj h]

theorem headerLines_req {lines : List Bytes} : ∀ {head head' : Head},
    lines.foldlM headerLine head = .ok head' → head'.req = head.req := by
  induction lines with
  | nil =>
      intro head head' h
      rw [← Except.ok.inj h]
  | cons line lines ih =>
      intro head head' h
      rw [List.foldlM_cons] at h
      cases hline : headerLine head line with
      | error e =>
          rw [hline] at h
          exact absurd h (by simp [bind, Except.bind])
      | ok head₁ =>
          rw [hline] at h
          exact (ih h).trans (headerLine_req hline)

theorem parseHead_meth {header : Bytes} {head : Head} (h : parseHead header = .ok head) :
    head.req.meth.bytes ≠ [] := by
  unfold parseHead at h
  split at h
  · exact absurd h (by simp)
  · rename_i line lines _
    cases hline : requestLine line with
    | error e =>
        rw [hline] at h
        exact absurd h (by simp [bind, Except.bind])
    | ok head₁ =>
        rw [hline] at h
        rw [headerLines_req h]
        exact requestLine_meth hline

theorem request_ne_tooLong {stream : Bytes} {hdrLen : Nat}
    (hfind : findHdrEnd stream = some hdrLen) (hlen : hdrLen ≤ MAX_HDR_BYTES) :
    (request maxBody stream).1 ≠ { code := 413 } := by
  have hlong : ¬ MAX_HDR_BYTES < hdrLen := Nat.not_lt.2 hlen
  unfold request
  simp only [hfind, if_neg hlong]
  cases hhead : parseHead (stream.take hdrLen) with
  | error head => simp
  | ok head =>
      simp only
      split
      · intro heq
        have hreq := congrArg (fun r => r.req.meth.bytes) heq
        exact parseHead_meth hhead hreq
      · split <;> simp

theorem parseReq_cut {stream : Bytes} {hdrLen : Nat} (h : Ready maxBody conn)
    (hfresh : Fresh conn [stream.take MAX_HDR_BYTES, stream.drop MAX_HDR_BYTES])
    (hfind : findHdrEnd stream = some hdrLen) (hlen : MAX_HDR_BYTES < hdrLen + 4) :
    (parseReq maxBody conn).1 = { code := 413 } := by
  have hle := findHdrEnd_le hfind
  have hroom := h.room
  have htake : (stream.take MAX_HDR_BYTES).length = MAX_HDR_BYTES := by
    rw [List.length_take]
    omega
  have hrecv : recv conn.cap [stream.take MAX_HDR_BYTES, stream.drop MAX_HDR_BYTES] =
      (stream.take MAX_HDR_BYTES, [stream.drop MAX_HDR_BYTES]) := by
    rw [recv, if_pos (by omega)]
  have hnone : findHdrEnd (stream.take MAX_HDR_BYTES) = none := by
    cases hsome : findHdrEnd (stream.take MAX_HDR_BYTES) with
    | none => rfl
    | some n =>
        have hn := findHdrEnd_le hsome
        have happend := findHdrEnd_append (t := stream.drop MAX_HDR_BYTES) hsome
        rw [List.take_append_drop, hfind, Option.some.injEq] at happend
        omega
  have hread := readHeader_fresh h hfresh (by
    rw [hrecv]
    exact List.ne_nil_of_length_pos (by simp only; rw [htake]; decide))
  rw [parseReq, hread, readHeader]
  simp only [hrecv, hnone, if_pos (ge_of_eq htake)]

theorem parseReq_whole {stream : Bytes} {hdrLen : Nat} (h : Ready maxBody conn)
    (hfresh : Fresh conn [stream]) (hfind : findHdrEnd stream = some hdrLen)
    (hlen : hdrLen ≤ MAX_HDR_BYTES) :
    (parseReq maxBody conn).1 = (request maxBody stream).1 := by
  have hle := findHdrEnd_le hfind
  have hroom := h.room
  have hready := h.received hfresh
  have hpending := recv_append [stream] conn.cap
  have hlong : hdrLen + 4 ≤ (recv conn.cap [stream]).1.length := by
    rw [recv]
    split
    · exact hle
    · rw [List.length_take]
      omega
  have hdata : (recv conn.cap [stream]).1 ≠ [] := List.ne_nil_of_length_pos (by omega)
  have hread := readHeader_fresh h hfresh hdata
  generalize recv conn.cap [stream] = r at *
  rw [List.flatten_singleton] at hpending
  rw [← hpending] at hfind
  rw [parseReq, hread, readHeader]
  simp only [findHdrEnd_of_append hfind hlong]
  rw [(finishReq_spec hready hfind hlong).2.result]
  simp only [HttpConn.pending, hpending]

/-- Where the limit cuts into a terminator, two deliveries give different results. -/
theorem exists_different_calls {stream rest : Bytes} (hreach : Reaches maxBody stream rest)
    {hdrLen : Nat} (hfind : findHdrEnd rest = some hdrLen) (hcut : ¬ Clear hdrLen) :
    ∃ chunks chunks' n, Splits stream chunks ∧ Splits stream chunks' ∧
      ∀ conn conn', Ready maxBody conn → Ready maxBody conn' → Fresh conn chunks →
        Fresh conn' chunks' → calls maxBody n conn ≠ calls maxBody n conn' := by
  have hhere : ∀ {stream : Bytes} {hdrLen : Nat}, findHdrEnd stream = some hdrLen →
      ¬ Clear hdrLen → ∃ chunks chunks' n, Splits stream chunks ∧ Splits stream chunks' ∧
        ∀ conn conn', Ready maxBody conn → Ready maxBody conn' → Fresh conn chunks →
          Fresh conn' chunks' → calls maxBody n conn ≠ calls maxBody n conn' := by
    intro stream hdrLen hfind hcut
    unfold Clear at hcut
    have hle := findHdrEnd_le hfind
    refine ⟨[stream.take MAX_HDR_BYTES, stream.drop MAX_HDR_BYTES], [stream], 1, ⟨?_, ?_⟩,
      ⟨?_, ?_⟩, ?_⟩
    · simp
    · intro chunk hchunk
      apply List.ne_nil_of_length_pos
      rw [List.mem_pair] at hchunk
      obtain rfl | rfl := hchunk
      · rw [List.length_take]
        have : 0 < MAX_HDR_BYTES := by decide
        omega
      · rw [List.length_drop]
        omega
    · simp
    · intro chunk hchunk
      apply List.ne_nil_of_length_pos
      rw [List.mem_singleton.1 hchunk]
      omega
    · intro conn conn' h h' hfresh hfresh' heq
      have hone : (parseReq maxBody conn).1 = (parseReq maxBody conn').1 := by
        simpa [calls] using heq
      rw [parseReq_cut h hfresh hfind (by omega),
        parseReq_whole h' hfresh' hfind (by omega)] at hone
      exact request_ne_tooLong hfind (by omega) hone.symm
  induction hreach with
  | here stream => exact hhere hfind hcut
  | @next stream rest n head hcomplete hrest ih =>
      by_cases hclear : Clear n
      · obtain ⟨chunks, chunks', k, hsplits, hsplits', hdiffer⟩ := ih hfind
        have harrived := hcomplete.arrived
        have hfront : (stream.take (n + 4 + head.bodyLen)).length = n + 4 + head.bodyLen := by
          rw [List.length_take]
          omega
        have hcons : ∀ {chunks : List Bytes}, Splits (stream.drop (n + 4 + head.bodyLen)) chunks →
            Splits stream (stream.take (n + 4 + head.bodyLen) :: chunks) := by
          intro chunks hsplits
          refine ⟨?_, ?_⟩
          · rw [List.flatten_cons, hsplits.flatten, List.take_append_drop]
          · intro chunk hchunk
            obtain rfl | hchunk := List.mem_cons.1 hchunk
            · exact List.ne_nil_of_length_pos (by omega)
            · exact hsplits.nonempty chunk hchunk
        have hfirst : ∀ {conn : HttpConn} {chunks : List Bytes}, Ready maxBody conn →
            Splits (stream.drop (n + 4 + head.bodyLen)) chunks →
            Fresh conn (stream.take (n + 4 + head.bodyLen) :: chunks) →
            (parseReq maxBody conn).1 = (request maxBody stream).1 ∧
              Fresh (parseReq maxBody conn).2 chunks := by
          intro conn chunks h hsplits hfresh
          have hpending : conn.pending = stream := by
            rw [HttpConn.pending, hfresh.1, hfresh.2]
            exact (hcons hsplits).flatten
          rw [← hpending] at hcomplete
          have hone := parseReq_fresh h hfresh hcomplete hclear hfront
          rwa [hpending] at hone
        refine ⟨_, _, k + 1, hcons hsplits, hcons hsplits', ?_⟩
        intro conn conn' h h' hfresh hfresh' heq
        obtain ⟨hresult, hnext⟩ := hfirst h hsplits hfresh
        obtain ⟨hresult', hnext'⟩ := hfirst h' hsplits' hfresh'
        rw [calls, calls, List.cons.injEq] at heq
        exact hdiffer _ _ (parseReq_spec h).1 (parseReq_spec h').1 hnext hnext' heq.2
      · exact hhere hcomplete.find hclear

theorem not_sameResults {stream rest : Bytes} (hreach : Reaches maxBody stream rest) {hdrLen : Nat}
    (hfind : findHdrEnd rest = some hdrLen) (hcut : ¬ Clear hdrLen) :
    ¬ SameResults maxBody stream := by
  obtain ⟨chunks, chunks', n, hsplits, hsplits', hdiffer⟩ :=
    exists_different_calls hreach hfind hcut
  intro hsame
  exact hdiffer _ _ (connInit_ready hsplits.nonempty) (connInit_ready hsplits'.nonempty)
    ⟨rfl, rfl⟩ ⟨rfl, rfl⟩ (hsame _ _ hsplits hsplits' n)

/-- Requests are framed alike however they arrive, exactly when no header that a call
meets ends across the limit; and a successful call always takes its own bytes. -/
theorem framing_iff (maxBody : Int) (stream : Bytes) :
    (SameResults maxBody stream ∧ ConsumesRequests maxBody stream) ↔
      HeadersClear maxBody stream := by
  constructor
  · intro ⟨hsame, _⟩ rest hreach hdrLen hfind
    by_contra hcut
    exact not_sameResults hreach hfind hcut hsame
  · intro hclear
    exact ⟨sameResults_of_headersClear hclear, consumesRequests maxBody stream⟩

theorem findHdrEnd_cons {c : UInt8} {rest : Bytes} (h : (c :: rest).take 4 ≠ [13, 10, 13, 10]) :
    findHdrEnd (c :: rest) = (findHdrEnd rest).map (· + 1) := by
  rw [findHdrEnd, if_neg h]

theorem findHdrEnd_replicate (n : Nat) :
    findHdrEnd (List.replicate n 97 ++ [13, 10, 13, 10]) = some n := by
  induction n with
  | zero => rfl
  | succ n ih =>
      rw [List.replicate_succ, List.cons_append, findHdrEnd_cons (by simp), ih]
      rfl

/-- One request with a header of `18 + n` bytes. -/
def header (n : Nat) : Bytes :=
  str "GET / HTTP/1.1\r\nX:" ++ (List.replicate n 97 ++ [13, 10, 13, 10])

theorem findHdrEnd_header (n : Nat) : findHdrEnd (header n) = some (n + 18) := by
  rw [header, show str "GET / HTTP/1.1\r\nX:" = [71, 69, 84, 32, 47, 32, 72, 84, 84, 80, 47,
    49, 46, 49, 13, 10, 88, 58] by decide]
  simp only [List.cons_append, List.nil_append]
  iterate 18 rw [findHdrEnd_cons (by simp)]
  rw [findHdrEnd_replicate]
  rfl

theorem framing_longHeader :
    ¬ (SameResults 1048576 (header 8172) ∧ ConsumesRequests 1048576 (header 8172)) := by
  rintro ⟨hsame, -⟩
  exact not_sameResults (.here _) (findHdrEnd_header 8172)
    (by unfold Clear MAX_HDR_BYTES; omega) hsame

end MiniDbms.Http
