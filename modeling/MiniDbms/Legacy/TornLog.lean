import MiniDbms.Db.Number
import MiniDbms.Legacy.DeltaLog
import MiniDbms.Lib.Lists

/-!
# Torn logs

A log is written by sessions, each of which may be cut off anywhere.  As long as no
session starts behind a torn line, replaying applies the batches whose last line
has been written.
-/

namespace MiniDbms.Legacy

/-! ## Lines -/

/-- A test of the characters of a line. -/
def lineChars (line : Bytes) : Bool := line.all fun c => c != 0 && !isLineEnd c

theorem of_lineChars {line : Bytes} (h : lineChars line = true) :
    ∀ c ∈ line, c ≠ 0 ∧ isLineEnd c = false := by
  intro c hc
  have hboth := List.all_eq_true.1 h c hc
  rw [Bool.and_eq_true, bne_iff_ne, Bool.not_eq_true'] at hboth
  exact hboth

/-- A line that `fgets` reads whole and that holds no line end. -/
structure Fine (line : Bytes) : Prop where
  short : line.length + 2 ≤ DELTA_LINE_SIZE
  noNul : ∀ c ∈ line, c ≠ 0
  noEnd : ∀ c ∈ line, isLineEnd c = false

theorem Fine.noFeed {line : Bytes} (h : Fine line) : line.all (· != 10) = true := by
  rw [List.all_eq_true]
  intro c hc
  have := h.noEnd c hc
  rw [isLineEnd, Bool.or_eq_false_iff] at this
  simpa using this.1

theorem Fine.front {line front : Bytes} (h : Fine line) (hfront : front <+: line) : Fine front := by
  refine ⟨?_, fun c hc => h.noNul c (hfront.subset hc), fun c hc => h.noEnd c (hfront.subset hc)⟩
  have := hfront.length_le
  have := h.short
  omega

theorem Fine.fits {line : Bytes} (h : Fine line) : Fits DELTA_LINE_SIZE line := ⟨h.short, h.noFeed⟩

theorem chomp_line {line : Bytes} (h : Fine line) (tail : Bytes) (htail : tail = [] ∨ tail = [10]) :
    chomp DELTA_LINE_SIZE (line ++ tail) = some line := by
  refine chomp_text (fun c hc => ⟨h.noNul c hc, h.noEnd c hc⟩) ?_ h.short
  obtain rfl | rfl := htail
  · exact fun c hc => absurd hc List.not_mem_nil
  · intro c hc
    rw [List.mem_singleton.1 hc]
    rfl

/-! ## Operations -/

/-- What an UPDATE or DELETE writes: a `long`, and a row of a `RECORD_SIZE` buffer
that is one line. -/
def DeltaOp.Writable : DeltaOp → Prop
  | .update id row => (LONG_MIN ≤ id ∧ id ≤ LONG_MAX) ∧ row.length < RECORD_SIZE ∧
      ∀ c ∈ row, c ≠ 0 ∧ isLineEnd c = false
  | .delete id => LONG_MIN ≤ id ∧ id ≤ LONG_MAX

theorem printL_chars {id : Int} (hid : LONG_MIN ≤ id ∧ id ≤ LONG_MAX) :
    (printL id).length ≤ 21 ∧ ∀ c ∈ printL id, c ≠ 0 ∧ isLineEnd c = false ∧ c ≠ 9 := by
  obtain ⟨ds, -, hlen, hds, -, hprint⟩ := printL_spec hid.1 hid.2
  have hdigit : ∀ c ∈ ds, c ≠ 0 ∧ isLineEnd c = false ∧ c ≠ 9 := by
    intro c hc
    have h10 := ne_of_isDigit (hds c hc) (d := 10) (by decide)
    have h13 := ne_of_isDigit (hds c hc) (d := 13) (by decide)
    exact ⟨ne_of_isDigit (hds c hc) (by decide), by simp [isLineEnd, h10, h13],
      ne_of_isDigit (hds c hc) (by decide)⟩
  rw [hprint]
  split
  · refine ⟨by rw [List.length_cons]; omega, fun c hc => ?_⟩
    obtain rfl | hc := List.mem_cons.1 hc
    · decide
    · exact hdigit c hc
  · exact ⟨by omega, hdigit⟩

theorem parseLongValue_printL {id : Int} (hid : LONG_MIN ≤ id ∧ id ≤ LONG_MAX) :
    parseLongValue (printL id) = some id := by
  have hparse := (parseL_printL hid.1 hid.2).2
  have hnul : cstr (printL id) = printL id :=
    cstr_eq_self fun c hc => ((printL_chars hid).2 c hc).1
  unfold parseL at hparse
  simp only at hparse
  unfold parseLongValue
  rw [hnul]
  simp only
  by_cases hnil : normV 256 (printL id) = []
  · rw [if_pos hnil] at hparse
    exact absurd hparse (by simp)
  · rw [if_neg hnil] at hparse
    unfold strtol at hparse
    simp only at hparse
    by_cases hdigits : (takeSign ((normV 256 (printL id)).dropWhile isSpace)).2 ≠ [] ∧
        (takeSign ((normV 256 (printL id)).dropWhile isSpace)).2.all isDigit = true
    · have hnull : ¬ normV 256 (printL id) = str "NULL" := by
        intro h
        rw [h] at hdigits
        exact absurd hdigits (by decide)
      rw [if_pos hdigits] at hparse
      rw [if_neg (by rintro (h | h) <;> contradiction), if_pos hdigits]
      generalize (if (takeSign ((normV 256 (printL id)).dropWhile isSpace)).1 = true then
        -(digitsVal (takeSign ((normV 256 (printL id)).dropWhile isSpace)).2 : Int) else _) = v
        at hparse ⊢
      split at hparse
      · rename_i hrange
        rw [Option.some.injEq] at hparse ⊢
        omega
      · exact absurd hparse (by simp)
    · rw [if_neg hdigits] at hparse
      exact absurd hparse (by simp)

theorem parseOp_text {op : DeltaOp} (h : op.Writable) : parseOp op.text = some op := by
  cases op with
  | update id row =>
      obtain ⟨hid, -⟩ := h
      have hall : (printL id).all (· != 9) = true := by
        rw [List.all_eq_true]
        exact fun c hc => bne_iff_ne.2 ((printL_chars hid).2 c hc).2.2
      have hstop : ∀ c ∈ (9 :: row).head?, (c != 9) = false := by simp
      obtain ⟨htake, hdrop⟩ := span_append hall hstop
      have htext : (DeltaOp.update id row).text = 85 :: 9 :: (printL id ++ 9 :: row) := rfl
      rw [htext, parseOp]
      simp only [opBody, if_true, htake, hdrop, parseLongValue_printL hid, Option.map_some]
  | delete id =>
      have htext : (DeltaOp.delete id).text = 68 :: 9 :: printL id := rfl
      rw [htext, parseOp]
      simp [opBody, parseLongValue_printL h]

theorem Fine.text {op : DeltaOp} (h : op.Writable) : Fine op.text := by
  have hchars : ∀ {id : Int}, LONG_MIN ≤ id ∧ id ≤ LONG_MAX → ∀ c ∈ printL id,
      c ≠ 0 ∧ isLineEnd c = false :=
    fun hid c hc => ⟨((printL_chars hid).2 c hc).1, ((printL_chars hid).2 c hc).2.1⟩
  have hof : ∀ {line : Bytes}, line.length + 2 ≤ DELTA_LINE_SIZE →
      (∀ c ∈ line, c ≠ 0 ∧ isLineEnd c = false) → Fine line :=
    fun hlen hall => ⟨hlen, fun c hc => (hall c hc).1, fun c hc => (hall c hc).2⟩
  cases op with
  | update id row =>
      obtain ⟨hid, hrow, hrows⟩ := h
      have hlen := (printL_chars hid).1
      apply hof
      · simp only [DeltaOp.text, List.length_append, List.length_cons]
        unfold DELTA_LINE_SIZE RECORD_SIZE
        unfold RECORD_SIZE at hrow
        have hkind : (str "U\t").length = 2 := by decide
        omega
      · intro c hc
        simp only [DeltaOp.text, List.mem_append, List.mem_cons] at hc
        obtain (hc | hc) | rfl | hc := hc
        · exact of_lineChars (by decide : lineChars (str "U\t") = true) c hc
        · exact hchars hid c hc
        · decide
        · exact hrows c hc
  | delete id =>
      have hlen := (printL_chars h).1
      apply hof
      · simp only [DeltaOp.text, List.length_append]
        unfold DELTA_LINE_SIZE RECORD_SIZE
        have hkind : (str "D\t").length = 2 := by decide
        omega
      · intro c hc
        simp only [DeltaOp.text, List.mem_append] at hc
        obtain hc | hc := hc
        · exact of_lineChars (by decide : lineChars (str "D\t") = true) c hc
        · exact hchars h c hc

theorem Fine.batchLines {ops : List DeltaOp} (h : ∀ op ∈ ops, op.Writable) :
    ∀ line ∈ batchLines ops, Fine line := by
  have hmark : ∀ {line : Bytes}, line.length + 2 ≤ DELTA_LINE_SIZE → lineChars line = true →
      Fine line :=
    fun hlen hall => ⟨hlen, fun c hc => (of_lineChars hall c hc).1,
      fun c hc => (of_lineChars hall c hc).2⟩
  intro line hline
  rw [Legacy.batchLines, List.mem_cons, List.mem_append, List.mem_map, List.mem_singleton] at hline
  obtain rfl | ⟨op, hop, rfl⟩ | rfl := hline
  · exact hmark (by decide) rfl
  · exact Fine.text (h op hop)
  · exact hmark (by decide) rfl

/-! ## Replaying whole lines -/

section Lines

variable {σ : Type} {apply : σ → List DeltaOp → Option σ}

theorem replayRound_line {line tail : Bytes} (h : Fine line) (htail : tail = [] ∨ tail = [10])
    (state : ReplayState σ) :
    replayRound apply state (line ++ tail) = replayLine apply state line := by
  rw [replayRound, chomp_line h tail htail]
  rfl

theorem text_ne_mark (op : DeltaOp) : op.text ≠ str "B" ∧ op.text ≠ str "E" := by
  cases op with
  | update id row =>
      have htext : (DeltaOp.update id row).text = 85 :: 9 :: (printL id ++ 9 :: row) := rfl
      rw [htext]
      constructor <;> simp [str]
  | delete id =>
      have htext : (DeltaOp.delete id).text = 68 :: 9 :: printL id := rfl
      rw [htext]
      constructor <;> simp [str]

theorem replayLine_op {op : DeltaOp} (h : op.Writable) (s : σ) (ops : List DeltaOp) :
    replayLine apply (s, some ops) op.text = some (s, some (ops ++ [op])) := by
  obtain ⟨hB, hE⟩ := text_ne_mark op
  simp only [replayLine, if_neg hB, if_neg hE, parseOp_text h]

theorem replay_ops {ops : List DeltaOp} (h : ∀ op ∈ ops, op.Writable) (s : σ) :
    ∀ done : List DeltaOp, (ops.map DeltaOp.text).foldlM (replayLine apply) (s, some done) =
      some (s, some (done ++ ops)) := by
  induction ops with
  | nil =>
      intro done
      rw [List.append_nil]
      rfl
  | cons op ops ih =>
      intro done
      rw [List.map_cons, List.foldlM_cons, replayLine_op (h op List.mem_cons_self)]
      simp only [Option.bind_eq_bind, Option.bind_some]
      rw [ih fun o ho => h o (List.mem_cons_of_mem op ho)]
      simp

/-- A whole batch is applied, whatever stands open in front of it. -/
theorem replay_batch {ops : List DeltaOp} (h : ∀ op ∈ ops, op.Writable) (s : σ)
    (batch : Option (List DeltaOp)) :
    (batchLines ops).foldlM (replayLine apply) (s, batch) = (apply s ops).map (·, none) := by
  have hB : replayLine apply (s, batch) (str "B") = some (s, some []) := by
    simp only [replayLine, if_true]
  have hE : replayLine apply (s, some ops) (str "E") = (apply s ops).map (·, none) := by
    have hne : ¬ str "E" = str "B" := by decide
    simp only [replayLine, if_neg hne, if_true]
  rw [batchLines, List.foldlM_cons, hB]
  simp only [Option.bind_eq_bind, Option.bind_some]
  rw [List.foldlM_append, replay_ops h, List.nil_append]
  simp only [Option.bind_eq_bind, Option.bind_some]
  rw [List.foldlM_cons, hE, Option.bind_eq_bind]
  cases apply s ops <;> rfl

/-- The open batch behind the first `n` lines of one that is not at its end. -/
def openBatch (ops : List DeltaOp) : Nat → Option (List DeltaOp) → Option (List DeltaOp)
  | 0, batch => batch
  | n + 1, _ => some (ops.take n)

/-- Lines of a batch without its last one apply nothing. -/
theorem replay_open {ops : List DeltaOp} (h : ∀ op ∈ ops, op.Writable) {n : Nat}
    (hn : n < (batchLines ops).length) (s : σ) (batch : Option (List DeltaOp)) :
    ((batchLines ops).take n).foldlM (replayLine apply) (s, batch) =
      some (s, openBatch ops n batch) := by
  cases n with
  | zero => rfl
  | succ n =>
      have hn' : n ≤ (ops.map DeltaOp.text).length := by
        simp only [batchLines, List.length_cons, List.length_append, List.length_map,
          List.length_nil] at hn ⊢
        omega
      have hB : replayLine apply (s, batch) (str "B") = some (s, some []) := by
        simp only [replayLine, if_true]
      rw [batchLines, List.take_succ_cons, List.foldlM_cons, hB,
        List.take_append_of_le_length hn', ← List.map_take]
      simp only [Option.bind_eq_bind, Option.bind_some]
      rw [replay_ops fun op hop => h op (List.mem_of_mem_take hop), List.nil_append, openBatch]

end Lines

/-! ## Sessions -/

/-- A process that appends batches until a crash cuts its output off. -/
structure Session where
  batches : List (List DeltaOp)
  cut : Nat

def Session.output (session : Session) : Bytes :=
  (session.batches.flatMap batchText).take session.cut

def logOf (sessions : List Session) : Bytes := sessions.flatMap Session.output

/-- The batches that end within the first `cut` bytes. -/
def committed : List (List DeltaOp) → Nat → List (List DeltaOp)
  | [], _ => []
  | ops :: batches, cut =>
    if (batchText ops).length ≤ cut then
      ops :: committed batches (cut - (batchText ops).length)
    else []

def Session.committed (session : Session) : List (List DeltaOp) :=
  Legacy.committed session.batches session.cut

def Session.Writable (session : Session) : Prop :=
  ∀ ops ∈ session.batches, ∀ op ∈ ops, op.Writable

/-- Replaying the log applies the batches whose last line was written, in order. -/
def Survives (sessions : List Session) : Prop :=
  ∀ (σ : Type) (apply : σ → List DeltaOp → Option σ) (s : σ),
    replayDeltaLog apply (logOf sessions) s =
      (sessions.flatMap Session.committed).foldlM apply s

/-- The next byte starts a line. -/
def AtLineStart (log : Bytes) : Prop := log = [] ∨ ∃ front, log = front ++ [10]

/-- No session of the run writes behind a torn line, and the last one is not cut off
between an `E` and its line feed. -/
def Untorn : Bytes → List Session → Prop
  | log, [] => ¬ ∃ front, log = front ++ [10, 69]
  | log, session :: sessions =>
    (session.output = [] ∨ AtLineStart log) ∧ Untorn (log ++ session.output) sessions

theorem take_unlines : ∀ (lines : List Bytes) (cut : Nat), cut < (unlines lines).length →
    ∃ n front line, lines[n]? = some line ∧ front <+: line ∧
      (unlines lines).take cut = unlines (lines.take n) ++ front
  | [], cut, h => by simp [unlines] at h
  | line :: lines, cut, h => by
      have htext : unlines (line :: lines) = (line ++ [10]) ++ unlines lines := rfl
      by_cases hcut : cut ≤ line.length
      · refine ⟨0, line.take cut, line, rfl, List.take_prefix cut line, ?_⟩
        rw [htext, List.append_assoc, List.take_append_of_le_length hcut]
        rfl
      · rw [htext, List.length_append, List.length_append, List.length_singleton] at h
        obtain ⟨n, front, line', hn, hfront, htake⟩ :=
          take_unlines lines (cut - (line.length + 1)) (by omega)
        refine ⟨n + 1, front, line', hn, hfront, ?_⟩
        rw [htext, List.take_append, List.take_of_length_le (by simp; omega), List.length_append,
          List.length_singleton, htake, List.take_succ_cons]
        simp [unlines]

/-- What the output of a session is made of, and what replaying it does. -/
structure Written (out : Bytes) (done : List (List DeltaOp)) (lines : List Bytes)
    (last : Bytes) : Prop where
  text : out = unlines lines ++ last
  fine : ∀ line ∈ lines, Fine line
  fineLast : Fine last
  mark : last = [69] → lines ≠ []
  replay : ∃ f : Option (List DeltaOp) → Option (List DeltaOp), ∀ (σ : Type)
    (apply : σ → List DeltaOp → Option σ) (s : σ) batch,
      lines.foldlM (replayLine apply) (s, batch) = (done.foldlM apply s).map (·, f batch)

theorem written_output (batches : List (List DeltaOp)) (cut : Nat)
    (h : ∀ ops ∈ batches, ∀ op ∈ ops, op.Writable) :
    ∃ lines last, Written ((batches.flatMap batchText).take cut) (committed batches cut)
      lines last := by
  have hnil : Fine [] := ⟨by decide, by simp, by simp⟩
  induction batches generalizing cut with
  | nil =>
      refine ⟨[], [], by simp [unlines], by simp, hnil, by simp, id, fun σ apply s batch => rfl⟩
  | cons ops batches ih =>
      have hops := h ops List.mem_cons_self
      rw [List.flatMap_cons, committed]
      by_cases hcut : (batchText ops).length ≤ cut
      · obtain ⟨lines, last, htext, hfine, hlast, hmark, f, hreplay⟩ :=
          ih (cut - (batchText ops).length) fun o ho => h o (List.mem_cons_of_mem ops ho)
        refine ⟨batchLines ops ++ lines, last, ?_, ?_, hlast, ?_, fun _ => f none, ?_⟩
        · rw [List.take_append, List.take_of_length_le hcut, htext, batchText]
          simp [unlines]
        · intro line hline
          obtain hline | hline := List.mem_append.1 hline
          · exact Fine.batchLines hops line hline
          · exact hfine line hline
        · intro _
          simp [batchLines]
        · intro σ apply s batch
          rw [List.foldlM_append, replay_batch hops, if_pos hcut, List.foldlM_cons]
          cases happly : apply s ops with
          | none => rfl
          | some s' =>
              simp only [Option.map_some, Option.bind_eq_bind, Option.bind_some]
              exact hreplay σ apply s' none
      · obtain ⟨n, front, line, hn, hfront, htake⟩ :=
          take_unlines (batchLines ops) cut (by rw [← batchText]; omega)
        have hlt : n < (batchLines ops).length := (List.getElem?_eq_some_iff.1 hn).1
        have hmem : line ∈ batchLines ops := List.mem_of_getElem? hn
        refine ⟨(batchLines ops).take n, front, ?_, ?_, ?_, ?_, openBatch ops n, ?_⟩
        · rw [List.take_append_of_le_length (by omega), batchText, htake]
        · exact fun l hl => Fine.batchLines hops l (List.mem_of_mem_take hl)
        · exact (Fine.batchLines hops line hmem).front hfront
        · intro hE hnone
          have hzero : n = 0 := by
            obtain h0 | hempty := List.take_eq_nil_iff.1 hnone
            · exact h0
            · exact absurd hempty (by simp [batchLines])
          rw [hzero] at hn
          have hline : str "B" = line := Option.some.inj hn
          rw [hE, ← hline] at hfront
          exact absurd hfront (by decide)
        · intro σ apply s batch
          rw [replay_open hops hlt, if_neg hcut]
          rfl

theorem Written.nil : Written [] [] [] [] :=
  ⟨rfl, by simp, ⟨by decide, by simp, by simp⟩, by simp, id, fun _ _ _ _ => rfl⟩

theorem committed_of_output_nil {session : Session} (h : session.output = []) :
    session.committed = [] := by
  obtain ⟨batches, cut⟩ := session
  cases batches with
  | nil => rfl
  | cons ops batches =>
      have hpos : 0 < (batchText ops).length := by
        simp [batchText, batchLines, unlines]
      have hcut : cut = 0 := by
        rw [Session.output, List.flatMap_cons, List.take_eq_nil_iff] at h
        obtain h | h := h
        · exact h
        · rw [List.append_eq_nil_iff] at h
          rw [h.1, List.length_nil] at hpos
          omega
      rw [Session.committed, committed, if_neg (by simp only; omega)]

theorem Written.last_nil {log : Bytes} {done : List (List DeltaOp)} {lines : List Bytes}
    {last : Bytes} (h : Written log done lines last) (hstart : AtLineStart log) : last = [] := by
  rw [AtLineStart, h.text] at hstart
  obtain hnil | ⟨front, hfront⟩ := hstart
  · exact (List.append_eq_nil_iff.1 hnil).2
  · by_contra hne
    have hlast := congrArg List.getLast? hfront
    rw [List.getLast?_append_of_ne_nil _ hne, List.getLast?_concat] at hlast
    have hfeed := h.fineLast.noEnd 10 (List.mem_of_getLast? hlast)
    exact absurd hfeed (by decide)

theorem Written.append {log : Bytes} {done : List (List DeltaOp)} {lines : List Bytes}
    {last : Bytes} (h : Written log done lines last) {session : Session}
    (hsession : session.Writable) (hstart : session.output = [] ∨ AtLineStart log) :
    ∃ lines last, Written (log ++ session.output) (done ++ session.committed) lines last := by
  by_cases hout : session.output = []
  · rw [hout, committed_of_output_nil hout, List.append_nil, List.append_nil]
    exact ⟨lines, last, h⟩
  · have hlast := h.last_nil (hstart.resolve_left hout)
    obtain ⟨lines', last', htext, hfine, hfineLast, hmark, f, hreplay⟩ :=
      written_output session.batches session.cut hsession
    obtain ⟨f₀, hreplay₀⟩ := h.replay
    refine ⟨lines ++ lines', last', ?_, ?_, hfineLast, ?_, f ∘ f₀, ?_⟩
    · rw [h.text, hlast, Session.output, htext]
      simp [unlines]
    · intro line hline
      obtain hline | hline := List.mem_append.1 hline
      · exact h.fine line hline
      · exact hfine line hline
    · intro hE hnil
      exact hmark hE (List.append_eq_nil_iff.1 hnil).2
    · intro σ apply s batch
      rw [List.foldlM_append, hreplay₀, List.foldlM_append]
      cases done.foldlM apply s with
      | none => rfl
      | some s' =>
          simp only [Option.map_some, Option.bind_eq_bind, Option.bind_some]
          exact hreplay σ apply s' (f₀ batch)

/-- A torn last line applies nothing unless it is an `E`. -/
theorem replayLine_torn {σ : Type} {apply : σ → List DeltaOp → Option σ} {line : Bytes}
    (hline : line ≠ [69]) (s : σ) (batch : Option (List DeltaOp)) :
    ∃ batch', replayLine apply (s, batch) line = some (s, batch') := by
  have hE : ¬ line = str "E" := hline
  by_cases hB : line = str "B"
  · exact ⟨some [], by simp only [replayLine, if_pos hB]⟩
  · cases batch with
    | none => exact ⟨none, by simp only [replayLine, if_neg hB, if_neg hE]⟩
    | some ops =>
        cases hop : parseOp line with
        | none => exact ⟨some ops, by simp only [replayLine, if_neg hB, if_neg hE, hop]⟩
        | some op =>
            exact ⟨some (ops ++ [op]), by simp only [replayLine, if_neg hB, if_neg hE, hop]⟩

theorem Written.replayDeltaLog {log : Bytes} {done : List (List DeltaOp)} {lines : List Bytes}
    {last : Bytes} (h : Written log done lines last) (hend : ¬ ∃ front, log = front ++ [10, 69])
    {σ : Type} (apply : σ → List DeltaOp → Option σ) (s : σ) :
    replayDeltaLog apply log s = done.foldlM apply s := by
  have hlast : last ≠ [69] := by
    intro hE
    obtain ⟨front, line, hlines⟩ : ∃ front line, lines = front ++ [line] := by
      rcases List.eq_nil_or_concat lines with hnil | ⟨front, line, hlines⟩
      · exact absurd hnil (h.mark hE)
      · exact ⟨front, line, by rw [hlines, List.concat_eq_append]⟩
    apply hend
    refine ⟨unlines front ++ line, ?_⟩
    rw [h.text, hlines, hE]
    simp [unlines]
  obtain ⟨f, hreplay⟩ := h.replay
  have hlines : ∀ {lines : List Bytes}, (∀ line ∈ lines, Fine line) → ∀ state : ReplayState σ,
      (lines.map (· ++ [10])).foldlM (replayRound apply) state =
        lines.foldlM (replayLine apply) state := by
    intro lines hfine
    induction lines with
    | nil => exact fun state => rfl
    | cons line lines ih =>
        intro state
        rw [List.map_cons, List.foldlM_cons, List.foldlM_cons,
          replayRound_line (hfine line List.mem_cons_self) (Or.inr rfl)]
        exact congrArg _ (funext fun state' =>
          ih (fun l hl => hfine l (List.mem_cons_of_mem line hl)) state')
  unfold Legacy.replayDeltaLog
  rw [h.text, readLines_unlines h.fineLast.fits fun line hline => (h.fine line hline).fits,
    List.foldlM_append, hlines h.fine, hreplay]
  cases done.foldlM apply s with
  | none => rfl
  | some s' =>
      simp only [Option.map_some, Option.bind_eq_bind, Option.bind_some]
      by_cases hnil : last = []
      · rw [if_pos hnil]
        rfl
      · obtain ⟨batch', htorn⟩ : ∃ batch', replayLine apply (s', f none) last = some (s', batch') :=
          replayLine_torn hlast s' (f none)
        have hround : replayRound apply (s', f none) (last ++ []) = _ :=
          replayRound_line h.fineLast (Or.inl rfl) (s', f none)
        rw [List.append_nil] at hround
        rw [if_neg hnil, List.foldlM_cons, hround, htorn]
        rfl

theorem written_log (sessions : List Session) : ∀ {log : Bytes} {done : List (List DeltaOp)}
    {lines : List Bytes} {last : Bytes}, Written log done lines last →
      (∀ session ∈ sessions, session.Writable) → Untorn log sessions →
      (∃ lines last, Written (log ++ logOf sessions)
        (done ++ sessions.flatMap Session.committed) lines last) ∧
        ¬ ∃ front, log ++ logOf sessions = front ++ [10, 69] := by
  induction sessions with
  | nil =>
      intro log done lines last h _ hend
      rw [logOf, List.flatMap_nil, List.flatMap_nil, List.append_nil, List.append_nil]
      exact ⟨⟨lines, last, h⟩, hend⟩
  | cons session sessions ih =>
      intro log done lines last h hsessions huntorn
      obtain ⟨lines', last', h'⟩ := h.append (hsessions session List.mem_cons_self) huntorn.1
      have hrest := ih h' (fun x hx => hsessions x (List.mem_cons_of_mem session hx)) huntorn.2
      rw [logOf, List.flatMap_cons, List.flatMap_cons, ← List.append_assoc, ← List.append_assoc]
      exact hrest

/-- In a run that never writes behind a torn line, exactly the committed batches are
replayed. -/
theorem survives_of_untorn {sessions : List Session} (hops : ∀ session ∈ sessions, session.Writable)
    (huntorn : Untorn [] sessions) : Survives sessions := by
  intro σ apply s
  obtain ⟨⟨lines, last, h⟩, hend⟩ := written_log sessions Written.nil hops huntorn
  rw [List.nil_append] at h hend
  rw [List.nil_append] at h
  exact h.replayDeltaLog hend apply s

/-- Two updates, of which the second line may be torn, and a session that deletes. -/
def crashed (cut : Nat) : List Session :=
  [⟨[[.update 1 (str "1,x"), .update 2 (str "2,y")]], cut⟩, ⟨[[.delete 3]], 8⟩]

theorem crashed_writable (cut : Nat) : ∀ session ∈ crashed cut, session.Writable := by
  intro session hsession ops hops op hop
  simp only [crashed, List.mem_cons, List.not_mem_nil, or_false] at hsession
  obtain rfl | rfl := hsession <;>
    simp only [List.mem_cons, List.not_mem_nil, or_false] at hops <;> subst hops <;>
    simp only [List.mem_cons, List.not_mem_nil, or_false] at hop
  · obtain rfl | rfl := hop <;> exact ⟨by decide, by decide, of_lineChars rfl⟩
  · subst hop
    exact ⟨by decide, by decide⟩

/-- A tear behind the first update: only the delete is replayed. -/
theorem survives_crashed_ten : (∀ session ∈ crashed 10, session.Writable) ∧
    Untorn [] (crashed 10) ∧ Survives (crashed 10) := by
  have huntorn : Untorn [] (crashed 10) := by
    refine ⟨Or.inr (Or.inl rfl), Or.inr (Or.inr ⟨str "B\nU\t1\t1,x", by decide +kernel⟩), ?_⟩
    rintro ⟨front, hfront⟩
    have hlast := congrArg List.getLast? hfront
    have hfeed : ([] ++ (crashed 10)[0].output ++ (crashed 10)[1].output).getLast? = some 10 := by
      decide +kernel
    change ([] ++ (crashed 10)[0].output ++ (crashed 10)[1].output).getLast? = _ at hlast
    rw [hfeed] at hlast
    simp at hlast
  exact ⟨crashed_writable 10, huntorn, survives_of_untorn (crashed_writable 10) huntorn⟩

/-- A tear inside the second update: the first one is replayed with the delete. -/
theorem not_survives_crashed : (∀ session ∈ crashed 13, session.Writable) ∧
    replayDeltaLog (fun done ops => some (done ++ [ops])) (logOf (crashed 13)) [] =
      some [[.update 1 (str "1,x"), .delete 3]] ∧ ¬ Survives (crashed 13) := by
  have hreplay : replayDeltaLog (fun done ops => some (done ++ [ops])) (logOf (crashed 13)) [] =
      some [[.update 1 (str "1,x"), .delete 3]] := by decide +kernel
  refine ⟨crashed_writable 13, hreplay, fun h => ?_⟩
  rw [h] at hreplay
  exact absurd hreplay (by decide +kernel)

end MiniDbms.Legacy
