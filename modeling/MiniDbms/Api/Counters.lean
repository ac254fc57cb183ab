import MiniDbms.Api.Connection
import Mathlib.Data.List.Count

/-!
# Counters

The counters of `stats.c` under threads.  Every counter is an atomic of its own, and what
`conn_run` does to them, what the thread does that accepts clients, and the loads of
`api_stats_snapshot` are single operations that interleave in any order.
-/

namespace MiniDbms.Api

namespace ApiStats

/-! ## The operations -/

def addTotal (st : ApiStats) : ApiStats := { st with totalRequests := st.totalRequests + 1 }

def addInflight (st : ApiStats) : ApiStats :=
  { st with inflightRequests := st.inflightRequests + 1 }

def subInflight (st : ApiStats) : ApiStats :=
  { st with inflightRequests := st.inflightRequests - 1 }

/-- The counter of a response code. -/
def addClass (st : ApiStats) (code : Nat) : ApiStats :=
  if 200 ≤ code ∧ code < 400 then { st with okResponses := st.okResponses + 1 }
  else if code = 503 then { st with status503 := st.status503 + 1 }
  else { st with errorResponses := st.errorResponses + 1 }

theorem noteRequestStarted_eq (st : ApiStats) :
    st.noteRequestStarted = st.addTotal.addInflight := rfl

theorem noteRequestFinished_eq (st : ApiStats) (code : Nat) :
    st.noteRequestFinished code = st.subInflight.addClass code := rfl

theorem noteImmediate503_eq (st : ApiStats) : st.noteImmediate503 = st.addTotal.addClass 503 := rfl

/-- The loads of `api_stats_snapshot`, one after another. -/
def load (st seen : ApiStats) : Nat → ApiStats
  | 0 => { seen with totalRequests := st.totalRequests }
  | 1 => { seen with inflightRequests := st.inflightRequests }
  | 2 => { seen with okResponses := st.okResponses }
  | 3 => { seen with errorResponses := st.errorResponses }
  | 4 => { seen with status503 := st.status503 }
  | 5 => { seen with keepAliveReuse := st.keepAliveReuse }
  | 6 => { seen with cacheHits := st.cacheHits }
  | _ => { seen with cacheMisses := st.cacheMisses }

end ApiStats

/-! ## The threads -/

/-- A thread of the pool between two operations on the counters; `reqCount` is how many
requests its connection had. -/
inductive ConnPhase
  | idle
  /-- in front of a request -/
  | ready (reqCount : Nat)
  | counted (reqCount : Nat)
  | entered (reqCount : Nat)
  | numbering (reqCount : Nat)
  /-- in `route_do`, or sending -/
  | serving (reqCount : Nat)
  /-- in `api_stats_snapshot`, behind so many loads -/
  | reading (reqCount loads : Nat) (seen : ApiStats)
  | leaving (reqCount code : Nat)
  | left (reqCount code : Nat)

/-- The server's counters and threads.  The lists record what happened; no step reads them:
how many requests the connection of a request had before it, the numbers given, the codes of
the responses that were counted, and the metrics that were read. -/
structure Tally where
  stats : ApiStats
  reqSeq : Nat
  workers : List ConnPhase
  /-- `api_stats_note_immediate_503` has counted the client, and not yet the response -/
  rejecting : Bool
  begun : List Nat
  numbers : List Nat
  answered : List Nat
  rejected : Nat
  shown : List ApiStats

inductive Act
  | connect
  | request
  /-- the next operation on the counters, or the next load -/
  | next
  | hit
  | miss
  | metrics
  | respond (code : Nat)
  | hangUp

inductive TallyLabel
  | work (w : Nat) (act : Act)
  | reject

namespace Tally

/-- The server with so many threads in its pool. -/
def start (workers : Nat) : Tally := ⟨{}, 0, List.replicate workers .idle, false, [], [], [], 0, []⟩

def move (t : Tally) (w : Nat) (phase : ConnPhase) : Tally :=
  { t with workers := t.workers.set w phase }

/-- What a thread does in its phase; an act that does not belong there does nothing. -/
def work (t : Tally) (w : Nat) : ConnPhase → Act → Tally
  | .idle, .connect => t.move w (.ready 0)
  | .ready _, .hangUp => t.move w .idle
  | .ready n, .request =>
    { t with stats := t.stats.addTotal, begun := t.begun ++ [n] }.move w (.counted n)
  | .counted n, .next => { t with stats := t.stats.addInflight }.move w (.entered n)
  | .entered n, .next =>
    { t with stats := if 0 < n then t.stats.noteKeepAliveReuse else t.stats }.move w (.numbering n)
  | .numbering n, .next =>
    { t with reqSeq := t.reqSeq + 1, numbers := t.numbers ++ [t.reqSeq + 1] }.move w
      (.serving (n + 1))
  | .serving _, .hit => { t with stats := { t.stats with cacheHits := t.stats.cacheHits + 1 } }
  | .serving _, .miss => { t with stats := { t.stats with cacheMisses := t.stats.cacheMisses + 1 } }
  | .serving n, .metrics => t.move w (.reading n 0 {})
  | .reading n loads seen, .next =>
    if loads < 8 then t.move w (.reading n (loads + 1) (t.stats.load seen loads))
    else { t with shown := t.shown ++ [seen] }.move w (.serving n)
  | .serving n, .respond code => t.move w (.leaving n code)
  | .leaving n code, .next => { t with stats := t.stats.subInflight }.move w (.left n code)
  | .left n code, .next =>
    { t with stats := t.stats.addClass code, answered := t.answered ++ [code] }.move w (.ready n)
  | _, _ => t

/-- One atomic operation of a thread of the pool, or of the thread that accepts clients. -/
def step (t : Tally) : TallyLabel → Tally
  | .work w act =>
    match t.workers[w]? with
    | some phase => t.work w phase act
    | none => t
  | .reject =>
    if t.rejecting then
      { t with stats := t.stats.addClass 503, rejecting := false, rejected := t.rejected + 1 }
    else { t with stats := t.stats.addTotal, rejecting := true }

def run (t : Tally) (ls : List TallyLabel) : Tally := ls.foldl step t

end Tally

/-! ## What is counted -/

namespace ConnPhase

/-- Its request is in flight. -/
def inside : ConnPhase → Bool
  | .entered _ | .numbering _ | .serving _ | .reading _ _ _ | .leaving _ _ => true
  | _ => false

/-- Its request is counted, and neither in flight nor answered. -/
def half : ConnPhase → Bool
  | .counted _ | .left _ _ => true
  | _ => false

/-- Its request has no number yet. -/
def unnumbered : ConnPhase → Bool
  | .counted _ | .entered _ | .numbering _ => true
  | _ => false

/-- Its request is reuse that is not counted yet. -/
def owes : ConnPhase → Bool
  | .counted n | .entered n => decide (0 < n)
  | _ => false

end ConnPhase

def isGood (code : Nat) : Bool := decide (200 ≤ code ∧ code < 400)

def isFull (code : Nat) : Bool := code == 503

def isBad (code : Nat) : Bool := !isGood code && !isFull code

/-- The counters and the record. -/
structure Counts (workers : Nat) (t : Tally) : Prop where
  threads : t.workers.length = workers
  /-- the requests have the numbers 1, 2, 3, … in the order in which they take them -/
  numbers : t.numbers = (List.range t.reqSeq).map (· + 1)
  numbered : t.begun.length = t.numbers.length + t.workers.countP ConnPhase.unnumbered
  total : t.stats.totalRequests = t.begun.length + t.rejected + t.rejecting.toNat
  begun : t.begun.length =
    t.answered.length + t.workers.countP ConnPhase.inside + t.workers.countP ConnPhase.half
  inflight : t.stats.inflightRequests = t.workers.countP ConnPhase.inside
  good : t.stats.okResponses = t.answered.countP isGood
  full : t.stats.status503 = t.answered.countP isFull + t.rejected
  bad : t.stats.errorResponses = t.answered.countP isBad
  reuse : t.stats.keepAliveReuse + t.workers.countP ConnPhase.owes =
    t.begun.countP fun n => decide (0 < n)

theorem counted_once (code : Nat) : (if isGood code then 1 else 0) + (if isBad code then 1 else 0) +
    (if isFull code then 1 else 0) = 1 := by
  unfold isBad
  cases hgood : isGood code with
  | true =>
      have hne : isFull code = false := by
        have := of_decide_eq_true hgood
        exact beq_false_of_ne (by omega)
      simp [hne]
  | false => cases isFull code <;> rfl

theorem addClass_eq (st : ApiStats) (code : Nat) : st.addClass code =
    { st with
      okResponses := st.okResponses + if isGood code then 1 else 0
      status503 := st.status503 + if isFull code then 1 else 0
      errorResponses := st.errorResponses + if isBad code then 1 else 0 } := by
  unfold ApiStats.addClass isBad isFull isGood
  split
  · rename_i hgood
    have hne : code ≠ 503 := by omega
    simp [hgood, hne]
  · rename_i hgood
    split
    · rename_i hfull
      simp [hfull]
    · rename_i hfull
      simp [hgood, hfull]

variable {t : Tally} {w n : Nat} {phase phase' : ConnPhase}

theorem countP_move (hphase : t.workers[w]? = some phase) (phase' : ConnPhase) (p : ConnPhase → Bool) :
    (t.workers.set w phase').countP p + (if p phase then 1 else 0) =
      t.workers.countP p + if p phase' then 1 else 0 := by
  obtain ⟨hlt, hget⟩ := List.getElem?_eq_some_iff.1 hphase
  have hle := List.boole_getElem_le_countP (p := p) hlt
  rw [List.countP_set hlt]
  rw [hget] at hle ⊢
  omega

theorem moved (hphase : t.workers[w]? = some phase) (phase' : ConnPhase) :
    ((t.workers.set w phase').countP ConnPhase.unnumbered +
        (if phase.unnumbered then 1 else 0) =
      t.workers.countP ConnPhase.unnumbered + if phase'.unnumbered then 1 else 0) ∧
    ((t.workers.set w phase').countP ConnPhase.inside + (if phase.inside then 1 else 0) =
      t.workers.countP ConnPhase.inside + if phase'.inside then 1 else 0) ∧
    ((t.workers.set w phase').countP ConnPhase.half + (if phase.half then 1 else 0) =
      t.workers.countP ConnPhase.half + if phase'.half then 1 else 0) ∧
    ((t.workers.set w phase').countP ConnPhase.owes + (if phase.owes then 1 else 0) =
      t.workers.countP ConnPhase.owes + if phase'.owes then 1 else 0) :=
  ⟨countP_move hphase phase' _, countP_move hphase phase' _, countP_move hphase phase' _,
    countP_move hphase phase' _⟩

theorem countP_concat (l : List Nat) (a : Nat) (p : Nat → Bool) :
    (l ++ [a]).countP p = l.countP p + if p a then 1 else 0 := by
  rw [List.countP_append, List.countP_singleton]

namespace Counts

theorem move (h : Counts n t) (hphase : t.workers[w]? = some phase)
    (hinside : phase'.inside = phase.inside) (hhalf : phase'.half = phase.half)
    (hunnumbered : phase'.unnumbered = phase.unnumbered) (howes : phase'.owes = phase.owes) :
    Counts n (t.move w phase') := by
  have hmoved := moved hphase phase'
  rw [hinside, hhalf, hunnumbered, howes] at hmoved
  have hnumbered := h.numbered
  have hbegun := h.begun
  have hinflight := h.inflight
  have hreuse := h.reuse
  refine ⟨List.length_set.trans h.threads, h.numbers, ?_, h.total, ?_, ?_, h.good, h.full, h.bad,
    ?_⟩
  · dsimp only [Tally.move]
    omega
  · dsimp only [Tally.move]
    omega
  · dsimp only [Tally.move]
    omega
  · dsimp only [Tally.move]
    omega

theorem request (h : Counts n t) {k : Nat} (hphase : t.workers[w]? = some (.ready k)) :
    Counts n (t.work w (.ready k) .request) := by
  have hmoved := moved hphase (.counted k)
  simp only [ConnPhase.unnumbered, ConnPhase.inside, ConnPhase.half, ConnPhase.owes,
    decide_eq_true_eq, if_true, Bool.false_eq_true, if_false, Nat.add_zero]
    at hmoved
  have htotal := h.total
  have hnumbered := h.numbered
  have hbegun := h.begun
  have hreuse := h.reuse
  refine ⟨List.length_set.trans h.threads, h.numbers, ?_, ?_, ?_, ?_, h.good, h.full, h.bad, ?_⟩
  · simp only [Tally.work, Tally.move, List.length_append, List.length_singleton]
    omega
  · simp only [Tally.work, Tally.move, ApiStats.addTotal, List.length_append,
      List.length_singleton]
    omega
  · simp only [Tally.work, Tally.move, List.length_append, List.length_singleton]
    omega
  · exact h.inflight.trans hmoved.2.1.symm
  · simp only [Tally.work, Tally.move, ApiStats.addTotal, countP_concat, decide_eq_true_eq]
    omega

theorem enter (h : Counts n t) {k : Nat} (hphase : t.workers[w]? = some (.counted k)) :
    Counts n (t.work w (.counted k) .next) := by
  have hmoved := moved hphase (.entered k)
  simp only [ConnPhase.unnumbered, ConnPhase.inside, ConnPhase.half, ConnPhase.owes,
    decide_eq_true_eq, if_true, Bool.false_eq_true, if_false, Nat.add_zero]
    at hmoved
  have hnumbered := h.numbered
  have hbegun := h.begun
  have hinflight := h.inflight
  have hreuse := h.reuse
  refine ⟨List.length_set.trans h.threads, h.numbers, ?_, h.total, ?_, ?_, h.good, h.full, h.bad,
    ?_⟩
  · simp only [Tally.work, Tally.move]
    omega
  · simp only [Tally.work, Tally.move]
    omega
  · simp only [Tally.work, Tally.move, ApiStats.addInflight]
    omega
  · simp only [Tally.work, Tally.move, ApiStats.addInflight]
    omega

theorem reused (h : Counts n t) {k : Nat} (hphase : t.workers[w]? = some (.entered k)) :
    Counts n (t.work w (.entered k) .next) := by
  have hmoved := moved hphase (.numbering k)
  simp only [ConnPhase.unnumbered, ConnPhase.inside, ConnPhase.half, ConnPhase.owes,
    decide_eq_true_eq, if_true, Bool.false_eq_true, if_false, Nat.add_zero]
    at hmoved
  have hnumbered := h.numbered
  have hbegun := h.begun
  have hinflight := h.inflight
  have hreuse := h.reuse
  by_cases hk : 0 < k
  · rw [if_pos hk] at hmoved
    simp only [Tally.work, Tally.move, if_pos hk]
    refine ⟨List.length_set.trans h.threads, h.numbers, ?_, h.total, ?_, ?_, h.good, h.full,
      h.bad, ?_⟩
    · dsimp only
      omega
    · dsimp only
      omega
    · simp only [ApiStats.noteKeepAliveReuse]
      omega
    · simp only [ApiStats.noteKeepAliveReuse]
      omega
  · rw [if_neg hk] at hmoved
    simp only [Tally.work, Tally.move, if_neg hk]
    refine ⟨List.length_set.trans h.threads, h.numbers, ?_, h.total, ?_, ?_, h.good, h.full,
      h.bad, ?_⟩
    · dsimp only
      omega
    · dsimp only
      omega
    · dsimp only
      omega
    · dsimp only
      omega

theorem number (h : Counts n t) {k : Nat} (hphase : t.workers[w]? = some (.numbering k)) :
    Counts n (t.work w (.numbering k) .next) := by
  have hmoved := moved hphase (.serving (k + 1))
  simp only [ConnPhase.unnumbered, ConnPhase.inside, ConnPhase.half, ConnPhase.owes,
    if_true, Bool.false_eq_true, if_false, Nat.add_zero]
    at hmoved
  have hnumbered := h.numbered
  have hbegun := h.begun
  have hinflight := h.inflight
  have hreuse := h.reuse
  refine ⟨List.length_set.trans h.threads, ?_, ?_, h.total, ?_, ?_, h.good, h.full, h.bad, ?_⟩
  · simp only [Tally.work, Tally.move]
    rw [h.numbers, List.range_succ, List.map_append, List.map_singleton]
  · simp only [Tally.work, Tally.move, List.length_append, List.length_singleton]
    omega
  · simp only [Tally.work, Tally.move]
    omega
  · simp only [Tally.work, Tally.move]
    omega
  · simp only [Tally.work, Tally.move]
    omega

theorem leave (h : Counts n t) {k code : Nat} (hphase : t.workers[w]? = some (.leaving k code)) :
    Counts n (t.work w (.leaving k code) .next) := by
  have hmoved := moved hphase (.left k code)
  simp only [ConnPhase.unnumbered, ConnPhase.inside, ConnPhase.half, ConnPhase.owes,
    if_true, Bool.false_eq_true, if_false, Nat.add_zero]
    at hmoved
  have hnumbered := h.numbered
  have hbegun := h.begun
  have hinflight := h.inflight
  have hreuse := h.reuse
  refine ⟨List.length_set.trans h.threads, h.numbers, ?_, h.total, ?_, ?_, h.good, h.full, h.bad,
    ?_⟩
  · simp only [Tally.work, Tally.move]
    omega
  · simp only [Tally.work, Tally.move]
    omega
  · simp only [Tally.work, Tally.move, ApiStats.subInflight]
    omega
  · simp only [Tally.work, Tally.move, ApiStats.subInflight]
    omega

theorem finish (h : Counts n t) {k code : Nat} (hphase : t.workers[w]? = some (.left k code)) :
    Counts n (t.work w (.left k code) .next) := by
  have hmoved := moved hphase (.ready k)
  simp only [ConnPhase.unnumbered, ConnPhase.inside, ConnPhase.half, ConnPhase.owes,
    if_true, Bool.false_eq_true, if_false, Nat.add_zero]
    at hmoved
  have hnumbered := h.numbered
  have hbegun := h.begun
  have hinflight := h.inflight
  have hreuse := h.reuse
  have hgood := h.good
  have hfull := h.full
  have hbad := h.bad
  simp only [Tally.work, Tally.move, addClass_eq]
  refine ⟨List.length_set.trans h.threads, h.numbers, ?_, h.total, ?_, ?_, ?_, ?_, ?_, ?_⟩
  · dsimp only
    omega
  · simp only [List.length_append, List.length_singleton]
    omega
  · dsimp only
    omega
  · simp only [countP_concat, hgood]
  · simp only [countP_concat, hfull]
    omega
  · simp only [countP_concat, hbad]
  · dsimp only
    omega

theorem reject (h : Counts n t) : Counts n (t.step .reject) := by
  have htotal := h.total
  have hfull := h.full
  unfold Tally.step
  cases hrejecting : t.rejecting with
  | true =>
      rw [hrejecting] at htotal
      refine { h with total := ?_, full := ?_ }
      · exact htotal.trans (Nat.add_assoc _ _ _)
      · dsimp only [ApiStats.addClass]
        simp
        omega
  | false =>
      rw [hrejecting] at htotal
      refine { h with total := ?_ }
      dsimp only [ApiStats.addTotal]
      simpa using htotal

theorem work (h : Counts n t) (hphase : t.workers[w]? = some phase) (act : Act) :
    Counts n (t.work w phase act) := by
  unfold Tally.work
  split
  · exact h.move hphase rfl rfl rfl rfl
  · exact h.move hphase rfl rfl rfl rfl
  · exact h.request hphase
  · exact h.enter hphase
  · exact h.reused hphase
  · exact h.number hphase
  · exact { h with }
  · exact { h with }
  · exact h.move hphase rfl rfl rfl rfl
  · split
    · exact h.move hphase rfl rfl rfl rfl
    · rename_i k _ seen _
      have hmove : Counts n (t.move w (.serving k)) := h.move hphase rfl rfl rfl rfl
      exact { hmove with }
  · exact h.move hphase rfl rfl rfl rfl
  · exact h.leave hphase
  · exact h.finish hphase
  · exact h

theorem step (h : Counts n t) (l : TallyLabel) : Counts n (t.step l) := by
  cases l with
  | work w act =>
      unfold Tally.step
      dsimp only
      split
      · rename_i phase hphase
        exact h.work hphase act
      · exact h
  | reject => exact h.reject

theorem length_answered (l : List Nat) :
    l.length = l.countP isGood + l.countP isBad + l.countP isFull := by
  induction l with
  | nil => rfl
  | cons code l ih =>
      have hone := counted_once code
      simp only [List.length_cons, List.countP_cons]
      omega

/-- At every moment the counters add up, but for the threads that are half-way through. -/
theorem sums (h : Counts n t) : t.stats.totalRequests =
    t.stats.okResponses + t.stats.errorResponses + t.stats.status503 +
      t.stats.inflightRequests + t.workers.countP ConnPhase.half + t.rejecting.toNat := by
  have hlen := length_answered t.answered
  have htotal := h.total
  have hbegun := h.begun
  rw [h.inflight, h.good, h.full, h.bad]
  omega

/-- A thread that reads the counters is not half-way through. -/
theorem half_lt (h : Counts n t) (hphase : t.workers[w]? = some phase)
    (hnot : phase.half = false) : t.workers.countP ConnPhase.half + t.rejecting.toNat ≤ n := by
  have hlt : t.workers.countP ConnPhase.half < t.workers.length := by
    refine Nat.lt_of_le_of_ne List.countP_le_length fun heq => ?_
    have hall := List.countP_eq_length.1 heq phase (List.mem_of_getElem? hphase)
    rw [hnot] at hall
    cases hall
  have hthreads := h.threads
  have := Bool.toNat_le t.rejecting
  omega

end Counts

/-! ## What the metrics say -/

/-- After so many loads: what was counted at the first is covered by the counters that were
loaded since and those that are left, but for one request of each thread. -/
def Covers (workers : Nat) (st seen : ApiStats) (loads : Nat) : Prop :=
  (loads = 1 → seen.totalRequests ≤ st.totalRequests) ∧
    (2 ≤ loads → seen.totalRequests ≤ seen.inflightRequests +
      (if 3 ≤ loads then seen.okResponses else st.okResponses) +
      (if 4 ≤ loads then seen.errorResponses else st.errorResponses) +
      (if 5 ≤ loads then seen.status503 else st.status503) + workers)

/-- The counters that never go down. -/
structure Grows (st st' : ApiStats) : Prop where
  total : st.totalRequests ≤ st'.totalRequests
  good : st.okResponses ≤ st'.okResponses
  bad : st.errorResponses ≤ st'.errorResponses
  full : st.status503 ≤ st'.status503

theorem Grows.refl (st : ApiStats) : Grows st st := ⟨le_rfl, le_rfl, le_rfl, le_rfl⟩

theorem grows_addClass (st : ApiStats) (code : Nat) : Grows st (st.addClass code) := by
  rw [addClass_eq]
  exact ⟨le_rfl, Nat.le_add_right _ _, Nat.le_add_right _ _, Nat.le_add_right _ _⟩

theorem Covers.grows {st st' seen : ApiStats} {loads : Nat} (h : Covers n st seen loads)
    (hgrows : Grows st st') : Covers n st' seen loads := by
  obtain ⟨htotal, hgood, hbad, hfull⟩ := hgrows
  refine ⟨fun hone => (h.1 hone).trans htotal, fun htwo => (h.2 htwo).trans ?_⟩
  split <;> split <;> split <;> omega

theorem Covers.load {st seen : ApiStats} {loads : Nat} (h : Covers n st seen loads)
    (hsums : st.totalRequests ≤ st.inflightRequests + st.okResponses + st.errorResponses +
      st.status503 + n) : Covers n st (st.load seen loads) (loads + 1) := by
  obtain ⟨hone, htwo⟩ := h
  rcases loads with _ | _ | _ | _ | _ | _ | _ | loads
  · exact ⟨fun _ => le_rfl, fun h => absurd h (by decide)⟩
  · exact ⟨fun h => absurd h (by decide), fun _ => (hone rfl).trans hsums⟩
  · exact ⟨fun h => absurd h (by decide), fun _ => htwo (by decide)⟩
  · exact ⟨fun h => absurd h (by decide), fun _ => htwo (by decide)⟩
  · exact ⟨fun h => absurd h (by decide), fun _ => htwo (by decide)⟩
  · exact ⟨fun h => absurd h (by decide), fun _ => htwo (by decide)⟩
  · exact ⟨fun h => absurd h (by decide), fun _ => htwo (by decide)⟩
  · exact ⟨fun h => absurd h (by omega), fun _ => htwo (by omega)⟩

/-- The metrics that were read, and those that are being read. -/
structure Shows (workers : Nat) (t : Tally) : Prop where
  reading : ∀ (w k loads : Nat) (seen : ApiStats), t.workers[w]? = some (ConnPhase.reading k loads seen) →
    Covers workers t.stats seen loads
  shown : ∀ seen ∈ t.shown, seen.totalRequests ≤ seen.inflightRequests + seen.okResponses +
    seen.errorResponses + seen.status503 + workers

namespace Shows

theorem start (workers : Nat) : Shows workers (Tally.start workers) where
  reading := by
    intro w k loads seen hphase
    have hidle := List.mem_replicate.1 (List.mem_of_getElem? hphase)
    cases hidle.2
  shown := fun _ hseen => absurd hseen List.not_mem_nil

theorem go {t' : Tally} (h : Shows n t) (hphase : t.workers[w]? = some phase)
    (hgrows : Grows t.stats t'.stats) (hworkers : t'.workers = t.workers.set w phase')
    (hshown : t'.shown = t.shown)
    (hnew : ∀ k loads seen, phase' = .reading k loads seen → Covers n t'.stats seen loads) :
    Shows n t' where
  reading := by
    intro v k loads seen hv
    rw [hworkers] at hv
    by_cases hvw : w = v
    · subst hvw
      rw [List.getElem?_set_self (List.getElem?_eq_some_iff.1 hphase).1] at hv
      exact hnew k loads seen (Option.some.inj hv)
    · rw [List.getElem?_set_ne hvw] at hv
      exact (h.reading v k loads seen hv).grows hgrows
  shown := by
    rw [hshown]
    exact h.shown

theorem pass {t' : Tally} (h : Shows n t) (hphase : t.workers[w]? = some phase)
    (hgrows : Grows t.stats t'.stats) (hworkers : t'.workers = t.workers.set w phase')
    (hshown : t'.shown = t.shown) (hnot : ∀ k loads seen, phase' ≠ .reading k loads seen) :
    Shows n t' :=
  h.go hphase hgrows hworkers hshown fun k loads seen heq => absurd heq (hnot k loads seen)

theorem work (h : Shows n t) (hcounts : Counts n t) (hphase : t.workers[w]? = some phase)
    (act : Act) : Shows n (t.work w phase act) := by
  have hstay : ∀ st, Grows t.stats st → Shows n { t with stats := st } := fun st hgrows =>
    ⟨fun v k loads seen hv => (h.reading v k loads seen hv).grows hgrows, h.shown⟩
  unfold Tally.work
  split
  · exact h.pass hphase (Grows.refl _) rfl rfl (by simp)
  · exact h.pass hphase (Grows.refl _) rfl rfl (by simp)
  · exact h.pass hphase ⟨Nat.le_succ _, le_rfl, le_rfl, le_rfl⟩ rfl rfl (by simp)
  · exact h.pass hphase ⟨le_rfl, le_rfl, le_rfl, le_rfl⟩ rfl rfl (by simp)
  · refine h.pass hphase ?_ rfl rfl (by simp)
    dsimp only [Tally.move]
    split
    · exact ⟨le_rfl, le_rfl, le_rfl, le_rfl⟩
    · exact Grows.refl _
  · exact h.pass hphase (Grows.refl _) rfl rfl (by simp)
  · exact hstay _ ⟨le_rfl, le_rfl, le_rfl, le_rfl⟩
  · exact hstay _ ⟨le_rfl, le_rfl, le_rfl, le_rfl⟩
  · refine h.go hphase (Grows.refl _) rfl rfl fun k loads seen heq => ?_
    cases heq
    exact ⟨fun hone => absurd hone (by decide), fun htwo => absurd htwo (by decide)⟩
  · rename_i k loads seen
    split
    · refine h.go hphase (Grows.refl _) rfl rfl fun k' loads' seen' heq => ?_
      cases heq
      have hsums := hcounts.sums
      have hhalf := hcounts.half_lt hphase rfl
      exact (h.reading w k loads seen hphase).load (by omega)
    · rename_i hloads
      have hcovers := (h.reading w k loads seen hphase).2 (by omega)
      rw [if_pos (by omega), if_pos (by omega), if_pos (by omega)] at hcovers
      have hmove : Shows n (t.move w (.serving k)) :=
        h.pass hphase (Grows.refl _) rfl rfl (by simp)
      refine ⟨hmove.reading, fun seen' hseen => ?_⟩
      rcases List.mem_append.1 hseen with hseen | hseen
      · exact h.shown seen' hseen
      · rw [List.mem_singleton.1 hseen]
        exact hcovers
  · exact h.pass hphase (Grows.refl _) rfl rfl (by simp)
  · exact h.pass hphase ⟨le_rfl, le_rfl, le_rfl, le_rfl⟩ rfl rfl (by simp)
  · exact h.pass hphase (grows_addClass _ _) rfl rfl (by simp)
  · exact h

theorem step (h : Shows n t) (hcounts : Counts n t) (l : TallyLabel) : Shows n (t.step l) := by
  cases l with
  | work w act =>
      unfold Tally.step
      dsimp only
      split
      · rename_i phase hphase
        exact h.work hcounts hphase act
      · exact h
  | reject =>
      have hstay : ∀ t' : Tally, Grows t.stats t'.stats → t'.workers = t.workers →
          t'.shown = t.shown → Shows n t' := by
        intro t' hgrows hworkers hshown
        refine ⟨fun v k loads seen hv => ?_, by rw [hshown]; exact h.shown⟩
        rw [hworkers] at hv
        exact (h.reading v k loads seen hv).grows hgrows
      unfold Tally.step
      dsimp only
      split
      · exact hstay _ (grows_addClass t.stats 503) rfl rfl
      · exact hstay _ ⟨Nat.le_succ _, le_rfl, le_rfl, le_rfl⟩ rfl rfl

end Shows

/-! ## Runs -/

theorem counts_start (workers : Nat) : Counts workers (Tally.start workers) where
  threads := List.length_replicate
  numbers := rfl
  numbered := by simp [Tally.start, List.countP_replicate, ConnPhase.unnumbered]
  total := rfl
  begun := by simp [Tally.start, List.countP_replicate, ConnPhase.inside, ConnPhase.half]
  inflight := by simp [Tally.start, List.countP_replicate, ConnPhase.inside]
  good := rfl
  full := rfl
  bad := rfl
  reuse := by simp [Tally.start, List.countP_replicate, ConnPhase.owes]

end MiniDbms.Api
