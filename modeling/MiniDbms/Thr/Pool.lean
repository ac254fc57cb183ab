import MiniDbms.Lib.LinkedQueue
import MiniDbms.Lib.Lists
import MiniDbms.Lib.Run

/-!
# The thread pool

`pool.c`.  Producers append jobs to a linked queue, workers take them out in one
critical section and report them done in another, and `pool_stop` lets the workers
leave when the queue is empty.  Each critical section is one step; the condition
variable only decides when a step is tried, and a worker that has nothing to do
stays where it is.
-/

namespace MiniDbms

/-- A job that was released is used again. -/
inductive PoolFault
  | freedJob
deriving DecidableEq

/-- A worker between two critical sections. -/
inductive Worker
  | idle
  /-- runs the job at this address -/
  | running (job : Nat)
  | exited
deriving DecidableEq

def Worker.job? : Worker → Option Nat
  | .running job => some job
  | _ => none

/-- `Pool` without its threads; `F` and `A` are the functions and arguments of jobs. -/
structure Pool (F A : Type) where
  queue : LinkedQueue (F × A)
  qmax : Int
  stop : Bool
  queued : Int
  active : Int
  done : Nat

namespace Pool

variable {F A : Type}

/-- `pool_add`: the pool and the return code. -/
def poolAdd (pool : Pool F A) (fn : Option F) (arg : A) : Except PoolFault (Pool F A × Int) :=
  match fn with
  | none => .ok (pool, -2)
  | some fn =>
    if pool.stop then .ok (pool, -2)
    else if pool.qmax ≤ pool.queued then .ok (pool, -1)
    else
      match pool.queue.push (fn, arg) with
      | none => .error .freedJob
      | some queue => .ok ({ pool with queue := queue, queued := pool.queued + 1 }, 0)

def poolStop (pool : Pool F A) : Pool F A := { pool with stop := true }

/-- The section of `wrk_run` up to the call of the job: what the worker does next. -/
def take (pool : Pool F A) : Except PoolFault (Pool F A × Worker) :=
  if pool.queue.head = none then
    if pool.stop then .ok (pool, .exited) else .ok (pool, .idle)
  else
    match pool.queue.pop with
    | none => .error .freedJob
    | some (job, _, queue) =>
      .ok ({ pool with queue := queue, queued := pool.queued - 1, active := pool.active + 1 },
        .running job)

/-- The section of `wrk_run` behind the call of the job, which is released. -/
def finish (pool : Pool F A) (job : Nat) : Pool F A :=
  { pool with
    queue := pool.queue.free job
    active := pool.active - 1
    done := pool.done + 1 }

/-- The function and argument of a job. -/
def jobAt (pool : Pool F A) (job : Nat) : Except PoolFault (F × A) :=
  match pool.queue.heap.get job with
  | none => .error .freedJob
  | some cell => .ok cell.val

end Pool

/-- A pool with its workers.  The lists record what happened; no step reads them. -/
structure PoolRun (F A : Type) where
  pool : Pool F A
  workers : List Worker
  /-- the jobs for which `pool_add` returned 0, in order -/
  accepted : List (F × A)
  started : List (F × A)
  finished : List (F × A)

namespace PoolRun

variable {F A : Type}

/-- `pool_new`, with `none` for NULL; creating threads succeeds. -/
def poolNew (nthr qmax : Int) : Option (PoolRun F A) :=
  if nthr ≤ 0 ∨ qmax ≤ 0 then none
  else some
    { pool := ⟨.empty, qmax, false, 0, 0, 0⟩
      workers := List.replicate nthr.toNat .idle
      accepted := []
      started := []
      finished := [] }

inductive Label (F A : Type)
  | add (fn : Option F) (arg : A)
  /-- worker `w` enters the section that looks for a job -/
  | take (w : Nat)
  /-- worker `w` returns from its job -/
  | finish (w : Nat)
  | stop

def step (s : PoolRun F A) : Label F A → Except PoolFault (PoolRun F A)
  | .add fn arg => do
    let (pool, rc) ← s.pool.poolAdd fn arg
    return { s with
      pool := pool
      accepted := if rc = 0 then s.accepted ++ fn.toList.map (·, arg) else s.accepted }
  | .take w =>
    match s.workers[w]? with
    | some .idle => do
      let (pool, worker) ← s.pool.take
      let started ← worker.job?.toList.mapM pool.jobAt
      return { s with
        pool := pool
        workers := s.workers.set w worker
        started := s.started ++ started }
    | _ => .ok s
  | .finish w =>
    match s.workers[w]? with
    | some (.running job) => do
      let fnArg ← s.pool.jobAt job
      return { s with
        pool := s.pool.finish job
        workers := s.workers.set w .idle
        finished := s.finished ++ [fnArg] }
    | _ => .ok s
  | .stop => .ok { s with pool := s.pool.poolStop }

/-- The last loop of `pool_del`: the jobs it throws away. -/
def discard : Nat → LinkedQueue (F × A) → Except PoolFault (List (F × A))
  | 0, _ => .ok []
  | fuel + 1, queue =>
    match queue.head with
    | none => .ok []
    | some _ =>
      match queue.pop with
      | none => .error .freedJob
      | some (job, fnArg, queue) => do
        let rest ← discard fuel (queue.free job)
        return fnArg :: rest

/-- `pool_del` behind `pool_stop`: it waits for all workers, and then empties the queue. -/
def poolDel (s : PoolRun F A) : Option (Except PoolFault (List (F × A))) :=
  if s.workers.all (· == .exited) then some (discard s.pool.queue.heap.next s.pool.queue)
  else none

/-! ## What holds in every state -/

/-- The jobs in the queue and the jobs of the workers, with their addresses. -/
structure Accounted (s : PoolRun F A) (queue running : List (Nat × F × A)) : Prop where
  holds : s.pool.queue.Holds queue running
  workers : (running.map Prod.fst).Perm (s.workers.filterMap Worker.job?)
  queued : s.pool.queued = queue.length
  queued_le : s.pool.queued ≤ s.pool.qmax
  active : s.pool.active = running.length
  done : s.pool.done = s.finished.length
  /-- jobs are started in the order they were accepted -/
  fifo : s.started ++ queue.map Prod.snd = s.accepted
  once : s.started.Perm (running.map Prod.snd ++ s.finished)
  exited : .exited ∈ s.workers → s.pool.stop = true ∧ queue = []
  nonempty : s.workers ≠ []

variable {s s' : PoolRun F A} {queue running : List (Nat × F × A)}

theorem poolNew_accounted {nthr qmax : Int} (h : poolNew nthr qmax = some s) :
    Accounted s [] [] := by
  unfold poolNew at h
  split at h
  · cases h
  · rename_i hpos
    cases h
    have hq : (0 : Int) ≤ qmax := by omega
    refine ⟨LinkedQueue.holds_empty, ?_, rfl, hq, rfl, rfl, rfl, List.Perm.refl _, ?_, ?_⟩
    · rw [List.map_nil, List.filterMap_eq_nil_iff.2]
      intro w hw
      rw [List.eq_of_mem_replicate hw]
      rfl
    · intro hmem
      cases List.eq_of_mem_replicate hmem
    · intro hnil
      have hlen := congrArg List.length hnil
      rw [List.length_replicate, List.length_nil] at hlen
      omega

/-! ### One step -/

theorem Accounted.add (h : Accounted s queue running) (fn : Option F) (arg : A) :
    ∃ s' queue', s.step (.add fn arg) = .ok s' ∧ Accounted s' queue' running := by
  unfold step Pool.poolAdd
  cases fn with
  | none => exact ⟨_, queue, rfl, h.holds, h.workers, h.queued, h.queued_le, h.active, h.done,
      h.fifo, h.once, h.exited, h.nonempty⟩
  | some fn =>
      dsimp only
      by_cases hstop : s.pool.stop = true
      · rw [if_pos hstop]
        exact ⟨_, queue, rfl, h.holds, h.workers, h.queued, h.queued_le, h.active, h.done, h.fifo,
          h.once, h.exited, h.nonempty⟩
      rw [if_neg hstop]
      by_cases hfull : s.pool.qmax ≤ s.pool.queued
      · rw [if_pos hfull]
        exact ⟨_, queue, rfl, h.holds, h.workers, h.queued, h.queued_le, h.active, h.done, h.fifo,
          h.once, h.exited, h.nonempty⟩
      rw [if_neg hfull]
      obtain ⟨q', hpush, hholds⟩ := h.holds.push (fn, arg)
      rw [hpush]
      refine ⟨_, _, rfl, hholds, h.workers, ?_, ?_, h.active, h.done, ?_, h.once, ?_, h.nonempty⟩
      · dsimp only
        rw [h.queued, List.length_append, List.length_singleton]
        omega
      · dsimp only
        omega
      · dsimp only
        rw [if_pos rfl, ← h.fifo, List.map_append, List.append_assoc]
        rfl
      · exact fun hmem => absurd (h.exited hmem).1 hstop

theorem jobs_split (W W' : List Worker) (w : Worker) :
    ((W ++ w :: W').filterMap Worker.job?).Perm
      (w.job?.toList ++ (W ++ W').filterMap Worker.job?) := by
  have hone : (w :: W').filterMap Worker.job? = w.job?.toList ++ W'.filterMap Worker.job? := by
    rw [List.filterMap_cons]
    cases w.job? with
    | none => rfl
    | some a => rfl
  rw [List.filterMap_append, List.filterMap_append, hone]
  exact List.perm_append_comm_assoc _ _ _

/-- An idle worker stays idle or leaves; the pool is as it was. -/
theorem Accounted.rest (h : Accounted s queue running) {A' B' : List Worker} {x : Worker}
    (hworkers : s.workers = A' ++ .idle :: B') (hx : x = .idle ∨ x = .exited)
    (hout : x = .exited → s.pool.stop = true ∧ queue = []) :
    Accounted { s with workers := A' ++ x :: B', started := s.started ++ [] } queue running := by
  have hjob : x.job? = none := by
    rcases hx with rfl | rfl
    · rfl
    · rfl
  have hidle : (s.workers.filterMap Worker.job?).Perm ((A' ++ B').filterMap Worker.job?) := by
    rw [hworkers]
    exact jobs_split A' B' .idle
  refine ⟨h.holds, ?_, h.queued, h.queued_le, h.active, h.done, ?_, ?_, ?_, by simp⟩
  · refine h.workers.trans (hidle.trans ?_)
    have hnew := jobs_split A' B' x
    rw [hjob] at hnew
    exact hnew.symm
  · dsimp only
    rw [List.append_nil]
    exact h.fifo
  · dsimp only
    rw [List.append_nil]
    exact h.once
  · intro hmem
    by_cases hxe : x = .exited
    · exact hout hxe
    · refine h.exited ?_
      rw [hworkers]
      rcases List.mem_append.1 hmem with hmem | hmem
      · exact List.mem_append_left _ hmem
      · rcases List.mem_cons.1 hmem with heq | hmem
        · exact absurd heq.symm hxe
        · exact List.mem_append_right _ (List.mem_cons_of_mem _ hmem)

theorem Accounted.take (h : Accounted s queue running) (w : Nat) :
    ∃ s' queue' running', s.step (.take w) = .ok s' ∧ Accounted s' queue' running' := by
  unfold step
  dsimp only
  cases hw : s.workers[w]? with
  | none => exact ⟨s, queue, running, rfl, h⟩
  | some x =>
      cases x with
      | running job => exact ⟨s, queue, running, rfl, h⟩
      | exited => exact ⟨s, queue, running, rfl, h⟩
      | idle =>
          obtain ⟨A', B', hworkers, -, hset⟩ := split_at hw
          simp only [hset]
          unfold Pool.take
          cases queue with
          | nil =>
              have hhead := h.holds.head_none.2 rfl
              rw [if_pos hhead]
              by_cases hstop : s.pool.stop = true
              · rw [if_pos hstop]
                exact ⟨_, [], running, rfl, h.rest hworkers (Or.inr rfl) fun _ => ⟨hstop, rfl⟩⟩
              · rw [if_neg hstop]
                exact ⟨_, [], running, rfl, h.rest hworkers (Or.inl rfl) fun he => nomatch he⟩
          | cons c cells =>
              obtain ⟨job, fnArg⟩ := c
              have hhead : s.pool.queue.head ≠ none := fun hnone =>
                absurd (h.holds.head_none.1 hnone) (by simp)
              obtain ⟨q', hpop, hholds, hheap⟩ := h.holds.pop
              obtain ⟨next, hget⟩ := hholds.live (job, fnArg) List.mem_cons_self
              rw [if_neg hhead, hpop]
              have hjob : Pool.jobAt { s.pool with
                  queue := q'
                  queued := s.pool.queued - 1
                  active := s.pool.active + 1 } job = .ok fnArg := by
                unfold Pool.jobAt
                dsimp only at hget ⊢
                rw [hget]
              simp only [bind, Except.bind, Worker.job?, Option.toList_some, List.mapM_cons, hjob,
                List.mapM_nil, pure, Except.pure]
              refine ⟨_, cells, (job, fnArg) :: running, rfl, hholds, ?_, ?_, ?_, ?_, h.done, ?_, ?_,
                ?_, by simp⟩
              · have hold := h.workers
                rw [hworkers] at hold
                exact ((hold.trans (jobs_split A' B' .idle)).cons job).trans
                  (jobs_split A' B' (.running job)).symm
              · have hq := h.queued
                rw [List.length_cons] at hq
                dsimp only
                omega
              · have hq := h.queued_le
                dsimp only
                omega
              · dsimp only
                rw [h.active, List.length_cons]
                omega
              · rw [← h.fifo, List.map_cons, List.append_assoc]
                rfl
              · refine (h.once.append_right [fnArg]).trans ?_
                exact List.perm_append_singleton _ _
              · intro hmem
                have hmem' : Worker.exited ∈ s.workers := by
                  rw [hworkers]
                  simpa using hmem
                exact absurd (h.exited hmem').2 (by simp)

theorem Accounted.finish (h : Accounted s queue running) (w : Nat) :
    ∃ s' running', s.step (.finish w) = .ok s' ∧ Accounted s' queue running' := by
  unfold step
  dsimp only
  cases hw : s.workers[w]? with
  | none => exact ⟨s, running, rfl, h⟩
  | some x =>
      cases x with
      | idle => exact ⟨s, running, rfl, h⟩
      | exited => exact ⟨s, running, rfl, h⟩
      | running job =>
          obtain ⟨A', B', hworkers, -, hset⟩ := split_at hw
          have hjobs := h.workers
          rw [hworkers] at hjobs
          have hjobs' : (running.map Prod.fst).Perm
              (job :: (A' ++ B').filterMap Worker.job?) :=
            hjobs.trans (jobs_split A' B' (.running job))
          obtain ⟨c, hc, heq⟩ := List.mem_map.1 (hjobs'.mem_iff.2 List.mem_cons_self)
          obtain ⟨a, fnArg⟩ := c
          obtain rfl : a = job := heq
          obtain ⟨R, R', hrun⟩ := List.append_of_mem hc
          have hperm : running.Perm ((a, fnArg) :: (R ++ R')) := by
            rw [hrun]
            exact List.perm_middle
          have hholds := h.holds.perm hperm
          obtain ⟨next, hget⟩ := hholds.live (a, fnArg) List.mem_cons_self
          have hjob : s.pool.jobAt a = .ok fnArg := by
            unfold Pool.jobAt
            dsimp only at hget
            rw [hget]
          simp only [bind, Except.bind, hjob, hset, pure, Except.pure]
          refine ⟨_, R ++ R', rfl, hholds.free, ?_, h.queued, h.queued_le, ?_, ?_, h.fifo, ?_, ?_,
            by simp⟩
          · have hrest := (hperm.map Prod.fst).symm.trans hjobs'
            rw [List.map_cons] at hrest
            exact ((List.perm_cons a).1 hrest).trans (jobs_split A' B' .idle).symm
          · have hlen := hperm.length_eq
            have hact := h.active
            rw [List.length_cons] at hlen
            dsimp only [Pool.finish]
            omega
          · dsimp only [Pool.finish]
            rw [h.done, List.length_append, List.length_singleton]
          · refine h.once.trans (((hperm.map Prod.snd).append_right s.finished).trans ?_)
            rw [List.map_cons, List.cons_append]
            dsimp only
            rw [← List.append_assoc]
            exact (List.perm_append_singleton _ _).symm
          · intro hmem
            refine h.exited ?_
            rw [hworkers]
            simpa using hmem

theorem Accounted.stop (h : Accounted s queue running) :
    ∃ s', s.step .stop = .ok s' ∧ Accounted s' queue running :=
  ⟨_, rfl, h.holds, h.workers, h.queued, h.queued_le, h.active, h.done, h.fifo, h.once,
    fun hmem => ⟨rfl, (h.exited hmem).2⟩, h.nonempty⟩

theorem Accounted.step (h : Accounted s queue running) (l : Label F A) :
    ∃ s' queue' running', s.step l = .ok s' ∧ Accounted s' queue' running' := by
  cases l with
  | add fn arg =>
      obtain ⟨s', queue', hs, ha⟩ := h.add fn arg
      exact ⟨s', queue', running, hs, ha⟩
  | take w => exact h.take w
  | finish w =>
      obtain ⟨s', running', hs, ha⟩ := h.finish w
      exact ⟨s', queue, running', hs, ha⟩
  | stop =>
      obtain ⟨s', hs, ha⟩ := h.stop
      exact ⟨s', queue, running, hs, ha⟩

/-! ### Every run -/

theorem step_qmax {l : Label F A} (h : s.step l = .ok s') : s'.pool.qmax = s.pool.qmax := by
  cases l with
  | add fn arg =>
      have hadd : ∀ r, s.pool.poolAdd fn arg = .ok r → r.1.qmax = s.pool.qmax := by
        intro r hr
        unfold Pool.poolAdd at hr
        repeat' split at hr
        all_goals cases hr
        all_goals rfl
      unfold step at h
      cases hr : s.pool.poolAdd fn arg with
      | error f =>
          simp only [bind, Except.bind, hr] at h
          cases h
      | ok r =>
          simp only [bind, Except.bind, hr] at h
          cases h
          exact hadd r hr
  | take w =>
      have htake : ∀ r, s.pool.take = .ok r → r.1.qmax = s.pool.qmax := by
        intro r hr
        unfold Pool.take at hr
        repeat' split at hr
        all_goals cases hr
        all_goals rfl
      unfold step at h
      dsimp only at h
      split at h
      · cases hr : s.pool.take with
        | error f =>
            simp only [bind, Except.bind, hr] at h
            cases h
        | ok r =>
            simp only [bind, Except.bind, hr] at h
            split at h
            · cases h
            · cases h
              exact htake r hr
      · cases h
        rfl
  | finish w =>
      unfold step at h
      dsimp only at h
      split at h
      · rename_i job _
        cases hr : s.pool.jobAt job with
        | error f =>
            simp only [bind, Except.bind, hr] at h
            cases h
        | ok fnArg =>
            simp only [bind, Except.bind, hr] at h
            cases h
            rfl
      · cases h
        rfl
  | stop =>
      cases h
      rfl

/-- The pool in one state: `queue` are the jobs of the linked queue and `running` those of
the workers. -/
structure Sound (qmax : Int) (s : PoolRun F A) (queue running : List (Nat × F × A)) : Prop where
  linked : LinkedQueue.Chain s.pool.queue.heap s.pool.queue.head queue
  workers : (running.map Prod.fst).Perm (s.workers.filterMap Worker.job?)
  live : ∀ c ∈ running, s.pool.jobAt c.1 = .ok c.2
  once : s.accepted.Perm (queue.map Prod.snd ++ running.map Prod.snd ++ s.finished)
  queued : s.pool.queued = queue.length
  queued_le : s.pool.queued ≤ qmax
  active : s.pool.active = running.length
  done : s.pool.done = s.finished.length
  fifo : s.started ++ queue.map Prod.snd = s.accepted
  add : ∀ fn arg pool, s.pool.poolAdd fn arg = .ok (pool, 0) →
    s.pool.stop = false ∧ (queue.length : Int) < qmax
  del : (∀ w ∈ s.workers, w = .exited) → queue = [] ∧ s.poolDel = some (.ok [])

theorem Accounted.poolAdd_zero (h : Accounted s queue running) {fn : Option F} {arg : A}
    {pool : Pool F A} (hadd : s.pool.poolAdd fn arg = .ok (pool, 0)) :
    s.pool.stop = false ∧ (queue.length : Int) < s.pool.qmax := by
  unfold Pool.poolAdd at hadd
  cases fn with
  | none => simp at hadd
  | some fn =>
      dsimp only at hadd
      by_cases hstop : s.pool.stop = true
      · rw [if_pos hstop] at hadd
        simp at hadd
      · rw [if_neg hstop] at hadd
        by_cases hfull : s.pool.qmax ≤ s.pool.queued
        · rw [if_pos hfull] at hadd
          simp at hadd
        · have hq := h.queued
          exact ⟨by simpa using hstop, by omega⟩

theorem Accounted.poolDel (h : Accounted s queue running) (hall : ∀ w ∈ s.workers, w = .exited) :
    queue = [] ∧ s.poolDel = some (.ok []) := by
  obtain ⟨w, hw⟩ := List.exists_mem_of_ne_nil _ h.nonempty
  have hmem : Worker.exited ∈ s.workers := hall w hw ▸ hw
  have hnil := (h.exited hmem).2
  have hhead := h.holds.head_none.2 hnil
  have hjoined : s.workers.all (· == .exited) = true :=
    List.all_eq_true.2 fun w hw => beq_iff_eq.2 (hall w hw)
  refine ⟨hnil, ?_⟩
  unfold PoolRun.poolDel
  rw [if_pos hjoined]
  cases s.pool.queue.heap.next with
  | zero => rfl
  | succ fuel =>
      unfold discard
      rw [hhead]

theorem Accounted.sound (h : Accounted s queue running) : Sound s.pool.qmax s queue running where
  linked := h.holds.chain
  workers := h.workers
  live := fun c hc => by
    obtain ⟨next, hget⟩ := h.holds.live c hc
    unfold Pool.jobAt
    rw [hget]
  once := by
    rw [← h.fifo]
    refine (h.once.append_right _).trans ?_
    rw [List.append_assoc (queue.map Prod.snd)]
    exact List.perm_append_comm
  queued := h.queued
  queued_le := h.queued_le
  active := h.active
  done := h.done
  fifo := h.fifo
  add := fun _ _ _ hadd => h.poolAdd_zero hadd
  del := h.poolDel

/-- **The pool runs every accepted job once.**  Whatever the producers and workers do, no
step touches a released job, and in every state the accepted jobs are the queued, the
running and the finished ones. -/
theorem pool_sound {nthr qmax : Int} {s₀ : PoolRun F A} (h : poolNew nthr qmax = some s₀)
    (labels : List (Label F A)) :
    Run.Always step (fun s => ∃ queue running, Sound qmax s queue running) s₀ labels := by
  have hq : s₀.pool.qmax = qmax := by
    unfold poolNew at h
    split at h
    · cases h
    · cases h
      rfl
  have hrun : Run.Always step (fun s : PoolRun F A =>
      s.pool.qmax = qmax ∧ ∃ queue running, Accounted s queue running) s₀ labels := by
    refine Run.always_of_step ?_ ⟨hq, [], [], poolNew_accounted h⟩
    rintro s l ⟨hs, queue, running, ha⟩
    obtain ⟨s', queue', running', hstep, ha'⟩ := ha.step l
    exact ⟨s', hstep, (step_qmax hstep).trans hs, queue', running', ha'⟩
  refine hrun.mono ?_
  rintro s ⟨hs, queue, running, ha⟩
  exact ⟨queue, running, hs ▸ ha.sound⟩

/-- Two workers and room for one job: the second job is refused, the others are run, and the
workers leave. -/
theorem pool_sound_two_workers : ∃ s₀ : PoolRun Nat Nat, poolNew 2 1 = some s₀ ∧
    Run.Always step (fun s => ∃ queue running, Sound 1 s queue running) s₀
      [.add (some 7) 0, .add (some 8) 1, .take 0, .add (some 9) 2, .stop, .take 1, .finish 0,
        .finish 1, .take 0, .take 1] ∧
    ∃ s, Run.exec step s₀
        [.add (some 7) 0, .add (some 8) 1, .take 0, .add (some 9) 2, .stop, .take 1, .finish 0,
          .finish 1, .take 0, .take 1] = .ok s ∧
      s.accepted = [(7, 0), (9, 2)] ∧ s.finished = [(7, 0), (9, 2)] ∧
        s.workers = [.exited, .exited] := by
  have hnew : (poolNew 2 1 : Option (PoolRun Nat Nat)) = some _ := rfl
  exact ⟨_, hnew, pool_sound hnew _, _, rfl, rfl, rfl, rfl⟩

end PoolRun

end MiniDbms
