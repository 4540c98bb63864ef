import Tvntd.Di.ThreadPool.Steps

/-! # Requests and counters of the thread pool

`Books` says that the ledger of the requests and the two counters of the pool
agree, and what happens to a request keeps them so. `Conserved` adds the
counters of the workers and what is not submitted yet. Every step keeps it, but
for a submitter that executes a request itself.
-/

namespace Tvntd

open Placement Function

namespace ThreadPool

set_option linter.unusedSectionVars false

variable {Req Mod : Type} [DecidableEq Req] {pool next : ThreadPool Req Mod}

/-! ## Books -/

/-- The two counters agree with the ledger. -/
structure Books (accepted : List Req) (finished : Req → Bool) (contents : Place Req → List Req)
    (sched barrierCnt : Int) : Prop where
  ledger : Ledger accepted finished contents
  sched_eq : sched + ((contents (.queue .barrier)).length : Int) =
    ((pending accepted finished).length : Int)
  barrier_eq : barrierCnt = ((contents (.queue .barrier)).length : Int)

namespace Books

variable {accepted : List Req} {finished : Req → Bool} {contents : Place Req → List Req}
  {sched barrierCnt : Int} {req : Req} {source target : Place Req} {left list : List Req}

/-- Counting the requests that are not deferred. -/
theorem sched_eq_outside (books : Books accepted finished contents sched barrierCnt) :
    sched = (((pending accepted finished).filter (· ∉ contents (.queue .barrier))).length : Int) := by
  have outside := books.ledger.length_outside (.queue .barrier)
  have total := books.sched_eq
  omega

theorem accept (books : Books accepted finished contents sched barrierCnt) (fresh : req ∉ accepted)
    (unfinished : finished req = false) (apart : target ≠ .queue .barrier)
    (puts : list.Perm (req :: contents target)) :
    Books (accepted ++ [req]) finished (update contents target list)
      (sched + 1) barrierCnt where
  ledger := books.ledger.accept fresh unfinished puts
  sched_eq := by
    rw [update_of_ne apart.symm, length_pending_accept unfinished]
    have total := books.sched_eq
    omega
  barrier_eq := by
    rw [update_of_ne apart.symm]
    exact books.barrier_eq

/-- A request is accepted behind a barrier. -/
theorem defer (books : Books accepted finished contents sched barrierCnt) (fresh : req ∉ accepted)
    (unfinished : finished req = false) :
    Books (accepted ++ [req]) finished (update contents (.queue .barrier)
      (contents (.queue .barrier) ++ [req])) sched (barrierCnt + 1) where
  ledger := books.ledger.accept fresh unfinished (List.perm_append_singleton req _)
  sched_eq := by
    rw [update_self, List.length_append, List.length_singleton,
      length_pending_accept unfinished]
    have total := books.sched_eq
    omega
  barrier_eq := by
    rw [update_self, List.length_append, List.length_singleton, books.barrier_eq]
    omega

theorem move (books : Books accepted finished contents sched barrierCnt) (apart : target ≠ source)
    (sourceApart : source ≠ .queue .barrier) (targetApart : target ≠ .queue .barrier)
    (takes : (contents source).Perm (req :: left)) (puts : list.Perm (req :: contents target)) :
    Books accepted finished (update (update contents source left) target list)
      sched barrierCnt where
  ledger := books.ledger.move apart takes puts
  sched_eq := by
    rw [update_of_ne targetApart.symm, update_of_ne sourceApart.symm]
    exact books.sched_eq
  barrier_eq := by
    rw [update_of_ne targetApart.symm, update_of_ne sourceApart.symm]
    exact books.barrier_eq

/-- The first deferred request is scheduled. -/
theorem resume (books : Books accepted finished contents sched barrierCnt)
    (targetApart : target ≠ .queue .barrier) (first : contents (.queue .barrier) = req :: left)
    (puts : list.Perm (req :: contents target)) :
    Books accepted finished
      (update (update contents (.queue .barrier) left) target list)
      (sched + 1) (barrierCnt - 1) where
  ledger := books.ledger.move targetApart (first ▸ List.Perm.refl _) puts
  sched_eq := by
    rw [update_of_ne targetApart.symm, update_self]
    have total := books.sched_eq
    rw [first, List.length_cons] at total
    omega
  barrier_eq := by
    rw [update_of_ne targetApart.symm, update_self, books.barrier_eq, first,
      List.length_cons]
    omega

theorem finish (books : Books accepted finished contents sched barrierCnt)
    (sourceApart : source ≠ .queue .barrier) (takes : (contents source).Perm (req :: left)) :
    Books accepted (update finished req true) (update contents source left)
      (sched - 1) barrierCnt where
  ledger := books.ledger.finish takes
  sched_eq := by
    have somewhere : Somewhere contents req := ⟨source, takes.symm.subset List.mem_cons_self⟩
    have shorter := books.ledger.length_pending_finish somewhere
    have total := books.sched_eq
    rw [update_of_ne sourceApart.symm]
    omega
  barrier_eq := by
    rw [update_of_ne sourceApart.symm]
    exact books.barrier_eq

end Books

/-! ## What every step keeps -/

structure Conserved (pool : ThreadPool Req Mod) : Prop where
  books : Books pool.accepted pool.finished pool.contents pool.thpSchedReq pool.thpBarrierCnt
  reqcnt : ∀ wrk, (pool.thpWorkers wrk).wrkReqcnt = ((pool.thpWorkers wrk).wrkQueue.length : Int)
  fresh : ∀ req, Unsubmitted (pool.submit req) → req ∉ pool.accepted
  unfinished : ∀ req, Unsubmitted (pool.submit req) → pool.finished req = false

/-- What only touches the worker lists keeps what is known of the requests. -/
theorem Relisted.conserved (relisted : Relisted pool next) (conserved : Conserved pool) :
    Conserved next := by
  have same := relisted.contents
  obtain ⟨books, reqcnt, fresh, unfinished⟩ := conserved
  refine ⟨?_, ?_, ?_, ?_⟩
  · rw [same, relisted.pool_eq]
    exact books
  · intro wrk
    rw [relisted.wrkReqcnt, relisted.wrkQueue]
    exact reqcnt wrk
  · rw [relisted.pool_eq]
    exact fresh
  · rw [relisted.pool_eq]
    exact unfinished

/-- A step of a worker that neither takes nor finishes a request. -/
theorem Conserved.setWorker (conserved : Conserved pool) {wrk : Nat} {after : WorkerThread Req}
    (queue : after.wrkQueue = (pool.thpWorkers wrk).wrkQueue)
    (reqcnt : after.wrkReqcnt = (pool.thpWorkers wrk).wrkReqcnt)
    (same : held after.pc = held (pool.thpWorkers wrk).pc) :
    Conserved (pool.setWorker wrk after) where
  books := by
    rw [contents_setWorker, queue, same]
    rw [show (pool.thpWorkers wrk).wrkQueue = pool.contents (.worker wrk) from rfl,
      update_eq_self,
      show held (pool.thpWorkers wrk).pc = pool.contents (.hand wrk) from rfl,
      update_eq_self]
    exact conserved.books
  reqcnt := by
    intro other
    by_cases here : other = wrk
    · subst here
      simp only [ThreadPool.setWorker, update_self]
      rw [reqcnt, queue]
      exact conserved.reqcnt other
    · simp only [ThreadPool.setWorker, update_of_ne here]
      exact conserved.reqcnt other
  fresh := conserved.fresh
  unfinished := conserved.unfinished

theorem Conserved.setPc (conserved : Conserved pool) {wrk : Nat} {pc : WorkerPc Req}
    (same : held pc = held (pool.thpWorkers wrk).pc) : Conserved (pool.setPc wrk pc) :=
  conserved.setWorker rfl rfl same

/-- Where a request is unsubmitted behind a step of a submitter. -/
theorem unsubmitted_setSubmit {req other : Req} {after : Submit Mod}
    (unsubmitted : Unsubmitted ((pool.setSubmit req after).submit other)) :
    other = req ∧ Unsubmitted after ∨ other ≠ req ∧ Unsubmitted (pool.submit other) := by
  by_cases here : other = req
  · subst here
    simp only [ThreadPool.setSubmit, update_self] at unsubmitted
    exact .inl ⟨rfl, unsubmitted⟩
  · simp only [ThreadPool.setSubmit, update_of_ne here] at unsubmitted
    exact .inr ⟨here, unsubmitted⟩

/-- A step of a submitter that hands nothing on. -/
theorem Conserved.setSubmit (conserved : Conserved pool) {req : Req} {after : Submit Mod}
    (same : kept req after = kept req (pool.submit req))
    (begun : Unsubmitted after → Unsubmitted (pool.submit req)) :
    Conserved (pool.setSubmit req after) where
  books := by
    rw [contents_setSubmit, same, show kept req (pool.submit req) = pool.contents (.submitter req) from rfl,
      update_eq_self]
    exact conserved.books
  reqcnt := conserved.reqcnt
  fresh := by
    intro other unsubmitted
    rcases unsubmitted_setSubmit unsubmitted with ⟨rfl, stays⟩ | ⟨-, stays⟩
    · exact conserved.fresh other (begun stays)
    · exact conserved.fresh other stays
  unfinished := by
    intro other unsubmitted
    rcases unsubmitted_setSubmit unsubmitted with ⟨rfl, stays⟩ | ⟨-, stays⟩
    · exact conserved.unfinished other (begun stays)
    · exact conserved.unfinished other stays

/-- A step of a submitter behind the critical section of `schedule`. -/
theorem Conserved.goOn (conserved : Conserved pool) {req : Req} {before after : Submit Mod}
    (begun : pool.submit req = before) (same : kept req after = kept req before)
    (still : ¬ Unsubmitted after) : Conserved (pool.setSubmit req after) :=
  conserved.setSubmit (begun ▸ same) fun unsubmitted => (still unsubmitted).elim

/-- A submission after which its request is accepted, whatever else is true of the pool. -/
theorem Conserved.submitted (conserved : Conserved pool) {req : Req} {after : Submit Mod}
    (begun : ¬ Unsubmitted after) {accepting : ThreadPool Req Mod}
    (books : Books (pool.accepted ++ [req]) pool.finished (accepting.setSubmit req after).contents
      accepting.thpSchedReq accepting.thpBarrierCnt)
    (accepted : accepting.accepted = pool.accepted ++ [req])
    (finished : accepting.finished = pool.finished) (submit : accepting.submit = pool.submit)
    (reqcnt : ∀ wrk, (accepting.thpWorkers wrk).wrkReqcnt =
      ((accepting.thpWorkers wrk).wrkQueue.length : Int)) :
    Conserved (accepting.setSubmit req after) where
  books := by
    simpa only [ThreadPool.setSubmit, accepted, finished] using books
  reqcnt := reqcnt
  fresh := by
    intro other unsubmitted
    rcases unsubmitted_setSubmit unsubmitted with ⟨-, stays⟩ | ⟨away, stays⟩
    · exact (begun stays).elim
    · change other ∉ accepting.accepted
      rw [accepted, List.mem_append, List.mem_singleton]
      exact fun inside => inside.elim (conserved.fresh other (submit ▸ stays)) away
  unfinished := by
    intro other unsubmitted
    rcases unsubmitted_setSubmit unsubmitted with ⟨-, stays⟩ | ⟨-, stays⟩
    · exact (begun stays).elim
    · change accepting.finished other = false
      rw [finished]
      exact conserved.unfinished other (submit ▸ stays)

/-! ## Submitters -/

private theorem kept_of_unsubmitted {req : Req} {at_ : Submit Mod} (unsubmitted : Unsubmitted at_) :
    kept req at_ = [] := by
  cases at_ with
  | fresh => rfl
  | retry mod qno => rfl
  | _ => exact unsubmitted.elim

private theorem kept_of_parks {req : Req} {after : Submit Mod} (parks : Parks after) :
    kept req after = [] := by
  cases after with
  | returned => rfl
  | dorman wrk => rfl
  | _ => exact parks.elim

/-- The submitter of an accepted request keeps nothing, and it kept nothing before. -/
theorem contents_setSubmit_of_kept {req : Req} {after : Submit Mod} (here : kept req after = [])
    (before : kept req (pool.submit req) = []) :
    (pool.setSubmit req after).contents = pool.contents := by
  rw [contents_setSubmit, here, ← before,
    show kept req (pool.submit req) = pool.contents (.submitter req) from rfl,
    update_eq_self]

/-- A request is deferred behind a barrier. -/
theorem Conserved.defer (conserved : Conserved pool) {req : Req}
    (unsubmitted : Unsubmitted (pool.submit req)) {accepting : ThreadPool Req Mod}
    (contents : accepting.contents = pool.contents)
    (accepted : accepting.accepted = pool.accepted ++ [req])
    (finished : accepting.finished = pool.finished) (submit : accepting.submit = pool.submit)
    (workers : accepting.thpWorkers = pool.thpWorkers)
    (sched : accepting.thpSchedReq = pool.thpSchedReq)
    (barrierCnt : accepting.thpBarrierCnt = pool.thpBarrierCnt + 1) :
    Conserved ((accepting.modEnqueue req .barrier).setSubmit req .returned) := by
  refine conserved.submitted id ?_ accepted finished submit ?_
  · have same : ((accepting.modEnqueue req .barrier).setSubmit req .returned).contents =
        update pool.contents (.queue .barrier)
          (pool.contents (.queue .barrier) ++ [req]) := by
      rw [contents_setSubmit_of_kept rfl, contents_modEnqueue,
        show accepting.mQueue .barrier = accepting.contents (.queue .barrier) from rfl, contents]
      change kept req (accepting.submit req) = []
      rw [submit]
      exact kept_of_unsubmitted unsubmitted
    rw [same]
    change Books _ _ _ accepting.thpSchedReq accepting.thpBarrierCnt
    rw [sched, barrierCnt]
    exact conserved.books.defer (conserved.fresh req unsubmitted)
      (conserved.unfinished req unsubmitted)
  · change ∀ wrk, (accepting.thpWorkers wrk).wrkReqcnt =
      ((accepting.thpWorkers wrk).wrkQueue.length : Int)
    rw [workers]
    exact conserved.reqcnt

theorem Conserved.schedule (conserved : Conserved pool) {req : Req}
    (unsubmitted : Unsubmitted (pool.submit req)) (mod : Option Mod) (qno : Reqq) :
    Conserved (pool.schedule mod req qno) := by
  have fresh := conserved.fresh req unsubmitted
  have unfinished := conserved.unfinished req unsubmitted
  have empty : pool.contents (.submitter req) = [] := kept_of_unsubmitted unsubmitted
  rcases schedule_cases pool mod req qno with ⟨-, same⟩ | ⟨-, rest, relisted, outcome⟩
  · rw [same]
    exact conserved.defer unsubmitted rfl rfl rfl rfl rfl rfl rfl
  · have restContents : rest.contents = pool.contents := relisted.contents
    have restSubmit : rest.submit = pool.submit := relisted.submit
    have accepted : rest.accepted = pool.accepted ++ [req] := congrArg (·.accepted) relisted.pool_eq
    have finished : rest.finished = pool.finished := congrArg (·.finished) relisted.pool_eq
    have sched : rest.thpSchedReq = pool.thpSchedReq + 1 :=
        congrArg (·.thpSchedReq) relisted.pool_eq
    have barrierCnt : rest.thpBarrierCnt = pool.thpBarrierCnt :=
      congrArg (·.thpBarrierCnt) relisted.pool_eq
    have reqcnt : ∀ wrk, (rest.thpWorkers wrk).wrkReqcnt =
        ((rest.thpWorkers wrk).wrkQueue.length : Int) := by
      intro wrk
      rw [relisted.wrkReqcnt, relisted.wrkQueue]
      exact conserved.reqcnt wrk
    -- The submitter has the request in its hands.
    have handed : ∀ after : Submit Mod, kept req after = [req] → ¬ Unsubmitted after →
        Conserved (rest.setSubmit req after) := by
      intro after keeps begun
      refine conserved.submitted begun ?_ accepted finished restSubmit reqcnt
      rw [contents_setSubmit, keeps, restContents, sched, barrierCnt]
      exact conserved.books.accept fresh unfinished nofun (by rw [empty])
    rcases outcome with ⟨wrk, same⟩ | ⟨queue, after, apart, -, parks, same⟩ | ⟨-, same⟩
    · rw [same]
      exact handed (.hand wrk) rfl id
    · rw [same]
      refine conserved.submitted (not_unsubmitted_of_parks parks) ?_ accepted finished restSubmit reqcnt
      have queued : ((rest.modEnqueue req queue).setSubmit req after).contents =
          update pool.contents (.queue queue) (pool.contents (.queue queue) ++ [req]) := by
        rw [contents_setSubmit_of_kept (kept_of_parks parks), contents_modEnqueue,
          show rest.mQueue queue = rest.contents (.queue queue) from rfl, restContents]
        change kept req (rest.submit req) = []
        rw [restSubmit]
        exact kept_of_unsubmitted unsubmitted
      rw [queued]
      change Books _ _ _ rest.thpSchedReq rest.thpBarrierCnt
      rw [sched, barrierCnt]
      exact conserved.books.accept fresh unfinished (fun same => apart (Place.queue.inj same))
        (List.perm_append_singleton req _)
    · rw [same]
      exact handed .inline rfl id

theorem Conserved.scheduleBarrier (conserved : Conserved pool) {req : Req}
    (begun : pool.submit req = .fresh) (mod : Option Mod) (qno : Reqq) :
    Conserved (pool.scheduleBarrier mod req qno) := by
  have unsubmitted : Unsubmitted (pool.submit req) := begun ▸ trivial
  unfold ThreadPool.scheduleBarrier
  dsimp only
  split
  · exact conserved.defer unsubmitted rfl rfl rfl rfl rfl rfl rfl
  · have noted : Conserved { pool with viaBarrier := update pool.viaBarrier req true } :=
      ⟨conserved.books, conserved.reqcnt, conserved.fresh, conserved.unfinished⟩
    exact noted.setSubmit (kept_of_unsubmitted unsubmitted).symm fun _ => unsubmitted

theorem Conserved.workerEnqueue (conserved : Conserved pool) {req : Req} {wrk : Nat}
    (begun : pool.submit req = .hand wrk) : Conserved (pool.workerEnqueue req wrk) := by
  unfold ThreadPool.workerEnqueue
  dsimp only
  split
  · have hands : pool.contents (.submitter req) = [req] := congrArg (kept req) begun
    have relisted := Relisted.signal (pool.setWorker wrk { pool.thpWorkers wrk with
      wrkReqcnt := (pool.thpWorkers wrk).wrkReqcnt + 1
      wrkQueue := (pool.thpWorkers wrk).wrkQueue ++ [req] }) wrk req
    generalize ThreadPool.signal _ wrk req = rest at relisted ⊢
    have queued : (rest.setSubmit req .returned).contents =
        update (update pool.contents (.submitter req) []) (.worker wrk)
          (pool.contents (.worker wrk) ++ [req]) := by
      rw [contents_setSubmit, relisted.contents, contents_setWorker]
      dsimp only
      rw [show held (pool.thpWorkers wrk).pc = pool.contents (.hand wrk) from rfl,
        update_comm (show (Place.worker wrk : Place Req) ≠ .hand wrk from by simp),
        update_eq_self,
        update_comm (show (Place.worker wrk : Place Req) ≠ .submitter req from by simp)]
      rfl
    have submitted : ∀ other, Unsubmitted ((rest.setSubmit req .returned).submit other) →
        Unsubmitted (pool.submit other) := by
      intro other unsubmitted
      by_cases here : other = req
      · subst here
        simp [ThreadPool.setSubmit, Unsubmitted] at unsubmitted
      · simp only [ThreadPool.setSubmit, update_of_ne here, relisted.submit] at unsubmitted
        exact unsubmitted
    refine ⟨?_, ?_, ?_, ?_⟩
    · rw [queued, relisted.pool_eq]
      exact conserved.books.move (by simp) (by simp) (by simp) (by rw [hands])
        (List.perm_append_singleton req _)
    · intro other
      change (rest.thpWorkers other).wrkReqcnt = ((rest.thpWorkers other).wrkQueue.length : Int)
      rw [relisted.wrkReqcnt, relisted.wrkQueue]
      by_cases here : other = wrk
      · subst here
        simp only [ThreadPool.setWorker, update_self]
        rw [List.length_append, List.length_singleton, conserved.reqcnt]
        rfl
      · simp only [ThreadPool.setWorker, update_of_ne here]
        exact conserved.reqcnt other
    · intro other unsubmitted
      rw [relisted.pool_eq]
      exact conserved.fresh other (submitted other unsubmitted)
    · intro other unsubmitted
      rw [relisted.pool_eq]
      exact conserved.unfinished other (submitted other unsubmitted)
  · exact conserved.goOn begun rfl id

/-! ## Workers -/

theorem Conserved.leaveLoop (conserved : Conserved pool) {wrk : Nat}
    (idle : held (pool.thpWorkers wrk).pc = []) : Conserved (pool.leaveLoop wrk) :=
  conserved.setWorker rfl rfl idle.symm

theorem Conserved.loopTop (conserved : Conserved pool) {wrk : Nat}
    (here : (pool.thpWorkers wrk).pc = .top) : Conserved (pool.loopTop wrk) := by
  have idle : held (pool.thpWorkers wrk).pc = [] := by rw [here]; rfl
  unfold ThreadPool.loopTop
  dsimp only
  split
  · exact conserved.leaveLoop idle
  · split
    · exact conserved.setPc idle.symm
    · rename_i req rest queue
      refine ⟨?_, ?_, conserved.fresh, conserved.unfinished⟩
      · rw [contents_setWorker]
        have empty : pool.contents (.hand wrk) = [] := idle
        exact conserved.books.move nofun nofun nofun
          (show (pool.thpWorkers wrk).wrkQueue.Perm _ by rw [queue]) (by rw [empty]; rfl)
      · intro other
        by_cases same : other = wrk
        · subst same
          have counted := conserved.reqcnt other
          simp only [ThreadPool.setWorker, update_self]
          rw [counted, queue, List.length_cons]
          omega
        · simp only [ThreadPool.setWorker, update_of_ne same]
          exact conserved.reqcnt other

theorem Conserved.loopProbe (conserved : Conserved pool) {wrk : Nat}
    (here : (pool.thpWorkers wrk).pc = .probe) : Conserved (pool.loopProbe wrk) := by
  have idle : held (pool.thpWorkers wrk).pc = [] := by rw [here]; rfl
  unfold ThreadPool.loopProbe
  split
  · exact conserved.leaveLoop idle
  · split
    · exact conserved.setPc idle.symm
    · exact conserved.setPc idle.symm

/-- A worker takes the request in front of a queue of the pool. -/
theorem Conserved.takeQueued (conserved : Conserved pool) {wrk : Nat}
    (idle : held (pool.thpWorkers wrk).pc = []) {qno : Reqq} (apart : qno ≠ .barrier) {req : Req}
    {list : List Req} (queue : pool.mQueue qno = req :: list) (thr : Thrq) :
    Conserved ((thpSwapQueue { pool with mQueue := update pool.mQueue qno list } wrk
      thr).setPc wrk (.taken req)) := by
  have relisted := Relisted.thpSwapQueue
    { pool with mQueue := update pool.mQueue qno list } wrk thr
  generalize ThreadPool.thpSwapQueue _ wrk thr = swapped at relisted ⊢
  have empty : pool.contents (.hand wrk) = [] := idle
  refine ⟨?_, ?_, ?_, ?_⟩
  · rw [contents_setPc, relisted.contents, contents_mQueue, relisted.pool_eq]
    exact conserved.books.move nofun (fun same => apart (Place.queue.inj same)) nofun
      (show (pool.mQueue qno).Perm _ by rw [queue]) (by rw [empty]; rfl)
  · intro other
    by_cases same : other = wrk
    · subst same
      simp only [ThreadPool.setPc, ThreadPool.setWorker, update_self]
      rw [relisted.wrkReqcnt, relisted.wrkQueue]
      exact conserved.reqcnt other
    · simp only [ThreadPool.setPc, ThreadPool.setWorker, update_of_ne same]
      rw [relisted.wrkReqcnt, relisted.wrkQueue]
      exact conserved.reqcnt other
  · rw [relisted.pool_eq]
    exact conserved.fresh
  · rw [relisted.pool_eq]
    exact conserved.unfinished

/-- A promotion keeps the books, also while a worker has a request that is on no queue. -/
theorem promoted_books : ∀ {cnt : Nat} {pool : ThreadPool Req Mod} {wrk : Nat} {hand : List Req},
    thpPromoteBarrierLck cnt pool = some next →
      Books pool.accepted pool.finished (update pool.contents (.hand wrk) hand)
        pool.thpSchedReq pool.thpBarrierCnt →
      Promoted pool next ∧
        Books next.accepted next.finished (update next.contents (.hand wrk) hand)
          next.thpSchedReq next.thpBarrierCnt := by
  intro cnt
  induction cnt with
  | zero =>
      intro pool wrk hand promoted books
      rw [thpPromoteBarrierLck, Option.some.injEq] at promoted
      subst promoted
      exact ⟨Promoted.refl pool, books⟩
  | succ cnt ih =>
      intro pool wrk hand promoted books
      rcases thpPromoteBarrierLck_succ promoted with rfl | ⟨rq, list, queue, -, later⟩
      · exact ⟨Promoted.refl next, books⟩
      · have relisted := Relisted.wakeIdle (pool.resumed rq list) rq
        generalize (pool.resumed rq list).wakeIdle rq = rest at relisted later
        have moved := (promoted_resumed pool rq list).trans relisted.promoted
        have handApart : ∀ qno, (Place.hand wrk : Place Req) ≠ .queue qno := fun _ => by simp
        have first :
            update pool.contents (.hand wrk) hand (.queue .barrier) = rq :: list := by
          rw [update_of_ne (handApart .barrier).symm]
          exact queue
        have fast : update pool.contents (.hand wrk) hand (.queue .fastQueue) =
            pool.contents (.queue .fastQueue) :=
              update_of_ne (handApart .fastQueue).symm _ _
        have puts : (pool.contents (.queue .fastQueue) ++ [rq]).Perm
            (rq :: update pool.contents (.hand wrk) hand (.queue .fastQueue)) := by
          rw [fast]
          exact List.perm_append_singleton rq _
        have apart : (Place.queue .fastQueue : Place Req) ≠ .queue .barrier :=
          fun same => absurd (Place.queue.inj same) (by decide)
        have here := books.resume apart first puts
        have kept : Books rest.accepted rest.finished
          (update rest.contents (.hand wrk) hand)
            rest.thpSchedReq rest.thpBarrierCnt := by
          rw [relisted.contents, contents_resumed,
            update_comm (handApart .fastQueue).symm,
            update_comm (handApart .barrier).symm, relisted.pool_eq]
          exact here
        obtain ⟨promoted, books⟩ := ih later kept
        exact ⟨moved.trans promoted, books⟩

/-- A worker takes the barrier request in front, and what is deferred behind it is promoted. -/
theorem Conserved.takeBarrier (conserved : Conserved pool) {wrk : Nat}
    (idle : held (pool.thpWorkers wrk).pc = []) (taken : pool.takeBarrier wrk = some next) :
    Conserved next := by
  obtain ⟨req, list, promoted, queue, promotion, rfl⟩ := takeBarrier_eq taken
  have empty : pool.contents (.hand wrk) = [] := idle
  have apart : (Place.hand wrk : Place Req) ≠ .queue .barrier := nofun
  have puts : [req].Perm (req :: pool.contents (.hand wrk)) := by rw [empty]
  have before := conserved.books.resume apart queue puts
  rw [← contents_undeferred] at before
  obtain ⟨kept, books⟩ := promoted_books promotion before
  refine ⟨?_, ?_, ?_, ?_⟩
  · rw [contents_setPc]
    exact books
  · intro other
    by_cases same : other = wrk
    · subst same
      simp only [ThreadPool.setPc, ThreadPool.setWorker, update_self]
      rw [kept.worker_eq]
      exact conserved.reqcnt other
    · simp only [ThreadPool.setPc, ThreadPool.setWorker, update_of_ne same]
      rw [kept.worker_eq]
      exact conserved.reqcnt other
  · rw [kept.pool_eq]
    exact conserved.fresh
  · rw [kept.pool_eq]
    exact conserved.unfinished

theorem Conserved.getReqOrPutIdle (conserved : Conserved pool) {wrk : Nat}
    (here : (pool.thpWorkers wrk).pc = .look) : Conserved (pool.getReqOrPutIdle wrk) := by
  have cleared : Conserved (pool.looking wrk) := conserved.setWorker rfl rfl rfl
  have idle : held ((pool.looking wrk).thpWorkers wrk).pc = [] := by
    simp only [looking, ThreadPool.setWorker, update_self, here]
    rfl
  rcases getReqOrPutIdle_cases pool wrk with ⟨qno, thr, req, list, served, queue, same⟩ |
    ⟨-, -, ⟨-, same⟩ | ⟨-, same⟩⟩
  · have apart : qno ≠ .barrier := by
      rcases served with ⟨rfl, -⟩ | ⟨rfl, -⟩
      · decide
      · decide
    rw [same]
    exact cleared.takeQueued idle apart queue thr
  · have relisted := Relisted.thpSwapQueue (pool.looking wrk) wrk .idleThr
    rw [same]
    refine (relisted.conserved cleared).setPc ?_
    rw [relisted.pc, idle]
    rfl
  · rw [same]
    cases taken : (pool.looking wrk).takeBarrier wrk with
    | none => exact cleared.setPc idle.symm
    | some after => exact cleared.takeBarrier idle taken

theorem Conserved.execTask (conserved : Conserved pool) (req : Req) :
    Conserved (pool.execTask req) :=
  ⟨conserved.books, conserved.reqcnt, conserved.fresh, conserved.unfinished⟩

theorem Conserved.workerFinish (conserved : Conserved pool) {wrk : Nat} {req : Req}
    (here : (pool.thpWorkers wrk).pc = .running req) (chained : Bool) :
    Conserved (pool.workerFinish wrk req chained) := by
  have hand : pool.contents (.hand wrk) = [req] := congrArg held here
  refine ⟨?_, ?_, conserved.fresh, ?_⟩
  · rw [ThreadPool.workerFinish, contents_setPc]
    exact conserved.books.finish nofun (by rw [hand]; exact List.Perm.refl _)
  · intro other
    by_cases same : other = wrk
    · subst same
      simp only [ThreadPool.workerFinish, ThreadPool.setPc, ThreadPool.setWorker,
        update_self]
      exact conserved.reqcnt other
    · simp only [ThreadPool.workerFinish, ThreadPool.setPc, ThreadPool.setWorker,
        update_of_ne same]
      exact conserved.reqcnt other
  · intro other unsubmitted
    have accepted : req ∈ pool.accepted :=
      ((conserved.books.ledger.somewhere_iff req).mp ⟨.hand wrk, by rw [hand]; exact List.mem_cons_self⟩).1
    have apart : other ≠ req := by
      rintro rfl
      exact conserved.fresh other unsubmitted accepted
    change update pool.finished req true other = false
    rw [update_of_ne apart]
    exact conserved.unfinished other unsubmitted

theorem Conserved.thpStop (conserved : Conserved pool) : Conserved pool.thpStop := by
  have same : ∀ wrk, pool.thpStop.thpWorkers wrk =
      { pool.thpWorkers wrk with wrkState := (pool.thpStop.thpWorkers wrk).wrkState } := by
    intro wrk
    by_cases inside : wrk < pool.thpMax
    · simp only [ThreadPool.thpStop, if_pos inside]
    · simp only [ThreadPool.thpStop, if_neg inside]
  have contents : pool.thpStop.contents = pool.contents := by
    funext place
    cases place with
    | queue qno => rfl
    | worker wrk => exact congrArg (·.wrkQueue) (same wrk)
    | hand wrk => exact congrArg (held ·.pc) (same wrk)
    | submitter req => rfl
  refine ⟨?_, ?_, conserved.fresh, conserved.unfinished⟩
  · rw [contents]
    exact conserved.books
  · intro wrk
    rw [same]
    exact conserved.reqcnt wrk

/-- No submitter executes a request or is about to, and the workers it spawns have no thread. -/
structure Orderly (pool : ThreadPool Req Mod) : Prop where
  running : ∀ req, pool.submit req ≠ .inlineRunning
  dorman : ∀ req wrk, pool.submit req = .dorman wrk →
    pool.thpShutdown = false ∧ (pool.thpWorkers wrk).wrkState = .terminate
  spawnCount : ∀ req wrk, pool.submit req = .spawnCount wrk → (pool.thpWorkers wrk).pc = .out
  spawnCreate : ∀ req wrk, pool.submit req = .spawnCreate wrk → (pool.thpWorkers wrk).pc = .creating

/-- **Every step keeps the requests in their places and the counters right.** -/
theorem Conserved.step (conserved : Conserved pool) (orderly : Orderly pool) {act : Act Req Mod}
    (taken : Taken pool act next) : Conserved next := by
  cases taken with
  | schedule begun => exact conserved.schedule (begun ▸ trivial) _ _
  | scheduleBarrier begun => exact conserved.scheduleBarrier begun _ _
  | retry begun => exact conserved.schedule (begun ▸ trivial) _ _
  | enqueue begun free => exact conserved.workerEnqueue begun
  | leaveDorman begun =>
      rw [ThreadPool.leaveDorman, if_pos (orderly.dorman _ _ begun)]
      exact conserved.goOn begun rfl id
  | spawn begun =>
      unfold workerSpawnThr
      dsimp only
      split
      · exact conserved.goOn begun rfl id
      · refine Conserved.goOn (conserved.setWorker ?_ ?_ ?_) begun rfl id
        · rfl
        · rfl
        · rfl
  | spawnCount begun =>
      have out := orderly.spawnCount _ _ begun
      have counted : Conserved { pool with thpRunThds := pool.thpRunThds + 1 } :=
        ⟨conserved.books, conserved.reqcnt, conserved.fresh, conserved.unfinished⟩
      exact (counted.setPc (by dsimp only; rw [out]; rfl)).goOn begun rfl id
  | spawnCreate begun =>
      have creating := orderly.spawnCreate _ _ begun
      unfold ThreadPool.spawnCreate
      dsimp only
      split
      · refine Conserved.goOn (conserved.setWorker ?_ ?_ ?_) begun rfl id
        · rfl
        · rfl
        · rw [creating]
          rfl
      · have counted : Conserved { pool with thpRunThds := pool.thpRunThds - 1 } :=
          ⟨conserved.books, conserved.reqcnt, conserved.fresh, conserved.unfinished⟩
        refine Conserved.goOn (counted.setWorker ?_ ?_ ?_) begun rfl id
        · rfl
        · rfl
        · dsimp only
          rw [creating]
          rfl
  | @spawnFailed req wrk begun =>
      have relisted := Relisted.thpSwapQueue pool wrk .dormanThr
      exact (relisted.conserved conserved).goOn begun rfl id
  | inlineRun begun =>
      exact (conserved.execTask _).goOn begun rfl id
  | inlineDone begun => exact (orderly.running _ begun).elim
  | @start wrk here =>
      have relisted := Relisted.thpSwapQueue pool wrk .fastThr
      refine (relisted.conserved conserved).setPc ?_
      rw [relisted.pc, here]
      rfl
  | top here => exact conserved.loopTop here
  | look here => exact conserved.getReqOrPutIdle here
  | probe here => exact conserved.loopProbe here
  | park here => exact conserved.setPc (by rw [here]; rfl)
  | wake here => exact conserved.setPc (by rw [here]; rfl)
  | run here =>
      refine (conserved.execTask _).setPc ?_
      change held _ = held (pool.thpWorkers _).pc
      rw [here]
      rfl
  | finish here => exact conserved.workerFinish here _
  | @exit wrk here =>
      have counted : Conserved { pool with thpRunThds := pool.thpRunThds - 1 } :=
        ⟨conserved.books, conserved.reqcnt, conserved.fresh, conserved.unfinished⟩
      have relisted := Relisted.thpSwapQueue
        { pool with thpRunThds := pool.thpRunThds - 1 } wrk .dormanThr
      refine (relisted.conserved counted).setPc ?_
      rw [relisted.pc]
      dsimp only
      rw [here]
      rfl
  | stop begun => exact conserved.thpStop
  | stopWake begun done =>
      exact ⟨conserved.books, conserved.reqcnt, conserved.fresh, conserved.unfinished⟩
  | stopReturn begun =>
      exact ⟨conserved.books, conserved.reqcnt, conserved.fresh, conserved.unfinished⟩
  | stopVerify begun =>
      exact ⟨conserved.books, conserved.reqcnt, conserved.fresh, conserved.unfinished⟩

end ThreadPool

end Tvntd
