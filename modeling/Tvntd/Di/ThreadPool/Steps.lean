import Tvntd.Di.ThreadPool.Model
import Tvntd.Lib.Placement

/-! # The steps of the thread pool

The steps as a relation, with the place every step begins at, and the effect of
the operations on the worker lists: they change the lists, the states of the
workers and the signals that nobody waited for, and nothing else. The requests
in the pool are in places (`Place`), and what is in them is a function of the
pool (`ThreadPool.contents`).
-/

namespace Tvntd

open Function

namespace ThreadPool

set_option linter.unusedSectionVars false

variable {Req Mod : Type} [DecidableEq Req] {pool next : ThreadPool Req Mod}

/-- A step, with where its thread is. -/
inductive Taken (pool : ThreadPool Req Mod) : Act Req Mod → ThreadPool Req Mod → Prop where
  | schedule {mod : Option Mod} {req : Req} {qno : Reqq} (begun : pool.submit req = .fresh) :
      Taken pool (.schedule mod req qno) (pool.schedule mod req qno)
  | scheduleBarrier {mod : Option Mod} {req : Req} {qno : Reqq} (begun : pool.submit req = .fresh) :
      Taken pool (.scheduleBarrier mod req qno) (pool.scheduleBarrier mod req qno)
  | retry {mod : Option Mod} {req : Req} {qno : Reqq} (begun : pool.submit req = .retry mod qno) :
      Taken pool (.retry req) (pool.schedule mod req qno)
  | enqueue {req : Req} {wrk : Nat} (begun : pool.submit req = .hand wrk)
      (free : ¬ pool.HoldsMtx wrk) : Taken pool (.enqueue req) (pool.workerEnqueue req wrk)
  | leaveDorman {req : Req} {wrk : Nat} (begun : pool.submit req = .dorman wrk) :
      Taken pool (.leaveDorman req) (pool.leaveDorman req wrk)
  | spawn {req : Req} {wrk : Nat} (begun : pool.submit req = .spawn wrk) :
      Taken pool (.spawn req) (pool.workerSpawnThr req wrk)
  | spawnCount {req : Req} {wrk : Nat} (begun : pool.submit req = .spawnCount wrk) :
      Taken pool (.spawnCount req) (pool.spawnCount req wrk)
  | spawnCreate {req : Req} {wrk : Nat} {created : Bool}
    (begun : pool.submit req = .spawnCreate wrk) :
      Taken pool (.spawnCreate req created) (pool.spawnCreate req wrk created)
  | spawnFailed {req : Req} {wrk : Nat} (begun : pool.submit req = .spawnFailed wrk) :
      Taken pool (.spawnFailed req) ((pool.thpSwapQueue wrk .dormanThr).setSubmit req .returned)
  | inlineRun {req : Req} (begun : pool.submit req = .inline) :
      Taken pool (.inlineRun req) ((pool.execTask req).setSubmit req .inlineRunning)
  | inlineDone {req : Req} {chained : Bool} (begun : pool.submit req = .inlineRunning) :
      Taken pool (.inlineDone req chained) ((pool.execDone req chained).setSubmit req .returned)
  | start {wrk : Nat} (here : (pool.thpWorkers wrk).pc = .start) :
      Taken pool (.start wrk) ((pool.thpSwapQueue wrk .fastThr).setPc wrk .top)
  | top {wrk : Nat} (here : (pool.thpWorkers wrk).pc = .top) : Taken pool (.top wrk)
    (pool.loopTop wrk)
  | look {wrk : Nat} (here : (pool.thpWorkers wrk).pc = .look) :
      Taken pool (.look wrk) (pool.getReqOrPutIdle wrk)
  | probe {wrk : Nat} (here : (pool.thpWorkers wrk).pc = .probe) :
      Taken pool (.probe wrk) (pool.loopProbe wrk)
  | park {wrk : Nat} (here : (pool.thpWorkers wrk).pc = .park) :
      Taken pool (.park wrk) (pool.setPc wrk .wait)
  | wake {wrk : Nat} (here : (pool.thpWorkers wrk).pc = .wait) :
      Taken pool (.wake wrk) (pool.setPc wrk .top)
  | run {wrk : Nat} {req : Req} (here : (pool.thpWorkers wrk).pc = .taken req) :
      Taken pool (.run wrk) ((pool.execTask req).setPc wrk (.running req))
  | finish {wrk : Nat} {req : Req} {chained : Bool}
    (here : (pool.thpWorkers wrk).pc = .running req) :
      Taken pool (.finish wrk chained) (pool.workerFinish wrk req chained)
  | exit {wrk : Nat} (here : (pool.thpWorkers wrk).pc = .exit) :
      Taken pool (.exit wrk) (pool.thpThreadTerminate wrk)
  | stop (begun : pool.stop = .before) : Taken pool .stop pool.thpStop
  | stopWake (begun : pool.stop = .waiting) (done : ¬ 0 < pool.thpRunThds) :
      Taken pool .stopWake { pool with stop := .verifying pool.stopChecks }
  | stopReturn (begun : pool.stop = .verifying []) : Taken pool .stopVerify
    { pool with stop := .returned }
  | stopVerify {check : StopCheck} {rest : List StopCheck}
    (begun : pool.stop = .verifying (check :: rest)) :
      Taken pool .stopVerify { pool with stop := if pool.Passes check then .verifying rest else .failed }

theorem taken_of_step {act : Act Req Mod} (stepped : pool.step act = some next) :
    Taken pool act next := by
  cases act <;> unfold step at stepped <;> dsimp only at stepped
  case top | look | probe | park | wake | start | exit =>
    split at stepped
    · cases stepped
      constructor
      assumption
    · cases stepped
  case enqueue req =>
    split at stepped
    · split at stepped
      · cases stepped
      · cases stepped
        exact .enqueue ‹_› ‹_›
    · cases stepped
  case stopWake =>
    split at stepped
    · split at stepped
      · cases stepped
      · cases stepped
        exact .stopWake ‹_› ‹_›
    · cases stepped
  case stopVerify =>
    split at stepped
    · cases stepped
      exact .stopReturn ‹_›
    · cases stepped
      exact .stopVerify ‹_›
    · cases stepped
  all_goals
    split at stepped
    · cases stepped
      constructor
      assumption
    · cases stepped

theorem taken_of_machine {act : Act Req Mod} {output : Unit}
    (stepped : (machine Req Mod).step pool act = some (next, output)) : Taken pool act next := by
  obtain ⟨after, taken, same⟩ := Option.map_eq_some_iff.mp stepped
  cases same
  exact taken_of_step taken

/-! ## Operations on the worker lists -/

/-- Only the lists, the states of the workers and the signals changed. -/
structure Relisted (pool next : ThreadPool Req Mod) : Prop where
  pool_eq : next = { pool with thpQueue := next.thpQueue, thpWorkers := next.thpWorkers }
  worker_eq : ∀ wrk, next.thpWorkers wrk = { pool.thpWorkers wrk with
    wrkState := (next.thpWorkers wrk).wrkState, missed := (next.thpWorkers wrk).missed }

namespace Relisted

theorem refl (pool : ThreadPool Req Mod) : Relisted pool pool := ⟨rfl, fun _ => rfl⟩

theorem trans {after : ThreadPool Req Mod} (first : Relisted pool next)
    (second : Relisted next after) :
    Relisted pool after where
  pool_eq := by
    rw [second.pool_eq, first.pool_eq]
  worker_eq := by
    intro wrk
    rw [second.worker_eq, first.worker_eq]

theorem pc (relisted : Relisted pool next) (wrk : Nat) :
    (next.thpWorkers wrk).pc = (pool.thpWorkers wrk).pc := by
  rw [relisted.worker_eq]

theorem wrkQueue (relisted : Relisted pool next) (wrk : Nat) :
    (next.thpWorkers wrk).wrkQueue = (pool.thpWorkers wrk).wrkQueue := by
  rw [relisted.worker_eq]

theorem wrkReqcnt (relisted : Relisted pool next) (wrk : Nat) :
    (next.thpWorkers wrk).wrkReqcnt = (pool.thpWorkers wrk).wrkReqcnt := by
  rw [relisted.worker_eq]

theorem mQueue (relisted : Relisted pool next) : next.mQueue = pool.mQueue := by
  rw [relisted.pool_eq]

theorem submit (relisted : Relisted pool next) : next.submit = pool.submit := by
  rw [relisted.pool_eq]

theorem thpSwapQueue (pool : ThreadPool Req Mod) (wrk : Nat) (qno : Thrq) :
    Relisted pool (pool.thpSwapQueue wrk qno) where
  pool_eq := rfl
  worker_eq := by
    intro other
    change update pool.thpWorkers wrk _ other = _
    by_cases same : other = wrk
    · subst same
      simp only [ThreadPool.thpSwapQueue, dlAddBack, objRm, setWorker, update_self]
      unfold workerUpdateState
      split
      · rfl
      · rfl
    · simp only [ThreadPool.thpSwapQueue, dlAddBack, objRm, setWorker, update_of_ne same]

theorem thpDequeue {qno : Thrq} {wrk : Nat} (dequeued : pool.thpDequeue qno = some (wrk, next)) :
    Relisted pool next := by
  unfold ThreadPool.thpDequeue at dequeued
  split at dequeued
  · cases dequeued
  · cases dequeued
    exact ⟨rfl, fun _ => rfl⟩

theorem dlAddFront (pool : ThreadPool Req Mod) (wrk : Nat) (qno : Thrq) :
    Relisted pool (pool.dlAddFront wrk qno) := ⟨rfl, fun _ => rfl⟩

theorem signal (pool : ThreadPool Req Mod) (wrk : Nat) (req : Req) :
    Relisted pool (pool.signal wrk req) := by
  unfold ThreadPool.signal
  dsimp only
  split
  · refine ⟨rfl, fun other => ?_⟩
    by_cases same : other = wrk
    · subst same
      simp only [setWorker, update_self]
    · simp only [setWorker, update_of_ne same]
  · exact refl pool

theorem roundRobin (pool : ThreadPool Req Mod) (wrk : Nat) (thp : Thrq) :
    Relisted pool (pool.roundRobin wrk thp).2 := by
  have swapped := thpSwapQueue pool wrk thp
  unfold ThreadPool.roundRobin
  dsimp only
  split
  · split
    · exact swapped
    · have rest := swapped.trans (thpDequeue ‹_›)
      split
      · exact rest.trans (dlAddFront _ _ _)
      · exact rest
  · exact swapped

end Relisted

/-! ## Places -/

/-- Where a request can be. -/
inductive Place (Req : Type) where
  | queue (qno : Reqq)
  | worker (wrk : Nat)
  | hand (wrk : Nat)
  | submitter (req : Req)
  deriving DecidableEq

/-- What the thread of a worker has taken and not finished. -/
def held : WorkerPc Req → List Req
  | .taken req => [req]
  | .running req => [req]
  | _ => []

/-- What a submitter has accepted and neither queued nor finished. -/
def kept (req : Req) : Submit Mod → List Req
  | .hand _ => [req]
  | .inline => [req]
  | .inlineRunning => [req]
  | _ => []

def contents (pool : ThreadPool Req Mod) : Place Req → List Req
  | .queue qno => pool.mQueue qno
  | .worker wrk => (pool.thpWorkers wrk).wrkQueue
  | .hand wrk => held (pool.thpWorkers wrk).pc
  | .submitter req => kept req (pool.submit req)

theorem Relisted.contents (relisted : Relisted pool next) : next.contents = pool.contents := by
  funext place
  cases place with
  | queue qno => exact congrFun relisted.mQueue qno
  | worker wrk => exact relisted.wrkQueue wrk
  | hand wrk => exact congrArg held (relisted.pc wrk)
  | submitter req => exact congrArg (kept req) (congrFun relisted.submit req)

theorem contents_setSubmit (pool : ThreadPool Req Mod) (req : Req) (after : Submit Mod) :
    (pool.setSubmit req after).contents =
      update pool.contents (.submitter req) (kept req after) := by
  funext place
  cases place with
  | submitter other =>
      by_cases same : other = req
      · subst same
        simp [contents, setSubmit]
      · simp [contents, setSubmit, same]
  | _ => simp [contents, setSubmit]

theorem contents_setWorker (pool : ThreadPool Req Mod) (wrk : Nat) (after : WorkerThread Req) :
    (pool.setWorker wrk after).contents =
      update (update pool.contents (.worker wrk) after.wrkQueue) (.hand wrk)
        (held after.pc) := by
  funext place
  cases place with
  | worker other =>
      by_cases same : other = wrk
      · subst same
        simp [contents, setWorker]
      · simp [contents, setWorker, same]
  | hand other =>
      by_cases same : other = wrk
      · subst same
        simp [contents, setWorker]
      · simp [contents, setWorker, same]
  | _ => simp [contents, setWorker]

theorem contents_setPc (pool : ThreadPool Req Mod) (wrk : Nat) (pc : WorkerPc Req) :
    (pool.setPc wrk pc).contents = update pool.contents (.hand wrk) (held pc) := by
  rw [setPc, contents_setWorker]
  dsimp only
  rw [show (pool.thpWorkers wrk).wrkQueue = pool.contents (.worker wrk) from rfl,
    update_eq_self]

theorem contents_modEnqueue (pool : ThreadPool Req Mod) (req : Req) (qno : Reqq) :
    (pool.modEnqueue req qno).contents =
      update pool.contents (.queue qno) (pool.mQueue qno ++ [req]) := by
  funext place
  cases place with
  | queue other =>
      by_cases same : other = qno
      · subst same
        simp [contents, modEnqueue]
      · simp [contents, modEnqueue, same]
  | _ => simp [contents, modEnqueue]

/-- What is dequeued is the front of the queue. -/
theorem modDequeue_eq {qno : Reqq} {req : Req} (dequeued : pool.modDequeue qno = some (req, next)) :
    ∃ rest, pool.mQueue qno = req :: rest ∧
      next = { pool with mQueue := update pool.mQueue qno rest } := by
  unfold modDequeue at dequeued
  split at dequeued
  · cases dequeued
  · cases dequeued
    exact ⟨_, ‹_›, rfl⟩

private theorem modDequeue_none {qno : Reqq} (none_ : pool.modDequeue qno = none) :
    pool.mQueue qno = [] := by
  unfold modDequeue at none_
  split at none_
  · assumption
  · cases none_

/-- What is dequeued is in front of the list. -/
theorem thpDequeue_eq {qno : Thrq} {wrk : Nat} (dequeued : pool.thpDequeue qno = some (wrk, next)) :
    ∃ rest, pool.thpQueue qno = wrk :: rest ∧
      next = { pool with thpQueue := update pool.thpQueue qno rest } := by
  unfold ThreadPool.thpDequeue at dequeued
  split at dequeued
  · cases dequeued
  · cases dequeued
    exact ⟨_, ‹_›, rfl⟩

theorem contents_mQueue (pool : ThreadPool Req Mod) (qno : Reqq) (rest : List Req) :
    ({ pool with mQueue := update pool.mQueue qno rest } : ThreadPool Req Mod).contents =
      update pool.contents (.queue qno) rest := by
  funext place
  cases place with
  | queue other =>
      by_cases same : other = qno
      · subst same
        simp [contents]
      · simp [contents, same]
  | _ => simp [contents]

/-! ## Promotion -/

/-- The worker lists and what a promotion changes besides them. -/
structure Promoted (pool next : ThreadPool Req Mod) : Prop where
  pool_eq : next = { pool with
    thpQueue := next.thpQueue, thpWorkers := next.thpWorkers, mQueue := next.mQueue
    thpSchedReq := next.thpSchedReq, thpBarrierCnt := next.thpBarrierCnt }
  worker_eq : ∀ wrk, next.thpWorkers wrk = { pool.thpWorkers wrk with
    wrkState := (next.thpWorkers wrk).wrkState, missed := (next.thpWorkers wrk).missed }

theorem Promoted.refl (pool : ThreadPool Req Mod) : Promoted pool pool := ⟨rfl, fun _ => rfl⟩

theorem Promoted.trans {after : ThreadPool Req Mod} (first : Promoted pool next)
    (second : Promoted next after) : Promoted pool after where
  pool_eq := by
    rw [second.pool_eq, first.pool_eq]
  worker_eq := by
    intro wrk
    rw [second.worker_eq, first.worker_eq]

theorem Promoted.pc (promoted : Promoted pool next) (wrk : Nat) :
    (next.thpWorkers wrk).pc = (pool.thpWorkers wrk).pc := by
  rw [promoted.worker_eq]

theorem Relisted.promoted (relisted : Relisted pool next) : Promoted pool next where
  pool_eq := by
    rw [relisted.pool_eq]
  worker_eq := relisted.worker_eq

/-- The first deferred request is off its queue, and scheduled. -/
def undeferred (pool : ThreadPool Req Mod) (rest : List Req) : ThreadPool Req Mod :=
  { pool with
    mQueue := update pool.mQueue .barrier rest
    thpSchedReq := pool.thpSchedReq + 1
    thpBarrierCnt := pool.thpBarrierCnt - 1 }

def resumed (pool : ThreadPool Req Mod) (rq : Req) (rest : List Req) : ThreadPool Req Mod :=
  (pool.undeferred rest).modEnqueue rq .fastQueue

/-- An idle worker, if there is one, is signalled for a request. -/
def wakeIdle (pool : ThreadPool Req Mod) (rq : Req) : ThreadPool Req Mod :=
  match pool.thpDequeue .idleThr with
  | none => pool
  | some (wrk, rest) => (rest.thpSwapQueue wrk .fastThr).signal wrk rq

theorem Relisted.wakeIdle (pool : ThreadPool Req Mod) (rq : Req) :
    Relisted pool (pool.wakeIdle rq) := by
  unfold ThreadPool.wakeIdle
  split
  · exact refl pool
  · exact ((thpDequeue ‹_›).trans (thpSwapQueue _ _ _)).trans (signal _ _ _)

theorem promoted_resumed (pool : ThreadPool Req Mod) (rq : Req) (list : List Req) :
    Promoted pool (pool.resumed rq list) := ⟨rfl, fun _ => rfl⟩

theorem contents_undeferred (pool : ThreadPool Req Mod) (rest : List Req) :
    (pool.undeferred rest).contents = update pool.contents (.queue .barrier) rest :=
  contents_mQueue pool .barrier rest

theorem contents_resumed (pool : ThreadPool Req Mod) (rq : Req) (rest : List Req) :
    (pool.resumed rq rest).contents = update
      (update pool.contents (.queue .barrier) rest) (.queue .fastQueue)
        (pool.contents (.queue .fastQueue) ++ [rq]) := by
  have fast : (pool.undeferred rest).mQueue .fastQueue = pool.mQueue .fastQueue :=
    update_of_ne (show Reqq.fastQueue ≠ .barrier by decide) rest pool.mQueue
  rw [resumed, contents_modEnqueue, fast, contents_undeferred]
  rfl

/-- Putting back the request that was dequeued changes nothing. -/
theorem modFrontQueue_modDequeue {qno : Reqq} {req : Req} {rest : ThreadPool Req Mod}
    (dequeued : pool.modDequeue qno = some (req, rest)) : rest.modFrontQueue req qno = pool := by
  obtain ⟨list, queue, rfl⟩ := modDequeue_eq dequeued
  unfold modFrontQueue
  dsimp only
  rw [update_self, update_idem, ← queue, update_eq_self]

/-- One turn of the promotion: it ends, or a request that is not a barrier moves to the fast queue
and an idle worker is signalled. -/
theorem thpPromoteBarrierLck_succ {cnt : Nat}
    (promoted : thpPromoteBarrierLck (cnt + 1) pool = some next) :
    next = pool ∨ ∃ rq list, pool.mQueue .barrier = rq :: list ∧
      (pool.request rq).rqDoneFlgs &&& Request.barrier = 0 ∧
        thpPromoteBarrierLck cnt ((pool.resumed rq list).wakeIdle rq) = some next := by
  rw [thpPromoteBarrierLck] at promoted
  split at promoted
  · cases promoted
  · rename_i rq dequeued equal
    have back := modFrontQueue_modDequeue equal
    obtain ⟨list, queue, rfl⟩ := modDequeue_eq equal
    dsimp only at promoted
    split at promoted
    · refine .inr ⟨rq, list, queue, ‹_›, ?_⟩
      have woken : ∀ found, (pool.resumed rq list).thpDequeue .idleThr = found →
          (pool.resumed rq list).wakeIdle rq = match found with
            | none => pool.resumed rq list
            | some (wrk, rest) => (rest.thpSwapQueue wrk .fastThr).signal wrk rq := by
        rintro found rfl
        rfl
      split at promoted
      · rw [woken _ ‹_›]
        exact promoted
      · rw [woken _ ‹_›]
        exact promoted
    · rw [back, Option.some.injEq] at promoted
      exact .inl promoted.symm

theorem takeBarrier_eq {wrk : Nat} (taken : pool.takeBarrier wrk = some next) :
    ∃ req list promoted, pool.mQueue .barrier = req :: list ∧
      thpPromoteBarrierLck (pool.undeferred list).thpBarrierCnt.toNat (pool.undeferred list) =
        some promoted ∧ next = promoted.setPc wrk (.taken req) := by
  obtain ⟨⟨req, dequeued⟩, equal, rest⟩ := Option.bind_eq_some_iff.mp taken
  obtain ⟨list, queue, rfl⟩ := modDequeue_eq equal
  obtain ⟨promoted, promotion, same⟩ := Option.map_eq_some_iff.mp rest
  exact ⟨req, list, promoted, queue, promotion, same.symm⟩

/-- What a relation of the pools on both sides of a turn says, a promotion says. -/
theorem promoted_of_turns (holds : ThreadPool Req Mod → Prop)
    (turn : ∀ (pool : ThreadPool Req Mod) (rq : Req) (list : List Req), holds pool →
      pool.mQueue .barrier = rq :: list → (pool.request rq).rqDoneFlgs &&& Request.barrier = 0 →
        holds ((pool.resumed rq list).wakeIdle rq)) :
    ∀ {cnt : Nat} {pool : ThreadPool Req Mod}, holds pool →
      thpPromoteBarrierLck cnt pool = some next → holds next := by
  intro cnt
  induction cnt with
  | zero =>
      intro pool held promoted
      cases promoted
      exact held
  | succ cnt ih =>
      intro pool held promoted
      rcases thpPromoteBarrierLck_succ promoted with rfl | ⟨rq, list, queue, unflagged, later⟩
      · exact held
      · exact ih (turn pool rq list held queue unflagged) later

/-! ## Sections -/

/-- Behind the critical section the request is queued. -/
def Parks : Submit Mod → Prop
  | .returned => True
  | .dorman _ => True
  | _ => False

/-- The request is not accepted yet. -/
def Unsubmitted : Submit Mod → Prop
  | .fresh => True
  | .retry _ _ => True
  | _ => False

theorem not_unsubmitted_of_parks {after : Submit Mod} (parks : Parks after) :
    ¬ Unsubmitted after := by
  cases after with
  | returned => exact id
  | dorman wrk => exact id
  | _ => exact parks.elim

/-- The worker lists are what a request for a worker changes, besides the queue it is put in. -/
theorem pickWorker_cases (pool : ThreadPool Req Mod) (req : Req) (qno : Reqq) (thp : Thrq) :
    ∃ rest, Relisted pool rest ∧
      ((∃ wrk, pool.pickWorker req qno thp = rest.setSubmit req (.hand wrk)) ∨
        (∃ after, Parks after ∧
          pool.pickWorker req qno thp = (rest.modEnqueue req qno).setSubmit req after) ∨
        (pool.thpShutdown = true ∧ pool.pickWorker req qno thp = rest.setSubmit req .inline)) := by
  unfold pickWorker
  split
  · rename_i wrk rest dequeued
    exact ⟨_, (Relisted.thpDequeue dequeued).trans (Relisted.roundRobin rest wrk thp), .inl ⟨_, rfl⟩⟩
  · split
    · exact ⟨_, Relisted.thpDequeue ‹_›, .inl ⟨_, rfl⟩⟩
    · split
      · split
        · rename_i wrk rest dequeued
          unfold thpDequeue at dequeued
          split at dequeued
          · cases dequeued
          · rename_i dormant _
            cases dequeued
            exact ⟨{ pool with thpQueue := update pool.thpQueue .dormanThr dormant },
              ⟨rfl, fun _ => rfl⟩, .inr (.inl ⟨.dorman _, trivial, rfl⟩)⟩
        · exact ⟨pool, Relisted.refl pool, .inr (.inl ⟨.returned, trivial, rfl⟩)⟩
      · rename_i running
        exact ⟨pool, Relisted.refl pool, .inr (.inr ⟨Bool.not_eq_false _ ▸ running, rfl⟩)⟩

/-- The pool as `schedule` finds it in its critical section, with the request accepted. -/
def entered (pool : ThreadPool Req Mod) (mod : Option Mod) (req : Req) : ThreadPool Req Mod :=
  accept { pool with
    request := update pool.request req { pool.request req with rqMod := mod } } req

/-- The pool with the request counted among those that are scheduled. -/
def scheduled (pool : ThreadPool Req Mod) (mod : Option Mod) (req : Req) : ThreadPool Req Mod :=
  { pool.entered mod req with thpSchedReq := pool.thpSchedReq + 1 }

theorem schedule_deferred (mod : Option Mod) (req : Req) (qno : Reqq)
    (deferred : 0 < pool.thpBarrierCnt) : pool.schedule mod req qno =
      ({ pool.entered mod req with thpBarrierCnt := pool.thpBarrierCnt + 1 }.modEnqueue req
        .barrier).setSubmit req .returned := by
  unfold schedule
  exact if_pos deferred

theorem schedule_scheduled (mod : Option Mod) (req : Req) (qno : Reqq)
    (free : ¬ 0 < pool.thpBarrierCnt) : pool.schedule mod req qno =
      match qno with
      | .fastQueue => (pool.scheduled mod req).pickWorker req .fastQueue .fastThr
      | .slowQueue => (pool.scheduled mod req).pickWorker req .slowQueue .slowThr
      | .timeWait => ((pool.scheduled mod req).modEnqueue req .timeWait).setSubmit req .returned
      | _ => ((pool.scheduled mod req).modEnqueue req .suspend).setSubmit req .returned := by
  unfold schedule
  exact if_neg free

/-- `schedule` defers the request behind a barrier, hands it to a worker, queues it, or leaves it to
its submitter. -/
theorem schedule_cases (pool : ThreadPool Req Mod) (mod : Option Mod) (req : Req) (qno : Reqq) :
    (0 < pool.thpBarrierCnt ∧ pool.schedule mod req qno =
      ({ pool.entered mod req with thpBarrierCnt := pool.thpBarrierCnt + 1 }.modEnqueue req
        .barrier).setSubmit req .returned) ∨
      (¬ 0 < pool.thpBarrierCnt ∧ ∃ rest, Relisted (pool.scheduled mod req) rest ∧
        ((∃ wrk, pool.schedule mod req qno = rest.setSubmit req (.hand wrk)) ∨
          (∃ queue after, queue ≠ .barrier ∧ (queue = qno ∨ qno = .barrier) ∧ Parks after ∧
            pool.schedule mod req qno = (rest.modEnqueue req queue).setSubmit req after) ∨
          (pool.thpShutdown = true ∧ pool.schedule mod req qno = rest.setSubmit req .inline))) := by
  by_cases deferred : 0 < pool.thpBarrierCnt
  · exact .inl ⟨deferred, schedule_deferred mod req qno deferred⟩
  · refine .inr ⟨deferred, ?_⟩
    rw [schedule_scheduled mod req qno deferred]
    have parked : ∀ queue : Reqq, queue ≠ .barrier → (queue = qno ∨ qno = .barrier) →
        ∃ other after, other ≠ .barrier ∧ (other = qno ∨ qno = .barrier) ∧ Parks after ∧
          ((pool.scheduled mod req).modEnqueue req queue).setSubmit req .returned =
            ((pool.scheduled mod req).modEnqueue req other).setSubmit req after :=
      fun queue apart given => ⟨queue, .returned, apart, given, trivial, rfl⟩
    cases qno with
    | fastQueue =>
        obtain ⟨rest, relisted, handed | ⟨after, parks, same⟩ | inline⟩ :=
          pickWorker_cases (pool.scheduled mod req) req .fastQueue .fastThr
        · exact ⟨rest, relisted, .inl handed⟩
        · exact ⟨rest, relisted, .inr (.inl ⟨.fastQueue, after, nofun, .inl rfl, parks, same⟩)⟩
        · exact ⟨rest, relisted, .inr (.inr inline)⟩
    | slowQueue =>
        obtain ⟨rest, relisted, handed | ⟨after, parks, same⟩ | inline⟩ :=
          pickWorker_cases (pool.scheduled mod req) req .slowQueue .slowThr
        · exact ⟨rest, relisted, .inl handed⟩
        · exact ⟨rest, relisted, .inr (.inl ⟨.slowQueue, after, nofun, .inl rfl, parks, same⟩)⟩
        · exact ⟨rest, relisted, .inr (.inr inline)⟩
    | timeWait =>
        exact ⟨_, Relisted.refl _, .inr (.inl (parked .timeWait nofun (.inl rfl)))⟩
    | suspend =>
        exact ⟨_, Relisted.refl _, .inr (.inl (parked .suspend nofun (.inl rfl)))⟩
    | barrier =>
        exact ⟨_, Relisted.refl _, .inr (.inl (parked .suspend nofun (.inr rfl)))⟩

/-- A worker that looks for requests has no signal behind it. -/
def looking (pool : ThreadPool Req Mod) (wrk : Nat) : ThreadPool Req Mod :=
  pool.setWorker wrk { pool.thpWorkers wrk with missed := [] }

/-- A look for requests takes one that is queued, puts the worker to sleep, or takes a barrier
request. -/
theorem getReqOrPutIdle_cases (pool : ThreadPool Req Mod) (wrk : Nat) :
    (∃ qno thr req list, (qno = .fastQueue ∧ thr = .fastThr ∨ qno = .slowQueue ∧ thr = .slowThr) ∧
      pool.mQueue qno = req :: list ∧ pool.getReqOrPutIdle wrk =
        (thpSwapQueue { pool.looking wrk with mQueue := update pool.mQueue qno list } wrk
          thr).setPc wrk (.taken req)) ∨
      (pool.mQueue .fastQueue = [] ∧ pool.mQueue .slowQueue = [] ∧
        ((pool.thpBarrierCnt = 0 ∨ 0 < pool.thpSchedReq) ∧ pool.getReqOrPutIdle wrk =
          ((pool.looking wrk).thpSwapQueue wrk .idleThr).setPc wrk .probe ∨
        ¬ (pool.thpBarrierCnt = 0 ∨ 0 < pool.thpSchedReq) ∧ pool.getReqOrPutIdle wrk =
          ((pool.looking wrk).takeBarrier wrk).getD ((pool.looking wrk).setPc wrk .failed))) := by
  generalize ran : pool.getReqOrPutIdle wrk = next
  unfold getReqOrPutIdle at ran
  dsimp only at ran
  split at ran
  · rename_i req dequeued equal
    obtain ⟨list, queue, rfl⟩ := modDequeue_eq equal
    exact .inl ⟨.fastQueue, .fastThr, req, list, .inl ⟨rfl, rfl⟩, queue, ran.symm⟩
  · rename_i noFast
    split at ran
    · rename_i req dequeued equal
      obtain ⟨list, queue, rfl⟩ := modDequeue_eq equal
      exact .inl ⟨.slowQueue, .slowThr, req, list, .inr ⟨rfl, rfl⟩, queue, ran.symm⟩
    · rename_i noSlow
      have empty : ∀ {qno : Reqq}, (pool.looking wrk).modDequeue qno = none →
          pool.mQueue qno = [] :=
        modDequeue_none
      refine .inr ⟨empty noFast, empty noSlow, ?_⟩
      split at ran
      · exact .inl ⟨‹_›, ran.symm⟩
      · exact .inr ⟨‹_›, ran.symm⟩

/-! ## What a step keeps -/

/-- What `schedule` keeps besides the queues and the workers, and how it records the request. -/
structure Entered (pool : ThreadPool Req Mod) (mod : Option Mod) (req : Req)
    (next : ThreadPool Req Mod) : Prop where
  thpMax : next.thpMax = pool.thpMax
  thpShutdown : next.thpShutdown = pool.thpShutdown
  thpRunThds : next.thpRunThds = pool.thpRunThds
  stop : next.stop = pool.stop
  accepted : next.accepted = pool.accepted ++ [req]
  finished : next.finished = pool.finished
  viaBarrier : next.viaBarrier = pool.viaBarrier
  execs : next.execs = pool.execs
  request : next.request =
    update pool.request req { pool.request req with rqMod := mod }
  submit : ∃ after, ¬ Unsubmitted after ∧ next.submit = update pool.submit req after
  mQueue : ∀ qno, next.mQueue qno = pool.mQueue qno ∨ next.mQueue qno = pool.mQueue qno ++ [req]

private theorem mQueue_modEnqueue (pool : ThreadPool Req Mod) (req : Req) (queue qno : Reqq) :
    (pool.modEnqueue req queue).mQueue qno = pool.mQueue qno ∨
      (pool.modEnqueue req queue).mQueue qno = pool.mQueue qno ++ [req] := by
  by_cases same : qno = queue
  · subst same
    exact .inr (update_self _ _ _)
  · exact .inl (update_of_ne same _ _)

theorem entered_schedule (pool : ThreadPool Req Mod) (mod : Option Mod) (req : Req) (qno : Reqq) :
    Entered pool mod req (pool.schedule mod req qno) := by
  rcases schedule_cases pool mod req qno with ⟨-, same⟩ | ⟨-, rest, relisted, outcome⟩
  · rw [same]
    exact ⟨rfl, rfl, rfl, rfl, rfl, rfl, rfl, rfl, rfl, ⟨.returned, id, rfl⟩,
      mQueue_modEnqueue _ req .barrier⟩
  · have submit : rest.submit = pool.submit := relisted.submit
    have queues : ∀ qno, rest.mQueue qno = pool.mQueue qno :=
        fun qno => congrFun relisted.mQueue qno
    -- Whatever is recorded is the same, where the request goes.
    have recorded : ∀ {after : Submit Mod} {placed : ThreadPool Req Mod}, ¬ Unsubmitted after →
        placed = { rest with mQueue := placed.mQueue } →
        (∀ qno, placed.mQueue qno = pool.mQueue qno ∨ placed.mQueue qno = pool.mQueue qno ++ [req]) →
        Entered pool mod req (placed.setSubmit req after) := by
      intro after placed behind same mQueue
      have submitted :
          (placed.setSubmit req after).submit = update pool.submit req after := by
        rw [← submit, same]
        rfl
      rw [same, relisted.pool_eq] at submitted ⊢
      exact ⟨rfl, rfl, rfl, rfl, rfl, rfl, rfl, rfl, rfl, ⟨after, behind, submitted⟩, mQueue⟩
    rcases outcome with ⟨wrk, same⟩ | ⟨queue, after, -, -, parks, same⟩ | ⟨-, same⟩
    · rw [same]
      exact recorded id rfl fun qno => .inl (queues qno)
    · rw [same]
      refine recorded (not_unsubmitted_of_parks parks) rfl fun qno => ?_
      rw [← queues qno]
      exact mQueue_modEnqueue rest req queue qno
    · rw [same]
      exact recorded id rfl fun qno => .inl (queues qno)

/-- Only the lists, the queues, their counters and the workers changed. -/
def Served (pool next : ThreadPool Req Mod) : Prop :=
  next = { pool with
    thpQueue := next.thpQueue, thpWorkers := next.thpWorkers, mQueue := next.mQueue
    thpSchedReq := next.thpSchedReq, thpBarrierCnt := next.thpBarrierCnt }

theorem served_promoted {cnt : Nat} (promotion : thpPromoteBarrierLck cnt pool = some next) :
    Promoted pool next := by
  have turn : ∀ (before : ThreadPool Req Mod) (rq : Req) (list : List Req), Promoted pool before →
      Promoted pool ((before.resumed rq list).wakeIdle rq) := fun before rq list promoted =>
    (promoted.trans (promoted_resumed before rq list)).trans
      (Relisted.wakeIdle (before.resumed rq list) rq).promoted
  exact promoted_of_turns (Promoted pool) (fun before rq list promoted _ _ =>
    turn before rq list promoted) (Promoted.refl pool) promotion

private theorem served_setPc {wrk : Nat} (served : Served pool next) (pc : WorkerPc Req) :
    Served pool (next.setPc wrk pc) := by
  unfold Served at served
  rw [served]
  rfl

private theorem served_thpSwapQueue {wrk : Nat} (served : Served pool next) (qno : Thrq) :
    Served pool (next.thpSwapQueue wrk qno) := by
  unfold Served at served
  rw [served]
  rfl

theorem served_looking (pool : ThreadPool Req Mod) (wrk : Nat) : Served pool (pool.looking wrk) :=
  rfl

theorem served_getReqOrPutIdle (pool : ThreadPool Req Mod) (wrk : Nat) :
    Served pool (pool.getReqOrPutIdle wrk) := by
  rcases getReqOrPutIdle_cases pool wrk with ⟨qno, thr, req, list, -, -, same⟩ |
    ⟨-, -, ⟨-, same⟩ | ⟨-, same⟩⟩
  · have dequeued : Served pool
        { pool.looking wrk with mQueue := update pool.mQueue qno list } := rfl
    rw [same]
    exact served_setPc (served_thpSwapQueue dequeued thr) _
  · rw [same]
    exact served_setPc (served_thpSwapQueue (served_looking pool wrk) .idleThr) _
  · rw [same]
    cases taken : (pool.looking wrk).takeBarrier wrk with
    | none => exact served_setPc (served_looking pool wrk) _
    | some after =>
        obtain ⟨req, list, promoted, -, promotion, rfl⟩ := takeBarrier_eq taken
        unfold Served
        rw [Option.getD_some, (served_promoted promotion).pool_eq]
        rfl

/-- The steps that put requests into the queues of the pool, or take them out. -/
def Moves : Act Req Mod → Prop
  | .schedule _ _ _ => True
  | .scheduleBarrier _ _ _ => True
  | .retry _ => True
  | .look _ => True
  | _ => False

/-- What the other steps keep. -/
structure Stays (pool next : ThreadPool Req Mod) : Prop where
  mQueue : next.mQueue = pool.mQueue
  accepted : next.accepted = pool.accepted
  viaBarrier : next.viaBarrier = pool.viaBarrier
  thpMax : next.thpMax = pool.thpMax
  finished : ∀ req, pool.finished req = true → next.finished req = true
  request : ∀ req, next.request req = pool.request req ∨ next.finished req = true
  unsubmitted : ∀ req, Unsubmitted (next.submit req) → next.submit req = pool.submit req
  submitted : ∀ req, Unsubmitted (pool.submit req) → next.submit req = pool.submit req

theorem Stays.refl (pool : ThreadPool Req Mod) : Stays pool pool :=
  ⟨rfl, rfl, rfl, rfl, fun _ => id, fun _ => .inl rfl, fun _ _ => rfl, fun _ _ => rfl⟩

theorem Relisted.stays (relisted : Relisted pool next) : Stays pool next := by
  rw [relisted.pool_eq]
  exact ⟨rfl, rfl, rfl, rfl, fun _ => id, fun _ => .inl rfl, fun _ _ => rfl, fun _ _ => rfl⟩

theorem Stays.setSubmit (stays : Stays pool next) {req : Req}
    (before : ¬ Unsubmitted (pool.submit req))
    {after : Submit Mod} (behind : ¬ Unsubmitted after) :
    Stays pool (next.setSubmit req after) where
  mQueue := stays.mQueue
  accepted := stays.accepted
  viaBarrier := stays.viaBarrier
  thpMax := stays.thpMax
  finished := stays.finished
  request := stays.request
  unsubmitted := by
    intro other unsubmitted
    by_cases same : other = req
    · subst same
      simp only [ThreadPool.setSubmit, update_self] at unsubmitted
      exact (behind unsubmitted).elim
    · simp only [ThreadPool.setSubmit, update_of_ne same] at unsubmitted ⊢
      exact stays.unsubmitted other unsubmitted
  submitted := by
    intro other unsubmitted
    by_cases same : other = req
    · exact (before (same ▸ unsubmitted)).elim
    · simp only [ThreadPool.setSubmit, update_of_ne same]
      exact stays.submitted other unsubmitted

theorem Stays.setWorker (stays : Stays pool next) (wrk : Nat) (after : WorkerThread Req) :
    Stays pool (next.setWorker wrk after) :=
  ⟨stays.mQueue, stays.accepted, stays.viaBarrier, stays.thpMax, stays.finished, stays.request,
    stays.unsubmitted, stays.submitted⟩

theorem Stays.setPc (stays : Stays pool next) (wrk : Nat) (pc : WorkerPc Req) :
    Stays pool (next.setPc wrk pc) := stays.setWorker wrk _

theorem Stays.relisted (stays : Stays pool next) {after : ThreadPool Req Mod}
    (relisted : Relisted next after) : Stays pool after := by
  rw [relisted.pool_eq]
  exact ⟨stays.mQueue, stays.accepted, stays.viaBarrier, stays.thpMax, stays.finished, stays.request,
    stays.unsubmitted, stays.submitted⟩

private theorem stays_thpRunThds (pool : ThreadPool Req Mod) (count : Int) :
    Stays pool { pool with thpRunThds := count } :=
  ⟨rfl, rfl, rfl, rfl, fun _ => id, fun _ => .inl rfl, fun _ _ => rfl, fun _ _ => rfl⟩

theorem stays_execTask (pool : ThreadPool Req Mod) (req : Req) : Stays pool (pool.execTask req) :=
  ⟨rfl, rfl, rfl, rfl, fun _ => id, fun _ => .inl rfl, fun _ _ => rfl, fun _ _ => rfl⟩

/-- A request is done at its end, and no other one. -/
theorem stays_execDone (pool : ThreadPool Req Mod) (req : Req) (chained : Bool) :
    Stays pool (pool.execDone req chained) where
  mQueue := rfl
  accepted := rfl
  viaBarrier := rfl
  thpMax := rfl
  finished := by
    intro other done
    by_cases same : other = req
    · subst same
      exact update_self _ _ _
    · exact (update_of_ne same _ _).trans done
  request := by
    intro other
    by_cases same : other = req
    · subst same
      exact .inr (update_self _ _ _)
    · refine .inl ?_
      unfold execDone
      dsimp only
      split
      · exact update_of_ne same _ _
      · rfl
  unsubmitted := fun _ _ => rfl
  submitted := fun _ _ => rfl

theorem Taken.stays {act : Act Req Mod} (taken : Taken pool act next) (still : ¬ Moves act) :
    Stays pool next := by
  have here := Stays.refl pool
  cases taken with
  | schedule | scheduleBarrier | retry | look => exact (still trivial).elim
  | @enqueue req wrk begun free =>
      have begun : ¬ Unsubmitted (pool.submit req) := begun ▸ id
      unfold workerEnqueue
      dsimp only
      split
      · exact ((here.setWorker wrk _).relisted (Relisted.signal _ wrk req)).setSubmit begun id
      · exact here.setSubmit begun id
  | @leaveDorman req wrk begun =>
      have begun : ¬ Unsubmitted (pool.submit req) := begun ▸ id
      unfold ThreadPool.leaveDorman
      split
      · exact here.setSubmit begun id
      · exact here.setSubmit begun id
  | @spawn req wrk begun =>
      have begun : ¬ Unsubmitted (pool.submit req) := begun ▸ id
      unfold workerSpawnThr
      dsimp only
      split
      · exact here.setSubmit begun id
      · exact (here.setWorker _ _).setSubmit begun id
  | spawnCount begun => exact ((stays_thpRunThds pool _).setPc _ _).setSubmit (begun ▸ id) id
  | @spawnCreate req wrk created begun =>
      have begun : ¬ Unsubmitted (pool.submit req) := begun ▸ id
      unfold ThreadPool.spawnCreate
      dsimp only
      split
      · exact (here.setWorker _ _).setSubmit begun id
      · exact ((stays_thpRunThds pool _).setWorker _ _).setSubmit begun id
  | spawnFailed begun =>
      exact (Relisted.thpSwapQueue pool _ .dormanThr).stays.setSubmit (begun ▸ id) id
  | inlineRun begun => exact (stays_execTask pool _).setSubmit (begun ▸ id) id
  | inlineDone begun => exact (stays_execDone pool _ _).setSubmit (begun ▸ id) id
  | start => exact (Relisted.thpSwapQueue pool _ .fastThr).stays.setPc _ _
  | top =>
      unfold loopTop
      dsimp only
      split
      · exact here.setWorker _ _
      · split
        · exact here.setPc _ _
        · exact here.setWorker _ _
  | probe =>
      unfold loopProbe
      split
      · exact here.setWorker _ _
      · split
        · exact here.setPc _ _
        · exact here.setPc _ _
  | park => exact here.setPc _ _
  | wake => exact here.setPc _ _
  | run => exact (stays_execTask pool _).setPc _ _
  | @finish wrk req chained =>
      have done := stays_execDone pool req chained
      have counted :
          Stays pool { pool.execDone req chained with thpSchedReq := pool.thpSchedReq - 1 } :=
        ⟨done.mQueue, done.accepted, done.viaBarrier, done.thpMax, done.finished, done.request,
          done.unsubmitted, done.submitted⟩
      exact counted.setPc wrk .top
  | exit =>
      exact ((stays_thpRunThds pool _).relisted (Relisted.thpSwapQueue _ _ .dormanThr)).setPc _ _
  | stop | stopWake | stopReturn | stopVerify =>
      exact ⟨rfl, rfl, rfl, rfl, fun _ => id, fun _ => .inl rfl, fun _ _ => rfl, fun _ _ => rfl⟩

/-- No thread is counted, no execution begins or ends, and `thp_stop` stays where it is. -/
structure Frame (pool next : ThreadPool Req Mod) : Prop where
  thpShutdown : next.thpShutdown = pool.thpShutdown
  thpRunThds : next.thpRunThds = pool.thpRunThds
  stop : next.stop = pool.stop
  execs : next.execs = pool.execs
  finished : next.finished = pool.finished

theorem Frame.refl (pool : ThreadPool Req Mod) : Frame pool pool := ⟨rfl, rfl, rfl, rfl, rfl⟩

theorem Frame.setSubmit (frame : Frame pool next) (req : Req) (after : Submit Mod) :
    Frame pool (next.setSubmit req after) :=
  ⟨frame.thpShutdown, frame.thpRunThds, frame.stop, frame.execs, frame.finished⟩

theorem Frame.setWorker (frame : Frame pool next) (wrk : Nat) (after : WorkerThread Req) :
    Frame pool (next.setWorker wrk after) :=
  ⟨frame.thpShutdown, frame.thpRunThds, frame.stop, frame.execs, frame.finished⟩

theorem Frame.relisted (frame : Frame pool next) {after : ThreadPool Req Mod}
    (relisted : Relisted next after) : Frame pool after := by
  rw [relisted.pool_eq]
  exact ⟨frame.thpShutdown, frame.thpRunThds, frame.stop, frame.execs, frame.finished⟩

theorem Entered.frame {mod : Option Mod} {req : Req} (entered : Entered pool mod req next) :
    Frame pool next :=
  ⟨entered.thpShutdown, entered.thpRunThds, entered.stop, entered.execs, entered.finished⟩

/-- The steps that none of these is about. -/
def Plain : Act Req Mod → Prop
  | .spawnCount _ => False
  | .spawnCreate _ _ => False
  | .exit _ => False
  | .run _ => False
  | .inlineRun _ => False
  | .finish _ _ => False
  | .inlineDone _ _ => False
  | .stop => False
  | .stopWake => False
  | .stopVerify => False
  | _ => True

theorem Taken.frame {act : Act Req Mod} (taken : Taken pool act next) (plain : Plain act) :
    Frame pool next := by
  have here := Frame.refl pool
  cases taken with
  | spawnCount | spawnCreate | exit | run | finish | inlineRun | inlineDone | stop | stopWake
  | stopReturn | stopVerify => exact plain.elim
  | schedule begun => exact (entered_schedule _ _ _ _).frame
  | retry begun => exact (entered_schedule _ _ _ _).frame
  | scheduleBarrier =>
      unfold ThreadPool.scheduleBarrier
      dsimp only
      split
      · exact ⟨rfl, rfl, rfl, rfl, rfl⟩
      · exact ⟨rfl, rfl, rfl, rfl, rfl⟩
  | @look wrk =>
      rw [served_getReqOrPutIdle pool wrk]
      exact ⟨rfl, rfl, rfl, rfl, rfl⟩
  | @enqueue req wrk =>
      unfold workerEnqueue
      dsimp only
      split
      · exact ((here.setWorker wrk _).relisted (Relisted.signal _ wrk req)).setSubmit req _
      · exact here.setSubmit req _
  | leaveDorman =>
      unfold ThreadPool.leaveDorman
      split
      · exact here.setSubmit _ _
      · exact here.setSubmit _ _
  | spawn =>
      unfold workerSpawnThr
      dsimp only
      split
      · exact here.setSubmit _ _
      · exact (here.setWorker _ _).setSubmit _ _
  | spawnFailed => exact (here.relisted (Relisted.thpSwapQueue pool _ .dormanThr)).setSubmit _ _
  | start => exact (here.relisted (Relisted.thpSwapQueue pool _ .fastThr)).setWorker _ _
  | top =>
      unfold loopTop
      dsimp only
      split
      · exact here.setWorker _ _
      · split
        · exact here.setWorker _ _
        · exact here.setWorker _ _
  | probe =>
      unfold loopProbe
      split
      · exact here.setWorker _ _
      · split
        · exact here.setWorker _ _
        · exact here.setWorker _ _
  | park => exact here.setWorker _ _
  | wake => exact here.setWorker _ _

theorem Taken.execs_eq {act : Act Req Mod} (taken : Taken pool act next)
    (begins : ∀ wrk, act ≠ .run wrk)
    (inline : ∀ req, act ≠ .inlineRun req) : next.execs = pool.execs := by
  by_cases plain : Plain act
  · exact (taken.frame plain).execs
  · cases taken with
    | run => exact (begins _ rfl).elim
    | inlineRun => exact (inline _ rfl).elim
    | spawnCreate =>
        unfold ThreadPool.spawnCreate
        dsimp only
        split
        · rfl
        · rfl
    | spawnCount | exit | finish | inlineDone | stop | stopWake | stopReturn | stopVerify => rfl
    | _ => exact (plain trivial).elim

/-- Only `thp_stop` shuts the pool down. -/
theorem Taken.thpShutdown_eq {act : Act Req Mod} (taken : Taken pool act next)
    (other : act ≠ .stop) :
    next.thpShutdown = pool.thpShutdown := by
  by_cases plain : Plain act
  · exact (taken.frame plain).thpShutdown
  · cases taken with
    | spawnCreate =>
        unfold ThreadPool.spawnCreate
        dsimp only
        split
        · rfl
        · rfl
    | spawnCount | exit | run | finish | inlineRun | inlineDone | stopWake | stopReturn | stopVerify => rfl
    | stop => exact (other rfl).elim
    | _ => exact (plain trivial).elim

theorem mQueue_resumed (pool : ThreadPool Req Mod) (rq : Req) (list : List Req) :
    (pool.resumed rq list).mQueue = update (update pool.mQueue .barrier list)
      .fastQueue (pool.mQueue .fastQueue ++ [rq]) := by
  have fast : (pool.undeferred list).mQueue .fastQueue = pool.mQueue .fastQueue :=
    update_of_ne (show Reqq.fastQueue ≠ .barrier by decide) list pool.mQueue
  rw [← fast]
  rfl

/-- The queues that no promotion touches. -/
theorem mQueue_of_promoted {cnt : Nat} {qno : Reqq} (fast : qno ≠ .fastQueue)
    (barrier : qno ≠ .barrier)
    (promoted : thpPromoteBarrierLck cnt pool = some next) : next.mQueue qno = pool.mQueue qno := by
  have kept : ∀ (turn : ThreadPool Req Mod) (rq : Req) (list : List Req),
      turn.mQueue qno = pool.mQueue qno →
        ((turn.resumed rq list).wakeIdle rq).mQueue qno = pool.mQueue qno := by
    intro turn rq list same
    rw [(Relisted.wakeIdle (turn.resumed rq list) rq).mQueue, mQueue_resumed,
      update_of_ne fast, update_of_ne barrier]
    exact same
  exact promoted_of_turns (fun turn => turn.mQueue qno = pool.mQueue qno)
    (fun turn rq list same _ _ => kept turn rq list same) rfl promoted

/-- A look for requests takes them from the fast, the slow and the barrier queue. -/
theorem mQueue_getReqOrPutIdle (wrk : Nat) {qno : Reqq} (fast : qno ≠ .fastQueue)
    (slow : qno ≠ .slowQueue) (barrier : qno ≠ .barrier) :
    (pool.getReqOrPutIdle wrk).mQueue qno = pool.mQueue qno := by
  rcases getReqOrPutIdle_cases pool wrk with ⟨other, thr, req, list, served, -, same⟩ |
    ⟨-, -, ⟨-, same⟩ | ⟨-, same⟩⟩
  · have apart : qno ≠ other := by
      rcases served with ⟨rfl, -⟩ | ⟨rfl, -⟩
      · exact fast
      · exact slow
    rw [same]
    exact update_of_ne apart _ _
  · rw [same]
    rfl
  · rw [same]
    cases taken : (pool.looking wrk).takeBarrier wrk with
    | none => rfl
    | some after =>
        obtain ⟨req, list, promoted, -, promotion, rfl⟩ := takeBarrier_eq taken
        exact (mQueue_of_promoted fast barrier promotion).trans (update_of_ne barrier _ _)

/-! ## Threads -/

theorem Served.pc (pool : ThreadPool Req Mod) {wrk other : Nat} (apart : other ≠ wrk) :
    ((pool.getReqOrPutIdle wrk).thpWorkers other).pc = (pool.thpWorkers other).pc := by
  have here : ((pool.looking wrk).thpWorkers other).pc = (pool.thpWorkers other).pc := by
    simp only [looking, setWorker, update_of_ne apart]
  have moved : ∀ (before : ThreadPool Req Mod) (pc : WorkerPc Req),
      ((before.setPc wrk pc).thpWorkers other).pc = (before.thpWorkers other).pc := by
    intro before pc
    simp only [setPc, setWorker, update_of_ne apart]
  rcases getReqOrPutIdle_cases pool wrk with ⟨qno, thr, req, list, -, -, same⟩ |
    ⟨-, -, ⟨-, same⟩ | ⟨-, same⟩⟩
  · rw [same, moved, (Relisted.thpSwapQueue _ wrk thr).pc]
    exact here
  · rw [same, moved, (Relisted.thpSwapQueue _ wrk .idleThr).pc]
    exact here
  · rw [same]
    cases taken : (pool.looking wrk).takeBarrier wrk with
    | none =>
        rw [Option.getD_none, moved]
        exact here
    | some after =>
        obtain ⟨req, list, promoted, -, promotion, rfl⟩ := takeBarrier_eq taken
        rw [Option.getD_some, moved, (served_promoted promotion).pc]
        exact here

/-- The worker whose thread a step is about. -/
def actor (pool : ThreadPool Req Mod) : Act Req Mod → Option Nat
  | .spawnCount req =>
      match pool.submit req with
      | .spawnCount wrk => some wrk
      | _ => none
  | .spawnCreate req _ =>
      match pool.submit req with
      | .spawnCreate wrk => some wrk
      | _ => none
  | .start wrk => some wrk
  | .top wrk => some wrk
  | .look wrk => some wrk
  | .probe wrk => some wrk
  | .park wrk => some wrk
  | .wake wrk => some wrk
  | .run wrk => some wrk
  | .finish wrk _ => some wrk
  | .exit wrk => some wrk
  | _ => none

private theorem pc_schedule (pool : ThreadPool Req Mod) (mod : Option Mod) (req : Req) (qno : Reqq)
    (wrk : Nat) :
    ((pool.schedule mod req qno).thpWorkers wrk).pc = (pool.thpWorkers wrk).pc ∧
      ((pool.schedule mod req qno).thpWorkers wrk).wrkQueue = (pool.thpWorkers wrk).wrkQueue := by
  rcases schedule_cases pool mod req qno with ⟨-, same⟩ | ⟨-, rest, relisted, outcome⟩
  · rw [same]
    exact ⟨rfl, rfl⟩
  · have workers : (rest.thpWorkers wrk).pc = (pool.thpWorkers wrk).pc ∧
        (rest.thpWorkers wrk).wrkQueue = (pool.thpWorkers wrk).wrkQueue :=
      ⟨relisted.pc wrk, relisted.wrkQueue wrk⟩
    rcases outcome with ⟨other, same⟩ | ⟨queue, after, -, -, -, same⟩ | ⟨-, same⟩
    · rw [same]
      exact workers
    · rw [same]
      exact workers
    · rw [same]
      exact workers

/-- Every other thread stays where it is. -/
theorem Taken.pc_eq {act : Act Req Mod} (taken : Taken pool act next) {wrk : Nat}
    (other : pool.actor act ≠ some wrk) : (next.thpWorkers wrk).pc = (pool.thpWorkers wrk).pc := by
  have moved : ∀ (before : ThreadPool Req Mod) {actor : Nat} (after : WorkerThread Req), actor ≠
      wrk →
      ((before.setWorker actor after).thpWorkers wrk).pc = (before.thpWorkers wrk).pc := by
    intro before actor after apart
    simp only [setWorker, update_of_ne apart.symm]
  have kept : ∀ (before : ThreadPool Req Mod) {actor : Nat} (after : WorkerThread Req),
      after.pc = (before.thpWorkers actor).pc →
        ((before.setWorker actor after).thpWorkers wrk).pc = (before.thpWorkers wrk).pc := by
    intro before actor after same
    by_cases here : wrk = actor
    · subst here
      simp only [setWorker, update_self, same]
    · exact moved before after (Ne.symm here)
  cases taken with
  | schedule => exact (pc_schedule _ _ _ _ wrk).1
  | retry => exact (pc_schedule _ _ _ _ wrk).1
  | scheduleBarrier =>
      unfold ThreadPool.scheduleBarrier
      dsimp only
      split
      · rfl
      · rfl
  | @enqueue req actor =>
      unfold workerEnqueue
      dsimp only
      split
      · have signalled := (Relisted.signal (pool.setWorker actor { pool.thpWorkers actor with
          wrkReqcnt := (pool.thpWorkers actor).wrkReqcnt + 1
          wrkQueue := (pool.thpWorkers actor).wrkQueue ++ [req] }) actor req).pc wrk
        exact signalled.trans (kept pool _ rfl)
      · rfl
  | leaveDorman =>
      unfold ThreadPool.leaveDorman
      split
      · rfl
      · rfl
  | spawn =>
      unfold workerSpawnThr
      dsimp only
      split
      · rfl
      · exact kept pool _ rfl
  | spawnCount begun =>
      rw [actor, begun] at other
      exact moved _ _ fun same => other (congrArg some same)
  | spawnCreate begun =>
      rw [actor, begun] at other
      have apart := fun same => other (congrArg some same)
      unfold ThreadPool.spawnCreate
      dsimp only
      split
      · exact moved pool _ apart
      · exact moved _ _ apart
  | spawnFailed => exact (Relisted.thpSwapQueue pool _ .dormanThr).pc wrk
  | inlineRun => rfl
  | inlineDone => rfl
  | @start actor =>
      exact (moved _ _ fun same => other (congrArg some same)).trans
        ((Relisted.thpSwapQueue pool actor .fastThr).pc wrk)
  | top =>
      have apart := fun same => other (congrArg some same)
      unfold loopTop
      dsimp only
      split
      · exact moved pool _ apart
      · split
        · exact moved pool _ apart
        · exact moved pool _ apart
  | look => exact Served.pc pool fun same => other (congrArg some same.symm)
  | probe =>
      have apart := fun same => other (congrArg some same)
      unfold loopProbe
      split
      · exact moved pool _ apart
      · split
        · exact moved pool _ apart
        · exact moved pool _ apart
  | park => exact moved pool _ fun same => other (congrArg some same)
  | wake => exact moved pool _ fun same => other (congrArg some same)
  | @run actor req => exact moved (pool.execTask req) _ fun same => other (congrArg some same)
  | @finish actor req chained =>
      exact moved { pool.execDone req chained with thpSchedReq := pool.thpSchedReq - 1 } _
        fun same => other (congrArg some same)
  | @exit actor =>
      exact (moved _ _ fun same => other (congrArg some same)).trans
        ((Relisted.thpSwapQueue { pool with thpRunThds := pool.thpRunThds - 1 } actor .dormanThr).pc wrk)
  | stop =>
      by_cases inside : wrk < pool.thpMax
      · simp only [thpStop, if_pos inside]
      · simp only [thpStop, if_neg inside]
  | stopWake => rfl
  | stopReturn => rfl
  | stopVerify => rfl

end ThreadPool

end Tvntd
