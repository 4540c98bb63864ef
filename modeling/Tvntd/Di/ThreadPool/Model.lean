import Mathlib.Logic.Function.Basic
import Tvntd.Lib.Machine

/-! # The thread pool

`ThreadPool` and `WorkerThread` of `common/di/request.cpp`. Every critical
section under `m_mod_mtx`, every critical section of a submitter under a
worker's `wrk_mtx`, and every update of an atomic counter is one step; a worker
that holds its own `wrk_mtx` over several steps has a place in its loop for each
of them. Between the steps any other thread may run.

A request stands for one submission. Workers are numbered as in `thp_workers`. A
wait on `wrk_cv` may end at any time, so a signal changes nothing but the list
of those that nobody waited for. What is not in the source is the record of the
submissions: the requests accepted, in order, those finished, those submitted
with `schedule_barrier`, and the modules that every request was executed by. The
counters of the pool are not bounded: fewer than 2^31 requests are outstanding.
-/

namespace Tvntd

open Function

/-- The queues of requests, `m_queue`. -/
inductive Reqq where
  | fastQueue
  | slowQueue
  | timeWait
  | suspend
  | barrier
  deriving DecidableEq

/-- The queues of workers, `thp_queue`. -/
inductive Thrq where
  | idleThr
  | fastThr
  | slowThr
  | dormanThr
  deriving DecidableEq

/-- `thp_state_e` -/
inductive ThpState where
  | idle
  | spawning
  | fastThread
  | slowThread
  | terminate
  deriving DecidableEq

/-- `wrk_qmap` -/
def Thrq.wrkState : Thrq → ThpState
  | idleThr => .idle
  | fastThr => .fastThread
  | slowThr => .slowThread
  | dormanThr => .terminate

/-- Where the thread of a worker is. -/
inductive WorkerPc (Req : Type) where
  /-- There is no thread. -/
  | out
  /-- `pthread_create` is called. -/
  | creating
  /-- At the beginning of `worker_loop`. -/
  | start
  /-- At the condition of the loop. -/
  | top
  /-- Before `get_req_or_put_idle`, with `wrk_mtx`. -/
  | look
  /-- Behind `get_req_or_put_idle`, which had no request, with `wrk_mtx`. -/
  | probe
  /-- Before `pthread_cond_wait`, with `wrk_mtx`. -/
  | park
  | wait
  | taken (req : Req)
  | running (req : Req)
  /-- Behind the loop. -/
  | exit
  /-- A `verify` failed. -/
  | failed
  deriving DecidableEq

structure WorkerThread (Req : Type) where
  wrkState : ThpState
  wrkReqcnt : Int
  /-- `wrk_thr_id` is not 0. -/
  wrkThrId : Bool
  wrkQueue : List Req
  pc : WorkerPc Req
  /-- Signalled for these requests since the last look for requests, while nobody waited. -/
  missed : List Req

/-- The fields of a request that the pool reads. -/
structure Request (Mod : Type) where
  rqMod : Option Mod
  rqDoneFlgs : BitVec 32

namespace Request

def waiting : BitVec 32 := 0x0000

def complete : BitVec 32 := 0x0001

def barrier : BitVec 32 := 0x8000

end Request

/-- Where the submission of a request is. -/
inductive Submit (Mod : Type) where
  | fresh
  /-- `schedule_barrier` goes on to `schedule`. -/
  | retry (mod : Option Mod) (qno : Reqq)
  /-- Before `worker_enqueue`. -/
  | hand (wrk : Nat)
  /-- Queued, with a dormant worker. -/
  | dorman (wrk : Nat)
  /-- Before `worker_spawn_thr`, and in it. -/
  | spawn (wrk : Nat)
  | spawnCount (wrk : Nat)
  | spawnCreate (wrk : Nat)
  | spawnFailed (wrk : Nat)
  /-- Before `req_exec_task`, and in it. -/
  | inline
  | inlineRunning
  | returned

/-- What `thp_stop` verifies at its end. -/
inductive StopCheck where
  | runThds
  | worker (wrk : Nat)
  | queue (qno : Reqq)

/-- Where `thp_stop` is. -/
inductive Stop where
  | before
  | waiting
  | verifying (checks : List StopCheck)
  | returned
  | failed

structure ThreadPool (Req Mod : Type) where
  thpMax : Nat
  thpShutdown : Bool
  thpBarrierCnt : Int
  thpSchedReq : Int
  thpRunThds : Int
  mQueue : Reqq → List Req
  thpQueue : Thrq → List Nat
  thpWorkers : Nat → WorkerThread Req
  request : Req → Request Mod
  submit : Req → Submit Mod
  stop : Stop
  accepted : List Req
  finished : Req → Bool
  viaBarrier : Req → Bool
  execs : Req → List (Option Mod)

namespace ThreadPool

variable {Req Mod : Type} [DecidableEq Req]

def reqMaxRr : Int := 8

def setWorker (pool : ThreadPool Req Mod) (wrk : Nat) (next : WorkerThread Req) :
    ThreadPool Req Mod :=
  { pool with thpWorkers := update pool.thpWorkers wrk next }

def setPc (pool : ThreadPool Req Mod) (wrk : Nat) (pc : WorkerPc Req) : ThreadPool Req Mod :=
  pool.setWorker wrk { pool.thpWorkers wrk with pc := pc }

def setSubmit (pool : ThreadPool Req Mod) (req : Req) (next : Submit Mod) : ThreadPool Req Mod :=
  { pool with submit := update pool.submit req next }

/-! ## Queues -/

def modEnqueue (pool : ThreadPool Req Mod) (req : Req) (qno : Reqq) : ThreadPool Req Mod :=
  { pool with mQueue := update pool.mQueue qno (pool.mQueue qno ++ [req]) }

def modFrontQueue (pool : ThreadPool Req Mod) (req : Req) (qno : Reqq) : ThreadPool Req Mod :=
  { pool with mQueue := update pool.mQueue qno (req :: pool.mQueue qno) }

def modDequeue (pool : ThreadPool Req Mod) (qno : Reqq) : Option (Req × ThreadPool Req Mod) :=
  match pool.mQueue qno with
  | [] => none
  | req :: rest => some (req, { pool with mQueue := update pool.mQueue qno rest })

def workerUpdateState (wrk : WorkerThread Req) (qno : Thrq) : WorkerThread Req :=
  if wrk.wrkState ≠ .terminate then { wrk with wrkState := qno.wrkState } else wrk

/-- A worker is in one list at most. -/
def objRm (pool : ThreadPool Req Mod) (wrk : Nat) : ThreadPool Req Mod :=
  { pool with thpQueue := fun qno => (pool.thpQueue qno).filter (· ≠ wrk) }

def dlAddBack (pool : ThreadPool Req Mod) (wrk : Nat) (qno : Thrq) : ThreadPool Req Mod :=
  { pool with thpQueue := update pool.thpQueue qno (pool.thpQueue qno ++ [wrk]) }

def dlAddFront (pool : ThreadPool Req Mod) (wrk : Nat) (qno : Thrq) : ThreadPool Req Mod :=
  { pool with thpQueue := update pool.thpQueue qno (wrk :: pool.thpQueue qno) }

def thpSwapQueue (pool : ThreadPool Req Mod) (wrk : Nat) (qno : Thrq) : ThreadPool Req Mod :=
  ((pool.setWorker wrk (workerUpdateState (pool.thpWorkers wrk) qno)).objRm wrk).dlAddBack wrk qno

def thpDequeue (pool : ThreadPool Req Mod) (qno : Thrq) : Option (Nat × ThreadPool Req Mod) :=
  match pool.thpQueue qno with
  | [] => none
  | wrk :: rest => some (wrk, { pool with thpQueue := update pool.thpQueue qno rest })

/-- A signal for a request. It is lost on a worker that is about to wait. -/
def signal (pool : ThreadPool Req Mod) (wrk : Nat) (req : Req) : ThreadPool Req Mod :=
  let next := pool.thpWorkers wrk
  if next.pc = .probe ∨ next.pc = .park then
    pool.setWorker wrk { next with missed := req :: next.missed }
  else pool

/-! ## Submitting -/

/-- The request is one of the pool from here on. -/
def accept (pool : ThreadPool Req Mod) (req : Req) : ThreadPool Req Mod :=
  { pool with accepted := pool.accepted ++ [req] }

/-- The worker in front of a tracking list goes to its end; another one is taken if it has many
requests. -/
def roundRobin (pool : ThreadPool Req Mod) (wrk : Nat) (thp : Thrq) : Nat × ThreadPool Req Mod :=
  let swapped := pool.thpSwapQueue wrk thp
  if reqMaxRr < (swapped.thpWorkers wrk).wrkReqcnt then
    match swapped.thpDequeue thp with
    -- The worker itself is in the list.
    | none => (wrk, swapped)
    | some (front, rest) =>
        if front ≠ wrk ∧ (rest.thpWorkers front).wrkReqcnt < reqMaxRr then
          (front, rest.dlAddFront front thp)
        else (front, rest)
  else (wrk, swapped)

/-- A request for the workers of a tracking list. -/
def pickWorker (pool : ThreadPool Req Mod) (req : Req) (qno : Reqq) (thp : Thrq) :
    ThreadPool Req Mod :=
  match pool.thpDequeue thp with
  | some (wrk, rest) =>
      let (wrk, rest) := rest.roundRobin wrk thp
      rest.setSubmit req (.hand wrk)
  | none =>
      match pool.thpDequeue .idleThr with
      | some (wrk, rest) => rest.setSubmit req (.hand wrk)
      | none =>
          if pool.thpShutdown = false then
            match (pool.modEnqueue req qno).thpDequeue .dormanThr with
            | some (wrk, rest) => rest.setSubmit req (.dorman wrk)
            | none => (pool.modEnqueue req qno).setSubmit req .returned
          else pool.setSubmit req .inline

/-- The critical section of `schedule`, and the store to `rq_mod` before it. -/
def schedule (pool : ThreadPool Req Mod) (mod : Option Mod) (req : Req) (qno : Reqq) :
    ThreadPool Req Mod :=
  let pool : ThreadPool Req Mod := { pool with
    request := update pool.request req { pool.request req with rqMod := mod } }
  let pool := pool.accept req
  -- Check if we must be pending in the barrier queue.
  if 0 < pool.thpBarrierCnt then
    ({ pool with thpBarrierCnt := pool.thpBarrierCnt + 1 }.modEnqueue req .barrier).setSubmit req .returned
  else
    let pool := { pool with thpSchedReq := pool.thpSchedReq + 1 }
    match qno with
    | .fastQueue => pool.pickWorker req .fastQueue .fastThr
    | .slowQueue => pool.pickWorker req .slowQueue .slowThr
    | .timeWait => (pool.modEnqueue req .timeWait).setSubmit req .returned
    | _ => (pool.modEnqueue req .suspend).setSubmit req .returned

/-- The critical section of `schedule_barrier`. -/
def scheduleBarrier (pool : ThreadPool Req Mod) (mod : Option Mod) (req : Req) (qno : Reqq) :
    ThreadPool Req Mod :=
  let pool := { pool with viaBarrier := update pool.viaBarrier req true }
  if 1 ≤ pool.thpSchedReq then
    let pool := { pool with
      thpBarrierCnt := pool.thpBarrierCnt + 1
      request := update pool.request req
        { pool.request req with rqDoneFlgs := (pool.request req).rqDoneFlgs ||| Request.barrier } }
    ((pool.accept req).modEnqueue req .barrier).setSubmit req .returned
  else pool.setSubmit req (.retry mod qno)

/-- `worker_enqueue` -/
def workerEnqueue (pool : ThreadPool Req Mod) (req : Req) (wrk : Nat) : ThreadPool Req Mod :=
  let next := pool.thpWorkers wrk
  if next.wrkState ≠ .terminate then
    ((pool.setWorker wrk { next with
      wrkReqcnt := next.wrkReqcnt + 1
      wrkQueue := next.wrkQueue ++ [req] }).signal wrk req).setSubmit req .returned
  else pool.setSubmit req .inline

/-- The choice behind the critical section of `schedule`, for a dormant worker. -/
def leaveDorman (pool : ThreadPool Req Mod) (req : Req) (wrk : Nat) : ThreadPool Req Mod :=
  if pool.thpShutdown = false ∧ (pool.thpWorkers wrk).wrkState = .terminate then
    pool.setSubmit req (.spawn wrk)
  else pool.setSubmit req .inline

/-- `worker_spawn_thr` up to its state. -/
def workerSpawnThr (pool : ThreadPool Req Mod) (req : Req) (wrk : Nat) : ThreadPool Req Mod :=
  let next := pool.thpWorkers wrk
  if next.wrkThrId = true ∨ next.wrkState ≠ .terminate then pool.setSubmit req .returned
  else (pool.setWorker wrk { next with wrkState := .spawning }).setSubmit req (.spawnCount wrk)

def spawnCount (pool : ThreadPool Req Mod) (req : Req) (wrk : Nat) : ThreadPool Req Mod :=
  ({ pool with thpRunThds := pool.thpRunThds + 1 }.setPc wrk .creating).setSubmit req
    (.spawnCreate wrk)

/-- `pthread_create`, and what follows where it fails. -/
def spawnCreate (pool : ThreadPool Req Mod) (req : Req) (wrk : Nat) (created : Bool) :
    ThreadPool Req Mod :=
  let next := pool.thpWorkers wrk
  if created = true then
    (pool.setWorker wrk { next with wrkThrId := true, pc := .start }).setSubmit req .returned
  else
    ({ pool with thpRunThds := pool.thpRunThds - 1 }.setWorker wrk
      { next with wrkThrId := false, pc := .out }).setSubmit req (.spawnFailed wrk)

/-! ## Working -/

def wrkCanTerminate (pool : ThreadPool Req Mod) (wrk : Nat) : Prop :=
  (pool.thpWorkers wrk).wrkState = .terminate ∧ (pool.thpWorkers wrk).wrkQueue = [] ∧
    pool.thpBarrierCnt = 0 ∧ pool.thpSchedReq = 0

instance (pool : ThreadPool Req Mod) (wrk : Nat) : Decidable (pool.wrkCanTerminate wrk) :=
  inferInstanceAs (Decidable (_ ∧ _))

/-- Out of the loop: the thread id is cleared. -/
def leaveLoop (pool : ThreadPool Req Mod) (wrk : Nat) : ThreadPool Req Mod :=
  pool.setWorker wrk { pool.thpWorkers wrk with wrkThrId := false, pc := .exit }

def loopTop (pool : ThreadPool Req Mod) (wrk : Nat) : ThreadPool Req Mod :=
  let next := pool.thpWorkers wrk
  if pool.wrkCanTerminate wrk then pool.leaveLoop wrk
  else
    match next.wrkQueue with
    | [] => pool.setPc wrk .look
    | req :: rest => pool.setWorker wrk
        { next with wrkQueue := rest, wrkReqcnt := next.wrkReqcnt - 1, pc := .taken req }

/-- The first argument is `thp_barrier_cnt`. -/
def thpPromoteBarrierLck : Nat → ThreadPool Req Mod → Option (ThreadPool Req Mod)
  | 0, pool => some pool
  | cnt + 1, pool =>
      match pool.modDequeue .barrier with
      | none => none
      | some (rq, pool) =>
          if (pool.request rq).rqDoneFlgs &&& Request.barrier = 0 then
            let pool := { pool with
              thpSchedReq := pool.thpSchedReq + 1, thpBarrierCnt := pool.thpBarrierCnt - 1 }
            let pool := pool.modEnqueue rq .fastQueue
            match pool.thpDequeue .idleThr with
            | none => thpPromoteBarrierLck cnt pool
            | some (wrk, pool) =>
                thpPromoteBarrierLck cnt ((pool.thpSwapQueue wrk .fastThr).signal wrk rq)
          -- Put back to front of queue.
          else some (pool.modFrontQueue rq .barrier)

/-- The next barrier request, once nothing else is scheduled. -/
def takeBarrier (pool : ThreadPool Req Mod) (wrk : Nat) : Option (ThreadPool Req Mod) :=
  (pool.modDequeue .barrier).bind fun (req, pool) =>
    let pool := { pool with
      thpSchedReq := pool.thpSchedReq + 1, thpBarrierCnt := pool.thpBarrierCnt - 1 }
    (thpPromoteBarrierLck pool.thpBarrierCnt.toNat pool).map fun pool => pool.setPc wrk (.taken req)

def getReqOrPutIdle (pool : ThreadPool Req Mod) (wrk : Nat) : ThreadPool Req Mod :=
  let pool := pool.setWorker wrk { pool.thpWorkers wrk with missed := [] }
  match pool.modDequeue .fastQueue with
  | some (req, pool) => (pool.thpSwapQueue wrk .fastThr).setPc wrk (.taken req)
  | none =>
      match pool.modDequeue .slowQueue with
      | some (req, pool) => (pool.thpSwapQueue wrk .slowThr).setPc wrk (.taken req)
      | none =>
          if pool.thpBarrierCnt = 0 ∨ 0 < pool.thpSchedReq then
            (pool.thpSwapQueue wrk .idleThr).setPc wrk .probe
          else (pool.takeBarrier wrk).getD (pool.setPc wrk .failed)

/-- The second check of `wrk_can_terminate`, and the state that is verified. -/
def loopProbe (pool : ThreadPool Req Mod) (wrk : Nat) : ThreadPool Req Mod :=
  if pool.wrkCanTerminate wrk then pool.leaveLoop wrk
  else if (pool.thpWorkers wrk).wrkState = .idle ∨ (pool.thpWorkers wrk).wrkState = .terminate then
    pool.setPc wrk .park
  else pool.setPc wrk .failed

/-- The start of `req_exec_task`. -/
def execTask (pool : ThreadPool Req Mod) (req : Req) : ThreadPool Req Mod :=
  { pool with
    execs := update pool.execs req (pool.execs req ++ [(pool.request req).rqMod]) }

/-- The end of `req_exec_task`: `req_done` for a request that was not chained. -/
def execDone (pool : ThreadPool Req Mod) (req : Req) (chained : Bool) : ThreadPool Req Mod :=
  { pool with
    finished := update pool.finished req true
    request := if chained = false ∧ (pool.request req).rqMod.isSome then
        update pool.request req { pool.request req with rqDoneFlgs := Request.complete }
      else pool.request }

def workerFinish (pool : ThreadPool Req Mod) (wrk : Nat) (req : Req) (chained : Bool) :
    ThreadPool Req Mod :=
  { pool.execDone req chained with thpSchedReq := pool.thpSchedReq - 1 }.setPc wrk .top

/-- `thp_thread_terminate` -/
def thpThreadTerminate (pool : ThreadPool Req Mod) (wrk : Nat) : ThreadPool Req Mod :=
  ({ pool with thpRunThds := pool.thpRunThds - 1 }.thpSwapQueue wrk .dormanThr).setPc wrk .out

/-! ## Stopping -/

/-- `thp_stop` up to its wait. -/
def thpStop (pool : ThreadPool Req Mod) : ThreadPool Req Mod :=
  { pool with
    thpShutdown := true
    thpWorkers := fun wrk =>
      if wrk < pool.thpMax then { pool.thpWorkers wrk with wrkState := .terminate }
      else pool.thpWorkers wrk
    stop := .waiting }

/-- What is verified, in order. -/
def stopChecks (pool : ThreadPool Req Mod) : List StopCheck :=
  .runThds :: (List.range pool.thpMax).map .worker ++
    [.queue .fastQueue, .queue .slowQueue, .queue .timeWait, .queue .suspend, .queue .barrier]

def Passes (pool : ThreadPool Req Mod) : StopCheck → Prop
  | .runThds => pool.thpRunThds = 0
  | .worker wrk => (pool.thpWorkers wrk).wrkState = .terminate ∧ (pool.thpWorkers wrk).wrkQueue = []
  | .queue qno => pool.mQueue qno = []

instance (pool : ThreadPool Req Mod) : ∀ check, Decidable (pool.Passes check)
  | .runThds => inferInstanceAs (Decidable (_ = _))
  | .worker _ => inferInstanceAs (Decidable (_ ∧ _))
  | .queue _ => inferInstanceAs (Decidable (_ = _))

/-! ## Steps -/

/-- The steps, each under one lock or of one counter. -/
inductive Act (Req Mod : Type) where
  | schedule (mod : Option Mod) (req : Req) (qno : Reqq)
  | scheduleBarrier (mod : Option Mod) (req : Req) (qno : Reqq)
  | retry (req : Req)
  | enqueue (req : Req)
  | leaveDorman (req : Req)
  | spawn (req : Req)
  | spawnCount (req : Req)
  | spawnCreate (req : Req) (created : Bool)
  | spawnFailed (req : Req)
  | inlineRun (req : Req)
  | inlineDone (req : Req) (chained : Bool)
  | start (wrk : Nat)
  | top (wrk : Nat)
  | look (wrk : Nat)
  | probe (wrk : Nat)
  | park (wrk : Nat)
  | wake (wrk : Nat)
  | run (wrk : Nat)
  | finish (wrk : Nat) (chained : Bool)
  | exit (wrk : Nat)
  | stop
  | stopWake
  | stopVerify

/-- The thread of the worker holds `wrk_mtx` between its steps. -/
def HoldsMtx (pool : ThreadPool Req Mod) (wrk : Nat) : Prop :=
  (pool.thpWorkers wrk).pc = .look ∨ (pool.thpWorkers wrk).pc = .probe ∨
    (pool.thpWorkers wrk).pc = .park

instance (pool : ThreadPool Req Mod) (wrk : Nat) : Decidable (pool.HoldsMtx wrk) :=
  inferInstanceAs (Decidable (_ ∨ _))

/-- One step, of a thread that is where the step begins. -/
def step (pool : ThreadPool Req Mod) : Act Req Mod → Option (ThreadPool Req Mod)
  | .schedule mod req qno =>
      match pool.submit req with
      | .fresh => some (pool.schedule mod req qno)
      | _ => none
  | .scheduleBarrier mod req qno =>
      match pool.submit req with
      | .fresh => some (pool.scheduleBarrier mod req qno)
      | _ => none
  | .retry req =>
      match pool.submit req with
      | .retry mod qno => some (pool.schedule mod req qno)
      | _ => none
  | .enqueue req =>
      match pool.submit req with
      | .hand wrk => if pool.HoldsMtx wrk then none else some (pool.workerEnqueue req wrk)
      | _ => none
  | .leaveDorman req =>
      match pool.submit req with
      | .dorman wrk => some (pool.leaveDorman req wrk)
      | _ => none
  | .spawn req =>
      match pool.submit req with
      | .spawn wrk => some (pool.workerSpawnThr req wrk)
      | _ => none
  | .spawnCount req =>
      match pool.submit req with
      | .spawnCount wrk => some (pool.spawnCount req wrk)
      | _ => none
  | .spawnCreate req created =>
      match pool.submit req with
      | .spawnCreate wrk => some (pool.spawnCreate req wrk created)
      | _ => none
  | .spawnFailed req =>
      match pool.submit req with
      | .spawnFailed wrk => some ((pool.thpSwapQueue wrk .dormanThr).setSubmit req .returned)
      | _ => none
  | .inlineRun req =>
      match pool.submit req with
      | .inline => some ((pool.execTask req).setSubmit req .inlineRunning)
      | _ => none
  | .inlineDone req chained =>
      match pool.submit req with
      | .inlineRunning => some ((pool.execDone req chained).setSubmit req .returned)
      | _ => none
  | .start wrk =>
      if (pool.thpWorkers wrk).pc = .start then
        some ((pool.thpSwapQueue wrk .fastThr).setPc wrk .top)
      else none
  | .top wrk => if (pool.thpWorkers wrk).pc = .top then some (pool.loopTop wrk) else none
  | .look wrk => if (pool.thpWorkers wrk).pc = .look then some (pool.getReqOrPutIdle wrk) else none
  | .probe wrk => if (pool.thpWorkers wrk).pc = .probe then some (pool.loopProbe wrk) else none
  | .park wrk => if (pool.thpWorkers wrk).pc = .park then some (pool.setPc wrk .wait) else none
  | .wake wrk => if (pool.thpWorkers wrk).pc = .wait then some (pool.setPc wrk .top) else none
  | .run wrk =>
      match (pool.thpWorkers wrk).pc with
      | .taken req => some ((pool.execTask req).setPc wrk (.running req))
      | _ => none
  | .finish wrk chained =>
      match (pool.thpWorkers wrk).pc with
      | .running req => some (pool.workerFinish wrk req chained)
      | _ => none
  | .exit wrk =>
      if (pool.thpWorkers wrk).pc = .exit then some (pool.thpThreadTerminate wrk) else none
  | .stop =>
      match pool.stop with
      | .before => some pool.thpStop
      | _ => none
  | .stopWake =>
      match pool.stop with
      | .waiting =>
          if 0 < pool.thpRunThds then none
          else some { pool with stop := .verifying pool.stopChecks }
      | _ => none
  | .stopVerify =>
      match pool.stop with
      | .verifying [] => some { pool with stop := .returned }
      | .verifying (check :: rest) =>
          some { pool with stop := if pool.Passes check then .verifying rest else .failed }
      | _ => none

def machine (Req Mod : Type) [DecidableEq Req] : Machine (ThreadPool Req Mod) (Act Req Mod) Unit :=
  ⟨fun pool act => (pool.step act).map (·, ())⟩

/-- The pool behind `mod_init`. The threads of the first workers are created where `pthread_create`
succeeds; the other workers are dormant. -/
def modInit (thpMin thpMax : Nat) (created : Nat → Bool) (request : Req → Request Mod) :
    ThreadPool Req Mod where
  thpMax := thpMax
  thpShutdown := false
  thpBarrierCnt := 0
  thpSchedReq := 0
  thpRunThds := ((List.range thpMin).filter created).length
  mQueue := fun _ => []
  thpQueue := fun qno =>
    if qno = .dormanThr then
      List.range' thpMin (thpMax - thpMin) ++ (List.range thpMin).filter (!created ·)
    else []
  thpWorkers := fun wrk =>
    if wrk < thpMin ∧ created wrk = true then ⟨.spawning, 0, true, [], .start, []⟩
    else ⟨.terminate, 0, false, [], .out, []⟩
  request := request
  submit := fun _ => .fresh
  stop := .before
  accepted := []
  finished := fun _ => false
  viaBarrier := fun _ => false
  execs := fun _ => []

/-- The constructor asserts how the sizes of the pool are related. -/
def Initial (pool : ThreadPool Req Mod) : Prop :=
  ∃ thpMin thpMax created request, 0 < thpMin ∧ thpMin ≤ thpMax ∧
    pool = modInit thpMin thpMax created request

end ThreadPool

end Tvntd
