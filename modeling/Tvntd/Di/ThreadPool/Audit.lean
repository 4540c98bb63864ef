import Mathlib.Algebra.BigOperators.Group.Finset.Piecewise
import Tvntd.Di.ThreadPool.WakeUp
import Tvntd.Di.ThreadPool.Shutdown

/-! # The audit of the counters

The counters that `thp_dump_stat` audits behind `thp_stop`, on top of the pool.
Every worker counts what it is handed and what it takes; the sums agree with the
number of submissions as long as nothing is executed by a submitter and nothing
is taken from the barrier queue itself, which `get_req_or_put_idle` counts
nowhere.
-/

namespace Tvntd

open Placement Function

namespace ThreadPool

set_option linter.unusedSectionVars false

variable {Req Mod : Type} [DecidableEq Req] {pool next : ThreadPool Req Mod}

/-- The counters of a worker. -/
structure WorkerStat where
  wrkSched : Int
  wrkSchedFast : Int
  wrkSchedSlow : Int
  wrkSchedDirect : Int
  wrkIdleCommWork : Int
  wrkThrSpawned : Int
  wrkThrExit : Int

namespace WorkerStat

def zero : WorkerStat := ⟨0, 0, 0, 0, 0, 0, 0⟩

/-- `worker_enqueue` -/
def enqueue (stat : WorkerStat) (state : ThpState) : WorkerStat :=
  if state = .terminate then stat
  else if state = .fastThread then
    { stat with wrkSchedDirect := stat.wrkSchedDirect + 1, wrkSchedFast := stat.wrkSchedFast + 1 }
  else { stat with wrkSchedDirect := stat.wrkSchedDirect + 1, wrkSchedSlow := stat.wrkSchedSlow + 1 }

/-- The top of the loop, where it ends or a request of the worker is taken. -/
def loopTop (stat : WorkerStat) (pool : ThreadPool Req Mod) (wrk : Nat) : WorkerStat :=
  if pool.wrkCanTerminate wrk then { stat with wrkThrExit := stat.wrkThrExit + 1 }
  else if (pool.thpWorkers wrk).wrkQueue = [] then stat
  else { stat with wrkSched := stat.wrkSched + 1 }

/-- `get_req_or_put_idle`, and the count of the request in the loop. -/
def getReqOrPutIdle (stat : WorkerStat) (pool : ThreadPool Req Mod) (wrk : Nat) : WorkerStat :=
  if pool.mQueue .fastQueue ≠ [] then
    { stat with
      wrkSchedFast := stat.wrkSchedFast + 1
      wrkIdleCommWork := stat.wrkIdleCommWork + 1
      wrkSched := stat.wrkSched + 1 }
  else if pool.mQueue .slowQueue ≠ [] then
    { stat with
      wrkSchedSlow := stat.wrkSchedSlow + 1
      wrkIdleCommWork := stat.wrkIdleCommWork + 1
      wrkSched := stat.wrkSched + 1 }
  else if pool.thpBarrierCnt = 0 ∨ 0 < pool.thpSchedReq then stat
  else if ((pool.looking wrk).takeBarrier wrk).isSome then
    { stat with wrkSched := stat.wrkSched + 1 }
  else stat

/-- The second check of `wrk_can_terminate`. -/
def loopProbe (stat : WorkerStat) (pool : ThreadPool Req Mod) (wrk : Nat) : WorkerStat :=
  if pool.wrkCanTerminate wrk then { stat with wrkThrExit := stat.wrkThrExit + 1 } else stat

/-- What a worker counts in a step. -/
def count (stat : WorkerStat) (pool : ThreadPool Req Mod) (wrk : Nat) : Act Req Mod → WorkerStat
  | .enqueue req =>
      match pool.submit req with
      | .hand other => if other = wrk then stat.enqueue (pool.thpWorkers wrk).wrkState else stat
      | _ => stat
  | .start other =>
      if other = wrk then { stat with wrkThrSpawned := stat.wrkThrSpawned + 1 } else stat
  | .top other => if other = wrk then stat.loopTop pool wrk else stat
  | .look other => if other = wrk then stat.getReqOrPutIdle pool wrk else stat
  | .probe other => if other = wrk then stat.loopProbe pool wrk else stat
  | _ => stat

end WorkerStat

/-- The counters of a pool. -/
structure Stat where
  statSched : Int
  thpExeShutdown : Int
  worker : Nat → WorkerStat

namespace Stat

def zero : Stat := ⟨0, 0, fun _ => .zero⟩

/-- What is counted in a step. An execution by a submitter is counted where it begins. -/
def count (stat : Stat) (pool : ThreadPool Req Mod) (act : Act Req Mod) : Stat where
  statSched :=
    match act with
    | .schedule _ _ _ => stat.statSched + 1
    | .retry _ => stat.statSched + 1
    | .scheduleBarrier _ _ _ => if 1 ≤ pool.thpSchedReq then stat.statSched + 1 else stat.statSched
    | _ => stat.statSched
  thpExeShutdown :=
    match act with
    | .inlineRun _ => stat.thpExeShutdown + 1
    | _ => stat.thpExeShutdown
  worker := fun wrk => (stat.worker wrk).count pool wrk act

end Stat

/-- A pool with its counters. -/
structure Metered (Req Mod : Type) where
  pool : ThreadPool Req Mod
  stat : Stat

namespace Metered

variable {state after : Metered Req Mod}

def machine (Req Mod : Type) [DecidableEq Req] : Machine (Metered Req Mod) (Act Req Mod) Unit :=
  ⟨fun state act => (state.pool.step act).map fun next => (⟨next, state.stat.count state.pool act⟩, ())⟩

/-- The sum over the workers of the pool. -/
def total (state : Metered Req Mod) (counter : WorkerStat → Int) : Int :=
  ∑ wrk ∈ Finset.range state.pool.thpMax, counter (state.stat.worker wrk)

/-- What `thp_dump_stat` verifies. -/
structure Audit (state : Metered Req Mod) : Prop where
  threads : state.total (·.wrkThrSpawned) = state.total (·.wrkThrExit)
  serviced : state.stat.statSched = state.total (·.wrkSched)
  served : state.total (·.wrkSchedDirect) + state.total (·.wrkIdleCommWork) = state.stat.statSched
  scheduled : state.stat.thpExeShutdown + state.total (·.wrkSchedFast) +
    state.total (·.wrkSchedSlow) =
    state.stat.statSched

end Metered

/-! ## Workers -/

/-- A worker that is changed keeps its count of requests, and so does every other one. -/
theorem wrkReqcnt_setWorker (pool : ThreadPool Req Mod) {actor : Nat} (after : WorkerThread Req)
    (same : after.wrkReqcnt = (pool.thpWorkers actor).wrkReqcnt) (wrk : Nat) :
    ((pool.setWorker actor after).thpWorkers wrk).wrkReqcnt = (pool.thpWorkers wrk).wrkReqcnt := by
  by_cases here : wrk = actor
  · subst here
    simp only [setWorker, update_self, same]
  · simp only [setWorker, update_of_ne here]

theorem wrkReqcnt_setPc (pool : ThreadPool Req Mod) (actor : Nat) (pc : WorkerPc Req) (wrk : Nat) :
    ((pool.setPc actor pc).thpWorkers wrk).wrkReqcnt = (pool.thpWorkers wrk).wrkReqcnt :=
  wrkReqcnt_setWorker pool { pool.thpWorkers actor with pc := pc } rfl wrk

theorem wrkReqcnt_schedule (pool : ThreadPool Req Mod) (mod : Option Mod) (req : Req) (qno : Reqq)
    (wrk : Nat) : ((pool.schedule mod req qno).thpWorkers wrk).wrkReqcnt =
      (pool.thpWorkers wrk).wrkReqcnt := by
  rcases schedule_cases pool mod req qno with ⟨-, same⟩ | ⟨-, rest, relisted, outcome⟩
  · rw [same]
    rfl
  · have kept : (rest.thpWorkers wrk).wrkReqcnt = (pool.thpWorkers wrk).wrkReqcnt :=
      relisted.wrkReqcnt wrk
    rcases outcome with ⟨other, same⟩ | ⟨queue, after, -, -, -, same⟩ | ⟨-, same⟩
    · rw [same]
      exact kept
    · rw [same]
      exact kept
    · rw [same]
      exact kept

private theorem wrkReqcnt_getReqOrPutIdle (pool : ThreadPool Req Mod) (actor wrk : Nat) :
    ((pool.getReqOrPutIdle actor).thpWorkers wrk).wrkReqcnt = (pool.thpWorkers wrk).wrkReqcnt := by
  have looking : ((pool.looking actor).thpWorkers wrk).wrkReqcnt =
      (pool.thpWorkers wrk).wrkReqcnt :=
    wrkReqcnt_setWorker pool { pool.thpWorkers actor with missed := [] } rfl wrk
  rcases getReqOrPutIdle_cases pool actor with ⟨qno, thr, req, list, -, -, same⟩ |
    ⟨-, -, ⟨-, same⟩ | ⟨-, same⟩⟩
  · rw [same, wrkReqcnt_setPc, (Relisted.thpSwapQueue _ actor thr).wrkReqcnt]
    exact looking
  · rw [same, wrkReqcnt_setPc, (Relisted.thpSwapQueue _ actor .idleThr).wrkReqcnt]
    exact looking
  · rw [same]
    cases taken : (pool.looking actor).takeBarrier actor with
    | none =>
        rw [Option.getD_none, wrkReqcnt_setPc]
        exact looking
    | some after =>
        obtain ⟨req, list, promoted, -, promotion, rfl⟩ := takeBarrier_eq taken
        rw [Option.getD_some, wrkReqcnt_setPc, (served_promoted promotion).worker_eq]
        exact looking

/-- What a worker has taken, or is to take, and did not count when it was handed to it. -/
def WorkerStat.gap (stat : WorkerStat) (reqcnt : Int) : Int :=
  stat.wrkSched + reqcnt - stat.wrkSchedDirect - stat.wrkIdleCommWork

theorem WorkerStat.gap_enqueue (stat : WorkerStat) {state : ThpState} (up : state ≠ .terminate)
    (reqcnt : Int) : (stat.enqueue state).gap (reqcnt + 1) = stat.gap reqcnt := by
  unfold enqueue
  rw [if_neg up]
  split
  · unfold gap
    dsimp only
    omega
  · unfold gap
    dsimp only
    omega

/-- A step takes a request from the barrier queue for the worker. -/
def TakesAt (pool : ThreadPool Req Mod) (wrk : Nat) (act : Act Req Mod) : Prop :=
  act = .look wrk ∧ pool.TakesBarrier

instance (pool : ThreadPool Req Mod) (wrk : Nat) (act : Act Req Mod) :
    Decidable (pool.TakesAt wrk act) :=
  match act with
  | .look other => decidable_of_iff (other = wrk ∧ pool.TakesBarrier) (by simp [TakesAt])
  | .schedule _ _ _ | .scheduleBarrier _ _ _ | .retry _ | .enqueue _ | .leaveDorman _ | .spawn _
  | .spawnCount _ | .spawnCreate _ _ | .spawnFailed _ | .inlineRun _ | .inlineDone _ _ | .start _ | .top _
  | .probe _ | .park _ | .wake _ | .run _ | .finish _ _ | .exit _ | .stop | .stopWake | .stopVerify =>
      isFalse fun takes => nomatch takes.1

theorem WorkerStat.gap_getReqOrPutIdle (stat : WorkerStat) (conserved : Conserved pool) (wrk : Nat)
    (reqcnt : Int) : (stat.getReqOrPutIdle pool wrk).gap reqcnt =
      stat.gap reqcnt + if pool.TakesBarrier then 1 else 0 := by
  unfold getReqOrPutIdle
  by_cases fast : pool.mQueue .fastQueue ≠ []
  · rw [if_pos fast, if_neg fun takes => fast takes.1]
    unfold gap
    dsimp only
    omega
  · rw [if_neg fast]
    by_cases slow : pool.mQueue .slowQueue ≠ []
    · rw [if_pos slow, if_neg fun takes => slow takes.2.1]
      unfold gap
      dsimp only
      omega
    · rw [if_neg slow]
      by_cases idle : pool.thpBarrierCnt = 0 ∨ 0 < pool.thpSchedReq
      · rw [if_pos idle, if_neg fun takes => takes.2.2 idle]
        omega
      · have takes : pool.TakesBarrier := ⟨not_not.mp fast, not_not.mp slow, idle⟩
        have looking : Conserved (pool.looking wrk) := conserved.setWorker rfl rfl rfl
        obtain ⟨after, taken⟩ := looking.takes (fun none => idle (.inl none)) wrk
        rw [if_neg idle, taken, Option.isSome_some, if_pos rfl, if_pos takes]
        unfold gap
        dsimp only
        omega

private theorem WorkerStat.gap_workerEnqueue (stat : WorkerStat) {req : Req} {actor : Nat}
    (begun : pool.submit req = .hand actor) (wrk : Nat) :
    (stat.count pool wrk (.enqueue req)).gap
      ((pool.workerEnqueue req actor).thpWorkers wrk).wrkReqcnt =
      stat.gap (pool.thpWorkers wrk).wrkReqcnt := by
  have counted : stat.count pool wrk (.enqueue req) =
      if actor = wrk then stat.enqueue (pool.thpWorkers wrk).wrkState else stat := by
    unfold count
    dsimp only
    rw [begun]
  rw [counted]
  unfold ThreadPool.workerEnqueue
  dsimp only
  by_cases up : (pool.thpWorkers actor).wrkState ≠ .terminate
  · rw [if_pos up]
    change gap _ ((signal _ actor req).thpWorkers wrk).wrkReqcnt = _
    rw [(Relisted.signal _ actor req).wrkReqcnt]
    by_cases mine : actor = wrk
    · subst mine
      rw [if_pos rfl]
      simp only [setWorker, update_self]
      exact stat.gap_enqueue up _
    · simp only [setWorker, update_of_ne (Ne.symm mine), if_neg mine]
  · rw [if_neg up]
    by_cases mine : actor = wrk
    · subst mine
      rw [if_pos rfl, enqueue, if_pos (not_not.mp up)]
      rfl
    · rw [if_neg mine]
      rfl

theorem WorkerStat.gap_loopTop (stat : WorkerStat) (pool : ThreadPool Req Mod) (actor wrk : Nat) :
    (stat.count pool wrk (.top actor)).gap ((pool.loopTop actor).thpWorkers wrk).wrkReqcnt =
      stat.gap (pool.thpWorkers wrk).wrkReqcnt := by
  unfold count ThreadPool.loopTop
  dsimp only
  by_cases mine : actor = wrk
  · subst mine
    rw [if_pos rfl]
    unfold loopTop
    by_cases ends : pool.wrkCanTerminate actor
    · rw [if_pos ends, if_pos ends, leaveLoop, wrkReqcnt_setWorker pool _ (by rfl)]
      rfl
    · rw [if_neg ends, if_neg ends]
      cases queue : (pool.thpWorkers actor).wrkQueue with
      | nil =>
          rw [if_pos rfl]
          dsimp only
          rw [wrkReqcnt_setPc]
      | cons req rest =>
          rw [if_neg (List.cons_ne_nil req rest)]
          simp only [setWorker, update_self]
          unfold gap
          dsimp only
          omega
  · rw [if_neg mine]
    have apart : ∀ after, (pool.setWorker actor after).thpWorkers wrk = pool.thpWorkers wrk :=
        fun after => by
      simp only [setWorker, update_of_ne (Ne.symm mine)]
    split
    · rw [leaveLoop, apart]
    · split
      · rw [setPc, apart]
      · rw [apart]

theorem Taken.gap {act : Act Req Mod} (taken : Taken pool act next) (conserved : Conserved pool)
    (stat : WorkerStat) (wrk : Nat) :
    (stat.count pool wrk act).gap (next.thpWorkers wrk).wrkReqcnt =
      stat.gap (pool.thpWorkers wrk).wrkReqcnt + if pool.TakesAt wrk act then 1 else 0 := by
  have kept : ∀ {count : Int}, ¬ pool.TakesAt wrk act → count = (pool.thpWorkers wrk).wrkReqcnt →
      stat.gap count =
        stat.gap (pool.thpWorkers wrk).wrkReqcnt + if pool.TakesAt wrk act then 1 else 0 := by
    intro count none same
    rw [same, if_neg none, Int.add_zero]
  have other : (∀ wrk, act ≠ .look wrk) → ¬ pool.TakesAt wrk act :=
      fun apart takes => apart wrk takes.1
  cases taken with
  | schedule => exact kept (other (by simp)) (wrkReqcnt_schedule ..)
  | retry => exact kept (other (by simp)) (wrkReqcnt_schedule ..)
  | scheduleBarrier =>
      refine kept (other (by simp)) ?_
      unfold ThreadPool.scheduleBarrier
      dsimp only
      split
      · rfl
      · rfl
  | @enqueue req actor begun =>
      rw [if_neg (other (by simp)), Int.add_zero]
      exact stat.gap_workerEnqueue begun wrk
  | leaveDorman =>
      refine kept (other (by simp)) ?_
      unfold ThreadPool.leaveDorman
      split
      · rfl
      · rfl
  | spawn =>
      refine kept (other (by simp)) ?_
      unfold workerSpawnThr
      dsimp only
      split
      · rfl
      · exact wrkReqcnt_setWorker pool _ (by rfl) wrk
  | @spawnCount req actor => exact kept (other (by simp)) (wrkReqcnt_setPc _ actor .creating wrk)
  | @spawnCreate req actor =>
      refine kept (other (by simp)) ?_
      unfold ThreadPool.spawnCreate
      dsimp only
      split
      · exact wrkReqcnt_setWorker pool _ (by rfl) wrk
      · exact wrkReqcnt_setWorker { pool with thpRunThds := pool.thpRunThds - 1 } _ (by rfl) wrk
  | @spawnFailed req actor =>
      exact kept (other (by simp)) ((Relisted.thpSwapQueue pool actor .dormanThr).wrkReqcnt wrk)
  | inlineRun => exact kept (other (by simp)) rfl
  | inlineDone => exact kept (other (by simp)) rfl
  | @start actor =>
      have same : (((pool.thpSwapQueue actor .fastThr).setPc actor .top).thpWorkers wrk).wrkReqcnt =
          (pool.thpWorkers wrk).wrkReqcnt :=
        (wrkReqcnt_setPc _ actor .top wrk).trans
          ((Relisted.thpSwapQueue pool actor .fastThr).wrkReqcnt wrk)
      rw [if_neg (other (by simp)), Int.add_zero, same]
      unfold WorkerStat.count
      dsimp only
      split
      · rfl
      · rfl
  | @top actor =>
      rw [if_neg (other (by simp)), Int.add_zero]
      exact stat.gap_loopTop pool actor wrk
  | @look actor =>
      rw [wrkReqcnt_getReqOrPutIdle]
      unfold WorkerStat.count
      dsimp only
      by_cases mine : actor = wrk
      · subst mine
        rw [if_pos rfl, stat.gap_getReqOrPutIdle conserved]
        congr 1
        exact if_congr ⟨fun takes => ⟨rfl, takes⟩, And.right⟩ rfl rfl
      · rw [if_neg mine, if_neg fun takes => mine (Act.look.inj takes.1), Int.add_zero]
  | @probe actor =>
      have same : ((pool.loopProbe actor).thpWorkers wrk).wrkReqcnt =
          (pool.thpWorkers wrk).wrkReqcnt := by
        unfold loopProbe
        split
        · exact wrkReqcnt_setWorker pool _ (by rfl) wrk
        · split
          · exact wrkReqcnt_setPc ..
          · exact wrkReqcnt_setPc ..
      rw [if_neg (other (by simp)), Int.add_zero, same]
      unfold WorkerStat.count
      dsimp only
      split
      · unfold WorkerStat.loopProbe
        split
        · rfl
        · rfl
      · rfl
  | park => exact kept (other (by simp)) (wrkReqcnt_setPc ..)
  | wake => exact kept (other (by simp)) (wrkReqcnt_setPc ..)
  | @run actor req => exact kept (other (by simp)) (wrkReqcnt_setPc (pool.execTask req) actor _ wrk)
  | @finish actor req chained => exact kept (other (by simp)) (wrkReqcnt_setPc _ actor .top wrk)
  | @exit actor =>
      have swapped := (Relisted.thpSwapQueue { pool with thpRunThds := pool.thpRunThds - 1 } actor
        .dormanThr).wrkReqcnt wrk
      exact kept (other (by simp)) ((wrkReqcnt_setPc _ actor .out wrk).trans swapped)
  | stop =>
      refine kept (other (by simp)) ?_
      by_cases inside : wrk < pool.thpMax
      · simp only [thpStop, if_pos inside]
      · simp only [thpStop, if_neg inside]
  | stopWake => exact kept (other (by simp)) rfl
  | stopReturn => exact kept (other (by simp)) rfl
  | stopVerify => exact kept (other (by simp)) rfl

/-! ## Threads -/

/-- The thread has entered the loop and not left it. -/
def loops : WorkerPc Req → Int
  | .out | .creating | .start | .exit => 0
  | _ => 1

/-- The worker has a request that it has taken. -/
def busy : WorkerPc Req → Int
  | .taken _ | .running _ => 1
  | _ => 0

/-- The worker finishes a request. -/
def FinishesAt (wrk : Nat) : Act Req Mod → Prop
  | .finish other _ => other = wrk
  | _ => False

instance (wrk : Nat) : DecidablePred (FinishesAt wrk : Act Req Mod → Prop)
  | .finish other _ => inferInstanceAs (Decidable (other = wrk))
  | .schedule .. | .scheduleBarrier .. | .retry _ | .enqueue _ | .leaveDorman _ | .spawn _ |
    .spawnCount _ | .spawnCreate .. | .spawnFailed _ | .inlineRun _ | .inlineDone .. | .start _ |
    .top _ | .look _ | .probe _ | .park _ | .wake _ | .run _ | .exit _ | .stop | .stopWake |
    .stopVerify =>
      inferInstanceAs (Decidable False)

/-- The counters of a worker agree with where its thread is. -/
structure Tally (stat : WorkerStat) (pc : WorkerPc Req) (finished : Int) : Prop where
  threads : stat.wrkThrSpawned = stat.wrkThrExit + loops pc
  sched : stat.wrkSched = finished + busy pc
  kinds : stat.wrkSchedFast + stat.wrkSchedSlow = stat.wrkSchedDirect + stat.wrkIdleCommWork

/-- A thread that goes on where nothing is counted. -/
theorem Tally.move {stat : WorkerStat} {pc after : WorkerPc Req} {finished total : Int}
    (tally : Tally stat pc finished) (thread : loops after = loops pc)
    (same : total + busy after = finished + busy pc) : Tally stat after total := by
  obtain ⟨threads, sched, kinds⟩ := tally
  exact ⟨thread ▸ threads, sched.trans same.symm, kinds⟩

/-- What is counted for a request that a worker is handed, says nothing of its thread. -/
theorem Tally.enqueue {stat : WorkerStat} {pc : WorkerPc Req} {finished : Int}
    (tally : Tally stat pc finished) (state : ThpState) :
    Tally (stat.enqueue state) pc finished := by
  obtain ⟨threads, sched, kinds⟩ := tally
  unfold WorkerStat.enqueue
  split
  · exact ⟨threads, sched, kinds⟩
  · split
    · exact ⟨threads, sched, by dsimp only; omega⟩
    · exact ⟨threads, sched, by dsimp only; omega⟩

/-- A worker takes a request out of a queue of the pool, or finds none. -/
theorem Tally.look {stat : WorkerStat} {finished : Int} {wrk : Nat}
    (tally : Tally stat (pool.thpWorkers wrk).pc finished)
    (here : (pool.thpWorkers wrk).pc = .look) :
    Tally (stat.getReqOrPutIdle pool wrk)
      ((pool.getReqOrPutIdle wrk).thpWorkers wrk).pc finished := by
  rw [here] at tally
  obtain ⟨threads, sched, kinds⟩ := tally
  simp only [loops, busy] at threads sched
  unfold WorkerStat.getReqOrPutIdle
  rcases getReqOrPutIdle_cases pool wrk with ⟨qno, thr, req, list, served, queue, same⟩ |
    ⟨fast, slow, ⟨idle, same⟩ | ⟨idle, same⟩⟩
  · have after : ((pool.getReqOrPutIdle wrk).thpWorkers wrk).pc = .taken req := by
      rw [same]
      exact pc_setPc _ _ _
    rw [after]
    by_cases fast : pool.mQueue .fastQueue ≠ []
    · rw [if_pos fast]
      refine ⟨?_, ?_, ?_⟩
      · simp only [loops, threads]
      · simp only [busy, sched, Int.add_zero]
      · dsimp only
        omega
    · have slow : pool.mQueue .slowQueue ≠ [] := by
        rcases served with ⟨rfl, -⟩ | ⟨rfl, -⟩
        · rw [queue] at fast
          exact (fast (List.cons_ne_nil req list)).elim
        · rw [queue]
          exact List.cons_ne_nil req list
      rw [if_neg fast, if_pos slow]
      refine ⟨?_, ?_, ?_⟩
      · simp only [loops, threads]
      · simp only [busy, sched, Int.add_zero]
      · dsimp only
        omega
  · have after : ((pool.getReqOrPutIdle wrk).thpWorkers wrk).pc = .probe := by
      rw [same]
      exact pc_setPc _ _ _
    rw [after, if_neg (not_not.mpr fast), if_neg (not_not.mpr slow), if_pos idle]
    exact ⟨threads, sched, kinds⟩
  · rw [if_neg (not_not.mpr fast), if_neg (not_not.mpr slow), if_neg idle, same]
    cases taken : (pool.looking wrk).takeBarrier wrk with
    | none =>
        rw [Option.getD_none, pc_setPc, if_neg (by nofun)]
        exact ⟨threads, sched, kinds⟩
    | some after =>
        obtain ⟨req, list, promoted, -, -, rfl⟩ := takeBarrier_eq taken
        rw [Option.getD_some, pc_setPc, Option.isSome_some, if_pos rfl]
        refine ⟨threads, ?_, kinds⟩
        simp only [busy, sched, Int.add_zero]

theorem Tally.top {stat : WorkerStat} {finished : Int} {wrk : Nat}
    (tally : Tally stat (.top : WorkerPc Req) finished) :
    Tally (stat.loopTop pool wrk) ((pool.loopTop wrk).thpWorkers wrk).pc finished := by
  obtain ⟨threads, sched, kinds⟩ := tally
  simp only [loops, busy] at threads sched
  unfold WorkerStat.loopTop ThreadPool.loopTop
  dsimp only
  by_cases ends : pool.wrkCanTerminate wrk
  · rw [if_pos ends, if_pos ends, leaveLoop, pc_setWorker]
    refine ⟨?_, sched, kinds⟩
    simp only [loops]
    omega
  · rw [if_neg ends, if_neg ends]
    cases queue : (pool.thpWorkers wrk).wrkQueue with
    | nil =>
        rw [if_pos rfl, pc_setPc]
        exact ⟨threads, sched, kinds⟩
    | cons req rest =>
        rw [if_neg (List.cons_ne_nil req rest), pc_setWorker]
        refine ⟨threads, ?_, kinds⟩
        simp only [busy, sched, Int.add_zero]

theorem Tally.probe {stat : WorkerStat} {finished : Int} {wrk : Nat}
    (tally : Tally stat (.probe : WorkerPc Req) finished) :
    Tally (stat.loopProbe pool wrk) ((pool.loopProbe wrk).thpWorkers wrk).pc finished := by
  obtain ⟨threads, sched, kinds⟩ := tally
  simp only [loops, busy] at threads sched
  unfold WorkerStat.loopProbe ThreadPool.loopProbe
  by_cases ends : pool.wrkCanTerminate wrk
  · rw [if_pos ends, if_pos ends, leaveLoop, pc_setWorker]
    refine ⟨?_, sched, kinds⟩
    simp only [loops]
    omega
  · rw [if_neg ends, if_neg ends]
    split
    · rw [pc_setPc]
      exact ⟨threads, sched, kinds⟩
    · rw [pc_setPc]
      exact ⟨threads, sched, kinds⟩

/-- **Every step keeps the counters of a worker in agreement with its thread.** -/
theorem Tally.step {stat : WorkerStat} {finished : Int} {wrk : Nat}
    (tally : Tally stat (pool.thpWorkers wrk).pc finished) (orderly : Orderly pool)
    {act : Act Req Mod}
    (taken : Taken pool act next) : Tally (stat.count pool wrk act) (next.thpWorkers wrk).pc
      (finished + if FinishesAt wrk act then 1 else 0) := by
  by_cases mine : pool.actor act = some wrk
  · have goes := taken.goes orderly mine
    have still : (∀ other chained, act ≠ .finish other chained) →
        (finished + if FinishesAt wrk act then 1 else 0) = finished := by
      intro apart
      rw [if_neg, Int.add_zero]
      intro finishes
      cases act with
      | finish other chained => exact apart other chained rfl
      | _ => exact finishes
    cases taken with
    | spawnCount begun =>
        rw [actor, begun] at mine
        obtain rfl := Option.some.inj mine
        rw [orderly.spawnCount _ _ begun] at tally goes
        rw [show _ = WorkerPc.creating from goes]
        exact tally.move rfl (congrArg (· + _) (still (by simp)))
    | spawnCreate begun =>
        rw [actor, begun] at mine
        obtain rfl := Option.some.inj mine
        rw [orderly.spawnCreate _ _ begun] at tally goes
        rcases goes with after | after
        · rw [after]
          exact tally.move rfl (congrArg (· + _) (still (by simp)))
        · rw [after]
          exact tally.move rfl (congrArg (· + _) (still (by simp)))
    | @start actor here =>
        obtain rfl := Option.some.inj mine
        rw [here] at tally goes
        rw [show _ = WorkerPc.top from goes]
        obtain ⟨threads, sched, kinds⟩ := tally
        simp only [loops, busy] at threads sched
        unfold WorkerStat.count
        dsimp only
        rw [still (by simp), if_pos rfl]
        refine ⟨?_, sched, kinds⟩
        simp only [loops]
        omega
    | @top actor here =>
        obtain rfl := Option.some.inj mine
        rw [here] at tally
        unfold WorkerStat.count
        dsimp only
        rw [still (by simp), if_pos rfl]
        exact tally.top
    | @look actor here =>
        obtain rfl := Option.some.inj mine
        unfold WorkerStat.count
        dsimp only
        rw [still (by simp), if_pos rfl]
        exact tally.look here
    | @probe actor here =>
        obtain rfl := Option.some.inj mine
        rw [here] at tally
        unfold WorkerStat.count
        dsimp only
        rw [still (by simp), if_pos rfl]
        exact tally.probe
    | park here | wake here =>
        obtain rfl := Option.some.inj mine
        rw [here] at tally goes
        rw [show _ = _ from goes]
        exact tally.move rfl (congrArg (· + _) (still (by simp)))
    | run here =>
        obtain rfl := Option.some.inj mine
        rw [here] at tally goes
        rw [show _ = _ from goes]
        exact tally.move rfl (congrArg (· + _) (still (by simp)))
    | exit here =>
        obtain rfl := Option.some.inj mine
        rw [here] at tally goes
        rw [show _ = _ from goes]
        exact tally.move rfl (congrArg (· + _) (still (by simp)))
    | finish here =>
        obtain rfl := Option.some.inj mine
        rw [here] at tally goes
        rw [show _ = WorkerPc.top from goes]
        obtain ⟨threads, sched, kinds⟩ := tally
        refine ⟨threads, ?_, kinds⟩
        simp only [busy] at sched
        change stat.wrkSched = _
        simp only [FinishesAt, if_true, busy, sched, Int.add_zero]
    | _ => cases mine
  · rw [taken.pc_eq mine]
    have still : ¬ FinishesAt wrk act := by
      intro finishes
      cases taken with
      | finish => exact mine (congrArg some finishes)
      | _ => exact finishes
    rw [if_neg still, Int.add_zero]
    cases taken with
    | @enqueue req actor begun =>
        unfold WorkerStat.count
        dsimp only
        rw [begun]
        dsimp only
        split
        · exact tally.enqueue _
        · exact tally
    | start | top | look | probe =>
        unfold WorkerStat.count
        dsimp only
        rw [if_neg fun same => mine (congrArg some same)]
        exact tally
    | _ => exact tally

/-! ## Submissions -/

private theorem Taken.finished_eq {act : Act Req Mod} (taken : Taken pool act next)
    (ends : ∀ wrk chained, act ≠ .finish wrk chained)
    (inline : ∀ req chained, act ≠ .inlineDone req chained) :
    next.finished = pool.finished := by
  by_cases plain : Plain act
  · exact (taken.frame plain).finished
  · cases taken with
    | finish => exact (ends _ _ rfl).elim
    | inlineDone => exact (inline _ _ rfl).elim
    | spawnCreate =>
        unfold ThreadPool.spawnCreate
        dsimp only
        split
        · rfl
        · rfl
    | spawnCount | exit | run | inlineRun | stop | stopWake | stopReturn | stopVerify => rfl
    | _ => exact (plain trivial).elim

/-- A step accepts what it counts as submitted. -/
theorem Taken.submitted {act : Act Req Mod} (taken : Taken pool act next) (stat : Stat) :
    (stat.count pool act).statSched - (next.accepted.length : Int) =
      stat.statSched - (pool.accepted.length : Int) := by
  have entered : ∀ {mod : Option Mod} {req : Req} {qno : Reqq},
      stat.statSched + 1 - ((pool.schedule mod req qno).accepted.length : Int) =
        stat.statSched - (pool.accepted.length : Int) := by
    intro mod req qno
    rw [(entered_schedule pool mod req qno).accepted, List.length_append, List.length_singleton]
    omega
  by_cases moves : Moves act
  · cases taken with
    | schedule => exact entered
    | retry => exact entered
    | scheduleBarrier =>
        unfold Stat.count ThreadPool.scheduleBarrier
        dsimp only
        split
        · change stat.statSched + 1 - (((pool.accepted ++ [_]).length : Nat) : Int) = _
          rw [List.length_append, List.length_singleton]
          omega
        · rfl
    | @look wrk =>
        rw [served_getReqOrPutIdle pool wrk]
        rfl
    | _ => exact moves.elim
  · rw [(taken.stays moves).accepted]
    cases act with
    | schedule | retry | scheduleBarrier => exact (moves trivial).elim
    | _ => rfl

/-- The accepted requests that are finished. -/
def completed (pool : ThreadPool Req Mod) : Int :=
  (pool.accepted.length : Int) - ((pending pool.accepted pool.finished).length : Int)

private theorem completed_accept {req : Req} (unfinished : pool.finished req = false)
    (accepted : next.accepted = pool.accepted ++ [req]) (finished : next.finished = pool.finished) :
    next.completed = pool.completed := by
  unfold completed
  rw [accepted, finished, length_pending_accept unfinished, List.length_append,
    List.length_singleton]
  omega

/-- Only the end of an execution completes a request. -/
theorem Taken.completed_eq {act : Act Req Mod} (taken : Taken pool act next)
    (conserved : Conserved pool)
    (orderly : Orderly pool) (ends : ∀ wrk chained, act ≠ .finish wrk chained) :
    next.completed = pool.completed := by
  have inline : ∀ req chained, act ≠ .inlineDone req chained := by
    rintro req chained rfl
    cases taken with
    | inlineDone begun => exact orderly.running req begun
  have finished := taken.finished_eq ends inline
  by_cases moves : Moves act
  · cases taken with
    | schedule begun =>
        exact completed_accept (conserved.unfinished _ (begun ▸ trivial))
          (entered_schedule ..).accepted finished
    | retry begun =>
        exact completed_accept (conserved.unfinished _ (begun ▸ trivial))
          (entered_schedule ..).accepted finished
    | scheduleBarrier begun =>
        have unfinished := conserved.unfinished _ (by rw [begun]; trivial)
        unfold ThreadPool.scheduleBarrier
        dsimp only
        split
        · exact completed_accept unfinished rfl rfl
        · rfl
    | @look wrk =>
        rw [served_getReqOrPutIdle pool wrk]
        rfl
    | _ => exact moves.elim
  · unfold completed
    rw [(taken.stays moves).accepted, finished]

private theorem Conserved.completed_eq (conserved : Conserved pool) :
    pool.completed = (pool.accepted.length : Int) - pool.thpSchedReq -
      ((pool.mQueue .barrier).length : Int) := by
  have total : pool.thpSchedReq + ((pool.mQueue .barrier).length : Int) = _ :=
      conserved.books.sched_eq
  unfold completed
  omega

/-- Behind its wait `thp_stop` finds no thread, and none begins. -/
def Ended (pool : ThreadPool Req Mod) : Prop :=
  match pool.stop with
  | .verifying _ | .returned => ∀ wrk, (pool.thpWorkers wrk).pc = .out
  | _ => True

theorem Ended.step (ended : Ended pool) (disciplined : Disciplined pool) {act : Act Req Mod}
    (taken : Taken pool act next) : Ended next := by
  have out : (∀ wrk, (pool.thpWorkers wrk).pc = .out) → pool.stop ≠ .before →
      ∀ wrk, (next.thpWorkers wrk).pc = .out := by
    intro out stopped wrk
    by_cases mine : pool.actor act = some wrk
    · have here := out wrk
      have shut := disciplined.halting.stopped stopped
      cases taken with
      | @spawnCount req other begun =>
          have settled := disciplined.halting.settled shut req
          rw [begun] at settled
          exact settled.elim
      | @spawnCreate req other created begun =>
          rw [actor, begun] at mine
          obtain rfl := Option.some.inj mine
          cases here.symm.trans (disciplined.crew.orderly.spawnCreate _ _ begun)
      | start up | top up | look up | probe up | park up | wake up | run up | finish up | exit up =>
          obtain rfl := Option.some.inj mine
          cases here.symm.trans up
      | _ => cases mine
    · exact (taken.pc_eq mine).trans (out wrk)
  unfold Ended at ended ⊢
  by_cases verify : act = .stopVerify
  · subst verify
    cases taken with
    | stopReturn begun =>
        rw [begun] at ended
        exact ended
    | @stopVerify check rest begun =>
        rw [begun] at ended
        dsimp only
        split
        all_goals first | exact ended | trivial
  · by_cases wake : act = .stopWake
    · subst wake
      cases taken with
      | stopWake begun done => exact disciplined.counted.all_out done
    · by_cases stop : act = .stop
      · subst stop
        cases taken with
        | stop => trivial
      · rw [taken.stop_eq stop wake verify]
        cases begun : pool.stop with
        | verifying rest | returned =>
            rw [begun] at ended
            exact out ended (by rw [begun]; simp)
        | _ => trivial

namespace Metered

variable {state after : Metered Req Mod}

/-- What a quiet run keeps of the counters. -/
structure Kept (state : Metered Req Mod) : Prop where
  disciplined : Disciplined state.pool
  ended : Ended state.pool
  inline : state.stat.thpExeShutdown = 0
  submitted : state.stat.statSched = (state.pool.accepted.length : Int)
  tally : ∃ finished : Nat → Int,
    (∀ wrk, Tally (state.stat.worker wrk) (state.pool.thpWorkers wrk).pc (finished wrk)) ∧
      ∑ wrk ∈ Finset.range state.pool.thpMax, finished wrk = state.pool.completed

/-- The pool is quiet in a step. -/
def Quiet (state : Metered Req Mod) (act : Act Req Mod) : Prop := state.pool.Quiet act

private theorem sum_finishesAt {max wrk : Nat} (inside : wrk < max) (chained : Bool)
    (finished : Nat → Int) :
    ∑ other ∈ Finset.range max,
        (finished other + if FinishesAt other (.finish wrk chained : Act Req Mod) then 1 else 0) =
      (∑ other ∈ Finset.range max, finished other) + 1 := by
  rw [Finset.sum_add_distrib]
  congr 1
  have here : wrk ∈ Finset.range max := Finset.mem_range.mpr inside
  exact (Finset.sum_ite_eq (Finset.range max) wrk fun _ => (1 : Int)).trans (if_pos here)

theorem Kept.step (kept : Kept state) {act : Act Req Mod} (quiet : Quiet state act)
    (taken : Taken state.pool act next) : Kept ⟨next, state.stat.count state.pool act⟩ := by
  have disciplined := kept.disciplined
  have orderly := disciplined.crew.orderly
  have after := disciplined.step quiet taken
  refine ⟨after, kept.ended.step disciplined taken, ?_, ?_, ?_⟩
  · cases taken with
    | @inlineRun req begun =>
        have fits := disciplined.crew.fits req
        rw [begun] at fits
        exact fits.elim
    | _ => exact kept.inline
  · have submitted := taken.submitted state.stat
    have before := kept.submitted
    dsimp only
    omega
  · obtain ⟨finished, tally, total⟩ := kept.tally
    refine ⟨_, fun wrk => (tally wrk).step orderly taken, ?_⟩
    dsimp only
    rw [taken.thpMax_eq]
    by_cases ends : ∃ wrk chained, act = .finish wrk chained
    · obtain ⟨wrk, chained, rfl⟩ := ends
      have before := disciplined.conserved.completed_eq
      have behind := after.conserved.completed_eq
      cases taken with
      | finish here =>
          have inside := disciplined.within.manned wrk (by rw [here]; nofun)
          rw [sum_finishesAt inside, total, before, behind]
          simp only [workerFinish, setPc, setWorker, execDone]
          omega
    · have apart : ∀ wrk chained, act ≠ .finish wrk chained := fun wrk chained same =>
        ends ⟨wrk, chained, same⟩
      rw [taken.completed_eq disciplined.conserved orderly apart, ← total]
      refine Finset.sum_congr rfl fun wrk _ => ?_
      rw [if_neg, Int.add_zero]
      intro finishes
      cases act with
      | finish other chained => exact apart other chained rfl
      | _ => exact finishes

private theorem Kept.of_machine (kept : Kept state) {act : Act Req Mod} (quiet : Quiet state act)
    {output : Unit}
    (stepped : (machine Req Mod).step state act = some (after, output)) : Kept after := by
  obtain ⟨next, took, same⟩ := Option.map_eq_some_iff.mp stepped
  cases same
  exact kept.step quiet (taken_of_step took)

/-- What the workers were handed or have taken without a count. -/
def gap (state : Metered Req Mod) : Int :=
  ∑ wrk ∈ Finset.range state.pool.thpMax,
    (state.stat.worker wrk).gap (state.pool.thpWorkers wrk).wrkReqcnt

/-- No request is taken from the barrier queue itself. -/
def Counts (state : Metered Req Mod) : Act Req Mod → Prop
  | .look _ => ¬ state.pool.TakesBarrier
  | _ => True

instance (state : Metered Req Mod) : DecidablePred state.Counts
  | .look _ => inferInstanceAs (Decidable (¬ state.pool.TakesBarrier))
  | .schedule .. | .scheduleBarrier .. | .retry _ | .enqueue _ | .leaveDorman _ | .spawn _ |
    .spawnCount _ | .spawnCreate .. | .spawnFailed _ | .inlineRun _ | .inlineDone .. | .start _ |
    .top _ | .probe _ | .park _ | .wake _ | .run _ | .finish .. | .exit _ | .stop | .stopWake |
    .stopVerify =>
      inferInstanceAs (Decidable True)

theorem Kept.gap_eq (kept : Kept state) {act : Act Req Mod} (taken : Taken state.pool act next) :
    gap ⟨next, state.stat.count state.pool act⟩ =
      state.gap + if Counts state act then 0 else 1 := by
  have each := fun wrk => taken.gap kept.disciplined.conserved (state.stat.worker wrk) wrk
  unfold gap
  dsimp only
  rw [taken.thpMax_eq]
  refine (Finset.sum_congr rfl fun wrk _ => each wrk).trans ?_
  rw [Finset.sum_add_distrib]
  congr 1
  by_cases counts : Counts state act
  · rw [if_pos counts]
    refine Finset.sum_eq_zero fun wrk _ => if_neg ?_
    rintro ⟨rfl, takes⟩
    exact counts takes
  · rw [if_neg counts]
    cases taken with
    | @look wrk here =>
        have takes : state.pool.TakesBarrier := not_not.mp counts
        have inside := kept.disciplined.within.manned wrk (by rw [here]; nofun)
        have at_ : ∀ other, state.pool.TakesAt other (.look wrk) ↔ wrk = other := fun other =>
          ⟨fun takesAt => Act.look.inj takesAt.1, fun same => ⟨congrArg Act.look same, takes⟩⟩
        rw [Finset.sum_congr rfl fun other _ => if_congr (at_ other) rfl rfl, Finset.sum_ite_eq,
          if_pos (Finset.mem_range.mpr inside)]
    | _ => exact (counts trivial).elim

/-- **Behind `thp_stop` the audit succeeds exactly when nothing was left uncounted.** -/
theorem Kept.audit_iff (kept : Kept state) (returned : state.pool.stop = .returned) :
    Audit state ↔ state.gap = 0 := by
  have disciplined := kept.disciplined
  have ended := kept.ended
  have finishedAll := disciplined.vetted
  unfold Ended at ended
  unfold Vetted at finishedAll
  rw [returned] at ended finishedAll
  dsimp only at ended finishedAll
  obtain ⟨finished, tally, total⟩ := kept.tally
  have none : pending state.pool.accepted state.pool.finished = [] :=
    List.filter_eq_nil_iff.mpr fun req accepted => by
      rw [finishedAll req accepted]
      exact Bool.false_ne_true
  have reqcnt : ∀ wrk, (state.pool.thpWorkers wrk).wrkReqcnt = 0 := by
    intro wrk
    have empty : (state.pool.thpWorkers wrk).wrkQueue = [] := by
      refine List.eq_nil_iff_forall_not_mem.mpr fun req inside => ?_
      have ledger := disciplined.conserved.books.ledger
      obtain ⟨accepted, unfinished⟩ := (ledger.somewhere_iff req).mp ⟨.worker wrk, inside⟩
      rw [finishedAll req accepted] at unfinished
      cases unfinished
    rw [disciplined.conserved.reqcnt, empty]
    rfl
  have all : state.stat.statSched = state.total (·.wrkSched) := by
    have served : state.total (·.wrkSched) =
        ∑ wrk ∈ Finset.range state.pool.thpMax, finished wrk := by
      refine Finset.sum_congr rfl fun wrk _ => ?_
      have one := (tally wrk).sched
      rw [ended wrk] at one
      exact one.trans (Int.add_zero _)
    rw [served, total, kept.submitted, completed, none]
    exact (Int.sub_zero _).symm
  have kinds : state.total (·.wrkSchedFast) + state.total (·.wrkSchedSlow) =
      state.total (·.wrkSchedDirect) + state.total (·.wrkIdleCommWork) := by
    unfold Metered.total
    rw [← Finset.sum_add_distrib, ← Finset.sum_add_distrib]
    exact Finset.sum_congr rfl fun wrk _ => (tally wrk).kinds
  have threads : state.total (·.wrkThrSpawned) = state.total (·.wrkThrExit) := by
    refine Finset.sum_congr rfl fun wrk _ => ?_
    have one := (tally wrk).threads
    rw [ended wrk] at one
    exact one.trans (Int.add_zero _)
  have gap : state.gap =
      state.total (·.wrkSched) - state.total (·.wrkSchedDirect) -
        state.total (·.wrkIdleCommWork) := by
    unfold Metered.total Metered.gap
    rw [← Finset.sum_sub_distrib, ← Finset.sum_sub_distrib]
    refine Finset.sum_congr rfl fun wrk _ => ?_
    rw [WorkerStat.gap, reqcnt wrk, Int.add_zero]
  have inline := kept.inline
  constructor
  · intro audit
    have served := audit.served
    omega
  · intro balanced
    exact ⟨threads, all, by omega, by omega⟩

def Initial (state : Metered Req Mod) : Prop := state.pool.Initial ∧ state.stat = .zero

theorem Initial.kept (initial : Initial state) : Kept state := by
  obtain ⟨pool, zero⟩ := initial
  have disciplined := pool.disciplined
  obtain ⟨thpMin, thpMax, created, request, -, -, same⟩ := pool
  have ran : ∀ wrk, loops (state.pool.thpWorkers wrk).pc = 0 ∧
      busy (state.pool.thpWorkers wrk).pc = 0 := by
    intro wrk
    rw [same]
    by_cases spawned : wrk < thpMin ∧ created wrk = true
    · simp only [modInit, if_pos spawned, loops, busy, and_self]
    · simp only [modInit, if_neg spawned, loops, busy, and_self]
  refine ⟨disciplined, ?_, by rw [zero]; rfl, by rw [zero, same]; rfl, fun _ => 0, ?_, ?_⟩
  · rw [same]
    trivial
  · intro wrk
    rw [zero]
    refine ⟨?_, ?_, rfl⟩
    · rw [(ran wrk).1]
      rfl
    · rw [(ran wrk).2]
      rfl
  · rw [Finset.sum_const_zero, same]
    rfl

theorem Initial.gap (initial : Initial state) : state.gap = 0 := by
  have reqcnt := initial.1.conserved.reqcnt
  refine Finset.sum_eq_zero fun wrk _ => ?_
  have empty : (state.pool.thpWorkers wrk).wrkQueue = [] := by
    obtain ⟨thpMin, thpMax, created, request, -, -, same⟩ := initial.1
    rw [same]
    exact congrFun (contents_modInit thpMin thpMax created request) (.worker wrk)
  rw [initial.2, reqcnt, empty]
  rfl

/-- **After a quiet run the audit succeeds exactly when no request was taken from the barrier queue
itself.** -/
theorem audit_iff_counts {start : Metered Req Mod} {labels : List (Act Req Mod)}
    {outputs : List Unit}
    (initial : Initial start) (quiet : (machine Req Mod).Meets Quiet start labels)
    (ran : (machine Req Mod).run start labels = some (state, outputs))
    (returned : state.pool.stop = .returned) :
    Audit state ↔ (machine Req Mod).Meets Counts start labels := by
  have preserves : (machine Req Mod).Preserves Quiet Kept :=
    fun _ _ _ _ kept quiet stepped => kept.of_machine quiet stepped
  have kept := preserves.run initial.kept quiet ran
  have moved : ∀ before act after (output : Unit), Kept before →
      (machine Req Mod).step before act = some (after, output) →
        after.gap = before.gap + if Counts before act then 0 else 1 := by
    intro before act after output kept stepped
    obtain ⟨next, took, same⟩ := Option.map_eq_some_iff.mp stepped
    cases same
    exact kept.gap_eq (taken_of_step took)
  have gauge : start.gap ≤ state.gap ∧
      (state.gap = start.gap ↔ (machine Req Mod).Meets Counts start labels) := by
    refine preserves.gauge_eq_iff ?_ ?_ initial.kept quiet ran
    · intro before act after output kept _ stepped counts
      rw [moved before act after output kept stepped, if_pos counts, Int.add_zero]
    · intro before act after output kept _ stepped left
      rw [moved before act after output kept stepped, if_neg left]
      omega
  rw [kept.audit_iff returned, ← gauge.2, initial.gap]

section Audits

/-- One worker with its thread, and two requests. -/
def meteredWorker : Metered (Fin 2) Unit :=
  ⟨modInit 1 1 (fun _ => true) fun _ => ⟨none, Request.waiting⟩, .zero⟩

private theorem initial_meteredWorker : Initial meteredWorker :=
  ⟨⟨1, 1, _, _, Nat.one_pos, Nat.le_refl 1, rfl⟩, rfl⟩

/-- `thp_stop`, behind the last thread. -/
def stopping : List (Act (Fin 2) Unit) :=
  [.stop, .top 0, .exit 0, .stopWake, .stopVerify, .stopVerify, .stopVerify, .stopVerify, .stopVerify,
    .stopVerify, .stopVerify, .stopVerify]

/-- A request is handed to the worker, and when it is finished another one. -/
def handed : List (Act (Fin 2) Unit) :=
  [.start 0, .schedule (some ()) 0 .fastQueue, .enqueue 0, .top 0, .run 0, .finish 0 false,
    .scheduleBarrier (some ()) 1 .slowQueue, .retry 1, .top 0, .look 0, .run 0, .finish 0 false] ++
      stopping

private theorem handed_runs : ((machine (Fin 2) Unit).run meteredWorker handed).isSome = true := by
  decide +kernel

deriving instance DecidableEq for StopCheck, Stop

instance {n : Nat} (state : Metered (Fin n) Mod) : DecidablePred state.Quiet :=
  inferInstanceAs (DecidablePred state.pool.Quiet)

theorem audit_iff_counts_handed :
    Audit ((machine (Fin 2) Unit).final meteredWorker handed handed_runs) := by
  have quiet : (machine (Fin 2) Unit).Meets Quiet meteredWorker handed := by decide +kernel
  have counts : (machine (Fin 2) Unit).Meets Counts meteredWorker handed := by decide +kernel
  have returned : ((machine (Fin 2) Unit).final meteredWorker handed handed_runs).pool.stop =
      .returned := by
    decide +kernel
  exact (audit_iff_counts initial_meteredWorker quiet (Option.some_get handed_runs).symm returned).mpr counts

/-- The second request is queued behind the first one, as a barrier. -/
def behindBarrier : List (Act (Fin 2) Unit) :=
  [.start 0, .schedule (some ()) 0 .fastQueue, .enqueue 0, .scheduleBarrier (some ()) 1 .slowQueue,
    .top 0, .run 0, .finish 0 false, .top 0, .look 0, .run 0, .finish 0 false] ++ stopping

private theorem behindBarrier_runs :
    ((machine (Fin 2) Unit).run meteredWorker behindBarrier).isSome = true := by
  decide +kernel

/-- The pool is stopped when nothing is left to do, and the audit fails. -/
theorem exists_returned_not_audit : ∃ state : Metered (Fin 2) Unit,
    (machine (Fin 2) Unit).Reached Initial Quiet state ∧ state.pool.stop = .returned ∧
      ¬ Audit state := by
  have quiet : (machine (Fin 2) Unit).Meets Quiet meteredWorker behindBarrier := by decide +kernel
  refine ⟨_, Machine.reached_final initial_meteredWorker quiet behindBarrier_runs, by decide +kernel, ?_⟩
  have unserved : ((machine (Fin 2) Unit).final _ _ behindBarrier_runs).total (·.wrkSchedDirect) +
      ((machine (Fin 2) Unit).final _ _ behindBarrier_runs).total (·.wrkIdleCommWork) ≠
        ((machine (Fin 2) Unit).final _ _ behindBarrier_runs).stat.statSched := by
    decide +kernel
  exact fun audit => unserved audit.served

end Audits

end Metered

end ThreadPool

end Tvntd
