import Tvntd.Di.ThreadPool.Runs

/-! # Execution and completion of a request

What a request is executed with, and when a thread in `req_wait` returns. A
request that goes through the critical section of `schedule` has its module
there, in every run of the pool, and its flags tell whether it is done. One that
`schedule_barrier` queues gets neither: no module, and the flag `barrier` in the
word that a waiting thread reads.
-/

namespace Tvntd

open Placement Function

namespace ThreadPool

set_option linter.unusedSectionVars false

variable {Req Mod : Type} [DecidableEq Req] {pool next : ThreadPool Req Mod}

/-! ## Where requests come from -/

private theorem somewhere_setSubmit {req other : Req} {after : Submit Mod}
    (somewhere : Somewhere (pool.setSubmit req after).contents other) :
    Somewhere pool.contents other ∨ other = req := by
  obtain ⟨place, here⟩ := somewhere
  rw [contents_setSubmit] at here
  rcases mem_update.mp here with ⟨-, kept⟩ | ⟨-, old⟩
  · cases after with
    | hand | inline | inlineRunning => exact .inr (List.mem_singleton.mp kept)
    | _ => exact (List.not_mem_nil kept).elim
  · exact .inl ⟨place, old⟩

private theorem somewhere_setWorker {wrk : Nat} {after : WorkerThread Req} {req : Req}
    (somewhere : Somewhere (pool.setWorker wrk after).contents req) :
    Somewhere pool.contents req ∨ req ∈ after.wrkQueue ∨ req ∈ held after.pc := by
  obtain ⟨place, here⟩ := somewhere
  rw [contents_setWorker] at here
  rcases mem_update.mp here with ⟨-, holds⟩ | ⟨-, here⟩
  · exact .inr (.inr holds)
  · rcases mem_update.mp here with ⟨-, queued⟩ | ⟨-, old⟩
    · exact .inr (.inl queued)
    · exact .inl ⟨place, old⟩

private theorem somewhere_setPc {wrk : Nat} {pc : WorkerPc Req} {req : Req}
    (somewhere : Somewhere (pool.setPc wrk pc).contents req) :
    Somewhere pool.contents req ∨ req ∈ held pc := by
  rcases somewhere_setWorker somewhere with old | queued | holds
  · exact .inl old
  · exact .inl ⟨.worker wrk, queued⟩
  · exact .inr holds

private theorem somewhere_modEnqueue {req other : Req} {qno : Reqq}
    (somewhere : Somewhere (pool.modEnqueue req qno).contents other) :
    Somewhere pool.contents other ∨ other = req := by
  obtain ⟨place, here⟩ := somewhere
  rw [contents_modEnqueue] at here
  rcases mem_update.mp here with ⟨-, queued⟩ | ⟨-, old⟩
  · rcases List.mem_append.mp queued with old | last
    · exact .inl ⟨.queue qno, old⟩
    · exact .inr (List.mem_singleton.mp last)
  · exact .inl ⟨place, old⟩

/-- A queue that loses requests. -/
theorem somewhere_mQueue {qno : Reqq} {list : List Req} (fewer : ∀ rq ∈ list, rq ∈ pool.mQueue qno)
    {req : Req} (somewhere : Somewhere ({ pool with
      mQueue := update pool.mQueue qno list } : ThreadPool Req Mod).contents req) :
    Somewhere pool.contents req := by
  obtain ⟨place, here⟩ := somewhere
  rw [contents_mQueue] at here
  rcases mem_update.mp here with ⟨-, queued⟩ | ⟨-, old⟩
  · exact ⟨.queue qno, fewer req queued⟩
  · exact ⟨place, old⟩

private theorem somewhere_schedule {mod : Option Mod} {req other : Req} {qno : Reqq}
    (somewhere : Somewhere (pool.schedule mod req qno).contents other) :
    Somewhere pool.contents other ∨ other = req := by
  rcases schedule_cases pool mod req qno with ⟨-, same⟩ | ⟨-, rest, relisted, outcome⟩
  · rw [same] at somewhere
    rcases somewhere_setSubmit somewhere with queued | mine
    · exact somewhere_modEnqueue queued
    · exact .inr mine
  · have contents : rest.contents = pool.contents := relisted.contents
    rcases outcome with ⟨wrk, same⟩ | ⟨queue, after, -, -, -, same⟩ | ⟨-, same⟩
    · rw [same] at somewhere
      rw [← contents]
      exact somewhere_setSubmit somewhere
    · rw [same] at somewhere
      rw [← contents]
      rcases somewhere_setSubmit somewhere with queued | mine
      · exact somewhere_modEnqueue queued
      · exact .inr mine
    · rw [same] at somewhere
      rw [← contents]
      exact somewhere_setSubmit somewhere

/-- A promotion moves requests. -/
theorem somewhere_promoted {cnt : Nat} {req : Req}
    (promotion : thpPromoteBarrierLck cnt pool = some next)
    (somewhere : Somewhere next.contents req) : Somewhere pool.contents req := by
  have turn : ∀ (turn : ThreadPool Req Mod) (rq : Req) (list : List Req),
      (Somewhere turn.contents req → Somewhere pool.contents req) →
        turn.mQueue .barrier = rq :: list →
        Somewhere ((turn.resumed rq list).wakeIdle rq).contents req →
          Somewhere pool.contents req := by
    intro turn rq list held queue moved
    rw [(Relisted.wakeIdle (turn.resumed rq list) rq).contents] at moved
    refine held ?_
    rcases somewhere_modEnqueue moved with left | rfl
    · refine somewhere_mQueue (fun rq inside => ?_) left
      rw [queue]
      exact List.mem_cons_of_mem _ inside
    · refine ⟨.queue .barrier, ?_⟩
      change req ∈ turn.mQueue .barrier
      rw [queue]
      exact List.mem_cons_self
  exact promoted_of_turns (fun turn => Somewhere turn.contents req → Somewhere pool.contents req)
    (fun before rq list held queue _ => turn before rq list held queue) id promotion somewhere

private theorem somewhere_getReqOrPutIdle {wrk : Nat} {req : Req}
    (somewhere : Somewhere (pool.getReqOrPutIdle wrk).contents req) :
    Somewhere pool.contents req := by
  have looked : ∀ {rq : Req}, Somewhere (pool.looking wrk).contents rq →
      Somewhere pool.contents rq := by
    intro rq here
    rcases somewhere_setWorker here with old | queued | holds
    · exact old
    · exact ⟨.worker wrk, queued⟩
    · exact ⟨.hand wrk, holds⟩
  rcases getReqOrPutIdle_cases pool wrk with ⟨qno, thr, rq, list, -, queue, same⟩ |
    ⟨-, -, ⟨-, same⟩ | ⟨-, same⟩⟩
  · rw [same] at somewhere
    rcases somewhere_setPc somewhere with moved | mine
    · rw [(Relisted.thpSwapQueue _ wrk thr).contents] at moved
      refine looked (somewhere_mQueue (fun rq inside => ?_) moved)
      change rq ∈ pool.mQueue qno
      rw [queue]
      exact List.mem_cons_of_mem _ inside
    · refine ⟨.queue qno, ?_⟩
      change req ∈ pool.mQueue qno
      rw [List.mem_singleton.mp mine, queue]
      exact List.mem_cons_self
  · rw [same] at somewhere
    rcases somewhere_setPc somewhere with moved | mine
    · rw [(Relisted.thpSwapQueue _ wrk .idleThr).contents] at moved
      exact looked moved
    · exact (List.not_mem_nil mine).elim
  · rw [same] at somewhere
    cases taken : (pool.looking wrk).takeBarrier wrk with
    | none =>
        rw [taken, Option.getD_none] at somewhere
        rcases somewhere_setPc somewhere with moved | mine
        · exact looked moved
        · exact (List.not_mem_nil mine).elim
    | some after =>
        obtain ⟨rq, list, promoted, queue, promotion, rfl⟩ := takeBarrier_eq taken
        rw [taken, Option.getD_some] at somewhere
        rcases somewhere_setPc somewhere with moved | mine
        · have left : Somewhere ((pool.looking wrk).undeferred list).contents req :=
            somewhere_promoted promotion moved
          rw [contents_undeferred, ← contents_mQueue] at left
          refine looked (somewhere_mQueue (fun rq inside => ?_) left)
          rw [queue]
          exact List.mem_cons_of_mem _ inside
        · refine ⟨.queue .barrier, ?_⟩
          change req ∈ (pool.looking wrk).mQueue .barrier
          rw [List.mem_singleton.mp mine, queue]
          exact List.mem_cons_self

/-- A step that moves nothing in or out of the queues of the pool finds its requests in the pool, or
with their submitters. -/
theorem Taken.somewhere_of {act : Act Req Mod} (taken : Taken pool act next) (still : ¬ Moves act)
    {req : Req} (somewhere : Somewhere next.contents req) :
    Somewhere pool.contents req ∨ ¬ Unsubmitted (pool.submit req) := by
  -- A submission that goes on behind the critical section of `schedule`.
  have goesOn : ∀ {before : ThreadPool Req Mod} {other : Req} {at_ after : Submit Mod},
      Somewhere (before.setSubmit other after).contents req → pool.submit other = at_ →
      ¬ Unsubmitted at_ →
      (Somewhere before.contents req → Somewhere pool.contents req ∨ ¬ Unsubmitted (pool.submit req)) →
        Somewhere pool.contents req ∨ ¬ Unsubmitted (pool.submit req) := by
    intro before other at_ after here begun behind held
    rcases somewhere_setSubmit here with old | rfl
    · exact held old
    · exact .inr (begun ▸ behind)
  -- A worker that keeps its queue and holds nothing new.
  have worker : ∀ {before : ThreadPool Req Mod} {wrk : Nat} {after : WorkerThread Req},
      Somewhere (before.setWorker wrk after).contents req →
      (∀ rq ∈ after.wrkQueue, rq ∈ before.contents (.worker wrk)) →
      (∀ rq ∈ held after.pc, Somewhere before.contents rq) →
      before.contents = pool.contents →
        Somewhere pool.contents req ∨ ¬ Unsubmitted (pool.submit req) := by
    intro before wrk after here queue holds same
    rw [← same]
    rcases somewhere_setWorker here with old | queued | mine
    · exact .inl old
    · exact .inl ⟨.worker wrk, queue req queued⟩
    · exact .inl (holds req mine)
  have none : ∀ {before : ThreadPool Req Mod}, ∀ rq ∈ ([] : List Req),
    Somewhere before.contents rq := nofun
  cases taken with
  | schedule | scheduleBarrier | retry | look => exact (still trivial).elim
  | @enqueue other wrk begun free =>
      unfold workerEnqueue at somewhere
      dsimp only at somewhere
      split at somewhere
      · refine goesOn somewhere begun id fun here => ?_
        rw [(Relisted.signal _ wrk other).contents] at here
        rcases somewhere_setWorker here with old | queued | holds
        · exact .inl old
        · rcases List.mem_append.mp queued with old | last
          · exact .inl ⟨.worker wrk, old⟩
          · rw [List.mem_singleton.mp last, begun]
            exact .inr id
        · exact .inl ⟨.hand wrk, holds⟩
      · exact goesOn somewhere begun id .inl
  | leaveDorman begun =>
      unfold ThreadPool.leaveDorman at somewhere
      split at somewhere
      · exact goesOn somewhere begun id .inl
      · exact goesOn somewhere begun id .inl
  | @spawn other wrk begun =>
      unfold workerSpawnThr at somewhere
      dsimp only at somewhere
      split at somewhere
      · exact goesOn somewhere begun id .inl
      · exact goesOn somewhere begun id fun here =>
          worker here (fun _ => id) (fun _ holds => ⟨.hand wrk, holds⟩) rfl
  | @spawnCount other wrk begun =>
      exact goesOn somewhere begun id fun here => worker here (fun _ => id) none rfl
  | @spawnCreate other wrk created begun =>
      unfold ThreadPool.spawnCreate at somewhere
      dsimp only at somewhere
      split at somewhere
      · exact goesOn somewhere begun id fun here => worker here (fun _ => id) none rfl
      · exact goesOn somewhere begun id fun here => worker here (fun _ => id) none rfl
  | @spawnFailed other wrk begun =>
      refine goesOn somewhere begun id fun here => ?_
      rw [(Relisted.thpSwapQueue pool wrk .dormanThr).contents] at here
      exact .inl here
  | inlineRun begun => exact goesOn somewhere begun id .inl
  | inlineDone begun => exact goesOn somewhere begun id .inl
  | @start wrk here =>
      exact worker somewhere (fun _ => id) none (Relisted.thpSwapQueue pool wrk .fastThr).contents
  | @top wrk here =>
      unfold loopTop at somewhere
      dsimp only at somewhere
      split at somewhere
      · exact worker somewhere (fun _ => id) none rfl
      · split at somewhere
        · exact worker somewhere (fun _ => id) none rfl
        · rename_i rq rest queue
          have inside :
              ∀ {other : Req}, other ∈ rq :: rest → other ∈ pool.contents (.worker wrk) := by
            intro other member
            change other ∈ (pool.thpWorkers wrk).wrkQueue
            rw [queue]
            exact member
          refine worker somewhere (fun _ later => inside (List.mem_cons_of_mem _ later)) ?_ rfl
          intro other mine
          rw [List.mem_singleton.mp mine]
          exact ⟨.worker wrk, inside List.mem_cons_self⟩
  | @probe wrk here =>
      unfold loopProbe at somewhere
      split at somewhere
      · exact worker somewhere (fun _ => id) none rfl
      · split at somewhere
        · exact worker somewhere (fun _ => id) none rfl
        · exact worker somewhere (fun _ => id) none rfl
  | park here => exact worker somewhere (fun _ => id) none rfl
  | wake here => exact worker somewhere (fun _ => id) none rfl
  | @run wrk rq here =>
      have holds : rq ∈ pool.contents (.hand wrk) := by
        change rq ∈ held (pool.thpWorkers wrk).pc
        rw [here]
        exact List.mem_cons_self
      refine worker somewhere (fun _ => id) ?_ rfl
      intro other mine
      rw [List.mem_singleton.mp mine]
      exact ⟨.hand wrk, holds⟩
  | @finish wrk rq chained here =>
      exact worker somewhere (fun _ => id) none rfl
  | @exit wrk here =>
      exact worker somewhere (fun _ => id) none
        (Relisted.thpSwapQueue { pool with thpRunThds := pool.thpRunThds - 1 } wrk .dormanThr).contents
  | stop begun =>
      obtain ⟨place, here⟩ := somewhere
      refine .inl ⟨place, ?_⟩
      cases place with
      | queue qno | submitter other => exact here
      | worker wrk | hand wrk =>
          by_cases inside : wrk < pool.thpMax
          · simpa only [contents, thpStop, if_pos inside] using here
          · simpa only [contents, thpStop, if_neg inside] using here
  | stopWake => exact .inl somewhere
  | stopReturn => exact .inl somewhere
  | stopVerify => exact .inl somewhere

/-! ## Modules and flags -/

/-- The request that `req_done` is called on. -/
def doneBy (pool : ThreadPool Req Mod) : Act Req Mod → Option Req
  | .finish wrk chained =>
      match (pool.thpWorkers wrk).pc with
      | .running req => if chained = false then some req else none
      | _ => none
  | .inlineDone req chained =>
      match pool.submit req with
      | .inlineRunning => if chained = false then some req else none
      | _ => none
  | _ => none

/-- How a step writes to a request. -/
inductive Written (pool : ThreadPool Req Mod) (act : Act Req Mod) (req : Req) :
    Request Mod → Prop where
  | same : Written pool act req (pool.request req)
  | done (called : pool.doneBy act = some req) :
      Written pool act req { pool.request req with rqDoneFlgs := Request.complete }
  | scheduled {mod : Option Mod} {qno : Reqq}
      (schedules : act = .schedule mod req qno ∨ act = .retry req ∧ pool.submit req = .retry mod qno) :
      Written pool act req { pool.request req with rqMod := mod }
  | deferred {mod : Option Mod} {qno : Reqq} (defers : act = .scheduleBarrier mod req qno)
      (active : 1 ≤ pool.thpSchedReq) : Written pool act req
        { pool.request req with rqDoneFlgs := (pool.request req).rqDoneFlgs ||| Request.barrier }

private theorem written_execDone {act : Act Req Mod} {other : Req} {chained : Bool}
    (called : chained = false → pool.doneBy act = some other) (req : Req) :
    Written pool act req ((pool.execDone other chained).request req) := by
  unfold execDone
  dsimp only
  split
  · rename_i both
    by_cases same : req = other
    · subst same
      rw [update_self]
      exact .done (called both.1)
    · rw [update_of_ne same]
      exact .same
  · exact .same

private theorem request_signal (pool : ThreadPool Req Mod) (wrk : Nat) (req : Req) :
    (pool.signal wrk req).request = pool.request := by
  unfold signal
  dsimp only
  split
  · rfl
  · rfl

theorem Taken.written {act : Act Req Mod} (taken : Taken pool act next) (req : Req) :
    Written pool act req (next.request req) := by
  have entered : ∀ {mod : Option Mod} {other : Req} {qno : Reqq},
      (act = .schedule mod other qno ∨ act = .retry other ∧ pool.submit other = .retry mod qno) →
        Written pool act req ((pool.schedule mod other qno).request req) := by
    intro mod other qno schedules
    rw [(entered_schedule pool mod other qno).request]
    by_cases same : req = other
    · subst same
      rw [update_self]
      exact .scheduled schedules
    · rw [update_of_ne same]
      exact .same
  cases taken with
  | schedule begun => exact entered (.inl rfl)
  | retry begun => exact entered (.inr ⟨rfl, begun⟩)
  | @scheduleBarrier mod other qno begun =>
      unfold ThreadPool.scheduleBarrier
      dsimp only
      split
      · change Written _ _ _ (update pool.request other _ req)
        by_cases same : req = other
        · subst same
          rw [update_self]
          exact .deferred rfl ‹_›
        · rw [update_of_ne same]
          exact .same
      · exact .same
  | @enqueue other wrk =>
      unfold workerEnqueue
      dsimp only
      split
      · change Written _ _ _ ((signal _ wrk other).request req)
        rw [request_signal]
        exact .same
      · exact .same
  | leaveDorman =>
      unfold ThreadPool.leaveDorman
      split
      · exact .same
      · exact .same
  | spawn =>
      unfold workerSpawnThr
      dsimp only
      split
      · exact .same
      · exact .same
  | spawnCreate =>
      unfold ThreadPool.spawnCreate
      dsimp only
      split
      · exact .same
      · exact .same
  | top =>
      unfold loopTop
      dsimp only
      split
      · exact .same
      · split
        · exact .same
        · exact .same
  | @look wrk =>
      rw [served_getReqOrPutIdle pool wrk]
      exact .same
  | probe =>
      unfold loopProbe
      split
      · exact .same
      · split
        · exact .same
        · exact .same
  | @finish wrk other chained here =>
      refine written_execDone (fun called => ?_) req
      rw [doneBy, here]
      exact if_pos called
  | @inlineDone other chained begun =>
      refine written_execDone (fun called => ?_) req
      rw [doneBy, begun]
      exact if_pos called
  | _ => exact .same

/-- The request is submitted with this module. -/
def SubmittedWith (mod : Mod) (req : Req) : Act Req Mod → Prop
  | .schedule given other _ => other = req → given = some mod
  | .scheduleBarrier given other _ => other = req → given = some mod
  | _ => True

instance [DecidableEq Mod] (mod : Mod) (req : Req) : DecidablePred (SubmittedWith mod req)
  | .schedule _ _ _ | .scheduleBarrier _ _ _ => inferInstanceAs (Decidable (_ → _))
  | .retry _ | .enqueue _ | .leaveDorman _ | .spawn _ | .spawnCount _ | .spawnCreate _ _ | .spawnFailed _
  | .inlineRun _ | .inlineDone _ _ | .start _ | .top _ | .look _ | .probe _ | .park _ | .wake _ | .run _
  | .finish _ _ | .exit _ | .stop | .stopWake | .stopVerify => inferInstanceAs (Decidable True)

/-- `schedule_barrier` does not queue the request. -/
def Passed (req : Req) (pool : ThreadPool Req Mod) : Act Req Mod → Prop
  | .scheduleBarrier _ other _ => other = req → ¬ 1 ≤ pool.thpSchedReq
  | _ => True

instance (req : Req) (pool : ThreadPool Req Mod) : DecidablePred (Passed req pool)
  | .scheduleBarrier _ _ _ => inferInstanceAs (Decidable (_ → _))
  | .schedule _ _ _ | .retry _ | .enqueue _ | .leaveDorman _ | .spawn _ | .spawnCount _ | .spawnCreate _ _
  | .spawnFailed _ | .inlineRun _ | .inlineDone _ _ | .start _ | .top _ | .look _ | .probe _ | .park _
  | .wake _ | .run _ | .finish _ _ | .exit _ | .stop | .stopWake | .stopVerify =>
      inferInstanceAs (Decidable True)

/-- The module of a request behind its critical section, and of its executions. -/
structure Bound (mod : Mod) (req : Req) (pool : ThreadPool Req Mod) : Prop where
  entered : Somewhere pool.contents req → ¬ Unsubmitted (pool.submit req)
  bound : ¬ Unsubmitted (pool.submit req) → (pool.request req).rqMod = some mod
  retry : ∀ given qno, pool.submit req = .retry given qno → given = some mod
  execs : ∀ given ∈ pool.execs req, given = some mod

theorem Bound.schedule {mod : Mod} {req : Req} (bound : Bound mod req pool) {given : Option Mod}
    {other : Req} (fits : other = req → given = some mod) (qno : Reqq) :
    Bound mod req (pool.schedule given other qno) := by
  have entered := entered_schedule pool given other qno
  obtain ⟨after, behind, submit⟩ := entered.submit
  refine ⟨?_, ?_, ?_, ?_⟩
  · intro somewhere
    rw [submit]
    by_cases same : req = other
    · subst same
      rw [update_self]
      exact behind
    · rw [update_of_ne same]
      exact bound.entered ((somewhere_schedule somewhere).resolve_right same)
  · intro submitted
    rw [entered.request]
    by_cases same : req = other
    · subst same
      rw [update_self]
      exact fits rfl
    · rw [submit, update_of_ne same] at submitted
      rw [update_of_ne same]
      exact bound.bound submitted
  · intro module queue retries
    rw [submit] at retries
    by_cases same : req = other
    · subst same
      rw [update_self] at retries
      exact (behind (retries ▸ trivial)).elim
    · rw [update_of_ne same] at retries
      exact bound.retry module queue retries
  · rw [entered.execs]
    exact bound.execs

theorem Bound.scheduleBarrier {mod : Mod} {req : Req} (bound : Bound mod req pool)
    {given : Option Mod}
    {other : Req} (begun : pool.submit other = .fresh) (fits : other = req → given = some mod)
    (passed : other = req → ¬ 1 ≤ pool.thpSchedReq) (qno : Reqq) :
    Bound mod req (pool.scheduleBarrier given other qno) := by
  by_cases same : other = req
  · subst same
    have fresh : ¬ Somewhere pool.contents other := fun somewhere =>
      bound.entered somewhere (begun ▸ trivial)
    unfold ThreadPool.scheduleBarrier
    dsimp only
    rw [if_neg (passed rfl)]
    refine ⟨?_, ?_, ?_, bound.execs⟩
    · intro somewhere
      obtain ⟨place, here⟩ := somewhere
      rw [contents_setSubmit] at here
      rcases mem_update.mp here with ⟨-, kept⟩ | ⟨-, old⟩
      · exact (List.not_mem_nil kept).elim
      · exact (fresh ⟨place, old⟩).elim
    · intro submitted
      simp only [setSubmit, update_self] at submitted
      exact (submitted trivial).elim
    · intro module queue retries
      simp only [setSubmit, update_self, Submit.retry.injEq] at retries
      exact retries.1 ▸ fits rfl
  · have submit : ∀ after, update pool.submit other after req = pool.submit req :=
      fun after => update_of_ne (Ne.symm same) _ _
    have moved : ∀ {before : ThreadPool Req Mod} {after : Submit Mod}, before.submit = pool.submit →
        (Somewhere before.contents req → Somewhere pool.contents req ∨ req = other) →
        (before.request req).rqMod = (pool.request req).rqMod → before.execs = pool.execs →
        Bound mod req (before.setSubmit other after) := by
      intro before after submits contents request execs
      have kept : (before.setSubmit other after).submit req = pool.submit req := by
        change update before.submit other after req = _
        rw [submits]
        exact submit after
      refine ⟨?_, ?_, ?_, ?_⟩
      · intro somewhere
        rw [kept]
        refine bound.entered ?_
        rcases somewhere_setSubmit somewhere with old | mine
        · exact (contents old).resolve_right (Ne.symm same)
        · exact (same mine.symm).elim
      · rw [kept]
        exact fun submitted => request.trans (bound.bound submitted)
      · rw [kept]
        exact bound.retry
      · change ∀ given ∈ before.execs req, given = some mod
        rw [execs]
        exact bound.execs
    unfold ThreadPool.scheduleBarrier
    dsimp only
    split
    · refine moved rfl (fun somewhere => ?_) ?_ rfl
      · exact somewhere_modEnqueue somewhere
      · change (update pool.request other _ req).rqMod = _
        rw [update_of_ne (Ne.symm same)]
    · exact moved rfl .inl rfl rfl

theorem Bound.step {mod : Mod} {req : Req} (bound : Bound mod req pool) {act : Act Req Mod}
    (submitted : SubmittedWith mod req act) (passed : Passed req pool act)
    (taken : Taken pool act next) :
    Bound mod req next := by
  by_cases moves : Moves act
  · cases taken with
    | schedule begun => exact bound.schedule submitted _
    | retry begun =>
        refine bound.schedule (fun same => ?_) _
        subst same
        exact bound.retry _ _ begun
    | scheduleBarrier begun => exact bound.scheduleBarrier begun submitted passed _
    | @look wrk here =>
        have served := served_getReqOrPutIdle pool wrk
        refine ⟨?_, ?_, ?_, ?_⟩
        · intro somewhere
          have before := bound.entered (somewhere_getReqOrPutIdle somewhere)
          rw [served]
          exact before
        · rw [served]
          exact bound.bound
        · rw [served]
          exact bound.retry
        · rw [served]
          exact bound.execs
    | _ => exact moves.elim
  · have stays := taken.stays moves
    have kept : ¬ Unsubmitted (next.submit req) → ¬ Unsubmitted (pool.submit req) := by
      intro after before
      rw [stays.submitted req before] at after
      exact after before
    have still : ¬ Unsubmitted (pool.submit req) → ¬ Unsubmitted (next.submit req) := by
      intro before after
      rw [stays.unsubmitted req after] at after
      exact before after
    refine ⟨?_, ?_, ?_, ?_⟩
    · intro somewhere
      refine still ?_
      rcases taken.somewhere_of moves somewhere with old | behind
      · exact bound.entered old
      · exact behind
    · intro after
      have before := bound.bound (kept after)
      have written := taken.written req
      generalize next.request req = request at written
      cases written with
      | same | done | deferred => exact before
      | scheduled schedules =>
          rcases schedules with rfl | ⟨rfl, -⟩
          · exact (moves trivial).elim
          · exact (moves trivial).elim
    · intro given qno retries
      refine bound.retry given qno ?_
      rw [← stays.unsubmitted req (by rw [retries]; trivial)]
      exact retries
    · -- A request is executed with the module it has then.
      have recorded : ∀ other, (other = req → ¬ Unsubmitted (pool.submit req)) →
          ∀ given ∈ update pool.execs other
            (pool.execs other ++ [(pool.request other).rqMod]) req,
            given = some mod := by
        intro other behind given inside
        by_cases same : req = other
        · subst same
          rw [update_self] at inside
          rcases List.mem_append.mp inside with old | last
          · exact bound.execs given old
          · rw [List.mem_singleton.mp last]
            exact bound.bound (behind rfl)
        · rw [update_of_ne same] at inside
          exact bound.execs given inside
      have kept : (∀ wrk, act ≠ .run wrk) → (∀ other, act ≠ .inlineRun other) →
          ∀ given ∈ next.execs req, given = some mod := by
        intro begins inline
        rw [taken.execs_eq begins inline]
        exact bound.execs
      cases taken with
      | @run wrk rq here =>
          refine recorded rq (fun same => bound.entered ⟨.hand wrk, ?_⟩)
          change req ∈ held (pool.thpWorkers wrk).pc
          rw [here, same]
          exact List.mem_cons_self
      | inlineRun begun =>
          refine recorded _ (fun same => ?_)
          rw [← same, begun]
          exact id
      | _ => exact kept nofun nofun

/-! ## Waiting -/

/-- Where a thread is in `req_wait`. -/
inductive WaitPc where
  | out
  /-- At the condition of the loop. -/
  | check
  /-- In `pthread_cond_wait`. -/
  | blocked
  | returned
  deriving DecidableEq

/-- The pool with the threads that wait for its requests, and the calls of `req_done`. -/
structure Waiting (Thread Req Mod : Type) where
  pool : ThreadPool Req Mod
  waits : Thread → Req → WaitPc
  /-- `rq_cv` is set. -/
  rqCv : Req → Bool
  called : Req → Bool

namespace Waiting

variable {Thread : Type} [DecidableEq Thread]

/-- The steps of the pool and of those that wait. -/
inductive Act (Thread Req Mod : Type) where
  | pool (act : ThreadPool.Act Req Mod)
  /-- The module calls `req_done` on a request that it had chained. -/
  | reqDone (req : Req) (flags : BitVec 32)
  | reqWait (thread : Thread) (req : Req)
  | check (thread : Thread) (req : Req)
  | wake (thread : Thread) (req : Req)

def setPc (state : Waiting Thread Req Mod) (thread : Thread) (req : Req) (pc : WaitPc) :
    Waiting Thread Req Mod :=
  { state with
    waits := update state.waits thread (update (state.waits thread) req pc) }

/-- `req_done`, with the signal left out: a wait may end at any time. -/
def reqDone (state : Waiting Thread Req Mod) (req : Req) (flags : BitVec 32) :
    Waiting Thread Req Mod :=
  { state with
    pool := { state.pool with
      request := if ((state.pool.request req).rqMod).isSome then
          update state.pool.request req
            ⟨(state.pool.request req).rqMod, Request.complete ||| flags⟩
        else state.pool.request }
    called := update state.called req true }

/-- The condition of the loop in `req_wait`. -/
def check (state : Waiting Thread Req Mod) (thread : Thread) (req : Req) : Waiting Thread Req Mod :=
  if (state.pool.request req).rqDoneFlgs = Request.waiting then
    { state with rqCv := update state.rqCv req true }.setPc thread req .blocked
  else
    { state with rqCv := update state.rqCv req false }.setPc thread req .returned

def step (state : Waiting Thread Req Mod) : Act Thread Req Mod → Option (Waiting Thread Req Mod)
  | .pool act => (state.pool.step act).map fun next =>
      { state with
        pool := next
        called := match state.pool.doneBy act with
          | some req => update state.called req true
          | none => state.called }
  | .reqDone req flags => some (state.reqDone req flags)
  | .reqWait thread req =>
      -- What is asserted.
      if ((state.pool.request req).rqMod).isSome ∧ state.rqCv req = false then
        some (state.setPc thread req .check)
      else none
  | .check thread req =>
      if state.waits thread req = .check then some (state.check thread req) else none
  | .wake thread req =>
      if state.waits thread req = .blocked then some (state.setPc thread req .check) else none

def machine (Thread Req Mod : Type) [DecidableEq Req] [DecidableEq Thread] :
    Machine (Waiting Thread Req Mod) (Act Thread Req Mod) Unit :=
  ⟨fun state act => (state.step act).map (·, ())⟩

/-- The request is new: its module is not set, and nobody waits for it. -/
def Initial (req : Req) (state : Waiting Thread Req Mod) : Prop :=
  state.pool.Initial ∧ state.pool.request req = ⟨none, Request.waiting⟩ ∧
    ∀ thread, state.waits thread req = .out

/-- The request is submitted with this module. -/
def Submits (mod : Mod) (req : Req) : Act Thread Req Mod → Prop
  | .pool act => SubmittedWith mod req act
  | _ => True

instance [DecidableEq Mod] (mod : Mod) (req : Req) :
    DecidablePred (Submits mod req : Act Thread Req Mod → Prop)
  | .pool act => inferInstanceAs (Decidable (SubmittedWith mod req act))
  | .reqDone _ _ | .reqWait _ _ | .check _ _ | .wake _ _ => inferInstanceAs (Decidable True)

/-- The request is submitted with this module, and `schedule_barrier` does not queue it. -/
def Direct (mod : Mod) (req : Req) (state : Waiting Thread Req Mod) : Act Thread Req Mod → Prop
  | .pool act => SubmittedWith mod req act ∧ Passed req state.pool act
  | _ => True

instance [DecidableEq Mod] (mod : Mod) (req : Req) (state : Waiting Thread Req Mod) :
    DecidablePred (Direct mod req state)
  | .pool _ => inferInstanceAs (Decidable (_ ∧ _))
  | .reqDone _ _ | .reqWait _ _ | .check _ _ | .wake _ _ => inferInstanceAs (Decidable True)

/-- The request is executed by its module, and who has waited for it has waited until it was
done. -/
def Served (mod : Mod) (req : Req) (state : Waiting Thread Req Mod) : Prop :=
  (∀ given ∈ state.pool.execs req, given = some mod) ∧
    ∀ thread, state.waits thread req = .returned → state.called req = true

/-- The flags tell whether `req_done` was called. -/
structure Honest (mod : Mod) (req : Req) (state : Waiting Thread Req Mod) : Prop where
  bound : Bound mod req state.pool
  flags : (state.pool.request req).rqDoneFlgs = Request.waiting ∨ state.called req = true
  returned : ∀ thread, state.waits thread req = .returned → state.called req = true

theorem Honest.served {mod : Mod} {req : Req} {state : Waiting Thread Req Mod}
    (honest : Honest mod req state) : Served mod req state :=
  ⟨honest.bound.execs, honest.returned⟩

private theorem Honest.stepPool {mod : Mod} {req : Req} {state : Waiting Thread Req Mod}
    (honest : Honest mod req state) {act : ThreadPool.Act Req Mod}
    (submitted : SubmittedWith mod req act)
    (passed : Passed req state.pool act) {next : ThreadPool Req Mod}
    (taken : Taken state.pool act next) :
    Honest mod req { state with
      pool := next
      called := match state.pool.doneBy act with
        | some other => update state.called other true
        | none => state.called } := by
  have still : ∀ {called : Req → Bool}, (called = match state.pool.doneBy act with
      | some other => update state.called other true
      | none => state.called) → state.called req = true → called req = true := by
    intro called same before
    rw [same]
    cases state.pool.doneBy act with
    | none => exact before
    | some other =>
        by_cases mine : req = other
        · subst mine
          exact update_self ..
        · rw [← before]
          exact update_of_ne mine _ _
  refine ⟨honest.bound.step submitted passed taken, ?_, fun thread after => still rfl (honest.returned thread after)⟩
  have written := taken.written req
  generalize next.request req = request at written ⊢
  cases written with
  | same | scheduled => exact honest.flags.imp_right (still rfl)
  | done called =>
      refine .inr ?_
      dsimp only
      rw [called]
      exact update_self ..
  | deferred defers active =>
      subst defers
      exact (passed rfl active).elim

private theorem Honest.reqDone {mod : Mod} {req : Req} {state : Waiting Thread Req Mod}
    (honest : Honest mod req state) (other : Req) (flags : BitVec 32) :
    Honest mod req (state.reqDone other flags) := by
  have written : ((state.reqDone other flags).pool.request req).rqMod =
      (state.pool.request req).rqMod ∧
      (((state.reqDone other flags).pool.request req).rqDoneFlgs = (state.pool.request req).rqDoneFlgs ∨
        (state.reqDone other flags).called req = true) := by
    unfold Waiting.reqDone
    dsimp only
    by_cases same : req = other
    · subst same
      refine ⟨?_, .inr (update_self ..)⟩
      split
      · rw [update_self]
      · rfl
    · split
      · rw [update_of_ne same]
        exact ⟨rfl, .inl rfl⟩
      · exact ⟨rfl, .inl rfl⟩
  have still : state.called req = true → (state.reqDone other flags).called req = true := by
    intro before
    change update state.called other true req = true
    by_cases same : req = other
    · subst same
      exact update_self ..
    · rw [update_of_ne same]
      exact before
  refine ⟨⟨honest.bound.entered, ?_, honest.bound.retry, honest.bound.execs⟩, ?_,
    fun thread after => still (honest.returned thread after)⟩
  · intro submitted
    rw [written.1]
    exact honest.bound.bound submitted
  · rcases written.2 with same | called
    · rw [same]
      exact honest.flags.imp_right still
    · exact .inr called

/-- A thread moves in `req_wait`. It returns only where the request is done. -/
theorem Honest.move {mod : Mod} {req : Req} {state : Waiting Thread Req Mod}
    (honest : Honest mod req state) {rqCv : Req → Bool} {thread : Thread}
    {other : Req} {pc : WaitPc}
    (done : other = req → pc = .returned → state.called req = true) :
    Honest mod req ({ state with rqCv := rqCv }.setPc thread other pc) := by
  refine ⟨honest.bound, honest.flags, ?_⟩
  intro waiter after
  change update state.waits thread
    (update (state.waits thread) other pc) waiter req =
    .returned at after
  by_cases mine : waiter = thread
  · subst mine
    rw [update_self] at after
    by_cases same : req = other
    · subst same
      rw [update_self] at after
      exact done rfl after
    · rw [update_of_ne same] at after
      exact honest.returned waiter after
  · rw [update_of_ne mine] at after
    exact honest.returned waiter after

private theorem preserves_direct (mod : Mod) (req : Req) :
    (machine Thread Req Mod).Preserves (Direct mod req) (Honest mod req) := by
  intro state act after output honest direct stepped
  obtain ⟨next, took, same⟩ := Option.map_eq_some_iff.mp stepped
  cases same
  cases act with
  | pool act =>
      obtain ⟨pool, taken, rfl⟩ := Option.map_eq_some_iff.mp took
      exact honest.stepPool direct.1 direct.2 (taken_of_step taken)
  | reqDone other flags =>
      cases took
      exact honest.reqDone other flags
  | reqWait thread other =>
      simp only [step, Option.ite_none_right_eq_some, Option.some.injEq] at took
      obtain ⟨-, rfl⟩ := took
      exact honest.move nofun
  | check thread other =>
      simp only [step, Option.ite_none_right_eq_some, Option.some.injEq] at took
      obtain ⟨-, rfl⟩ := took
      unfold Waiting.check
      split
      · exact honest.move nofun
      · rename_i done
        refine honest.move fun same _ => ?_
        subst same
        exact honest.flags.resolve_left done
  | wake thread other =>
      simp only [step, Option.ite_none_right_eq_some, Option.some.injEq] at took
      obtain ⟨-, rfl⟩ := took
      exact honest.move nofun

private theorem Initial.honest {mod : Mod} {req : Req} {state : Waiting Thread Req Mod}
    (initial : Initial req state) : Honest mod req state := by
  obtain ⟨⟨thpMin, thpMax, created, requests, -, -, same⟩, request, out⟩ := initial
  have fresh : state.pool.submit req = .fresh := by
    rw [same]
    rfl
  refine ⟨⟨?_, ?_, ?_, ?_⟩, .inl (by rw [request]), ?_⟩
  · intro somewhere
    obtain ⟨place, here⟩ := somewhere
    rw [same, contents_modInit] at here
    exact (List.not_mem_nil here).elim
  · rw [fresh]
    exact fun submitted => (submitted trivial).elim
  · rw [fresh]
    exact nofun
  · rw [same]
    exact nofun
  · intro thread after
    rw [out] at after
    cases after

/-- **A request that `schedule_barrier` does not queue is executed by its module, and a wait for it
ends when it is done.** -/
theorem served_of_direct {mod : Mod} {req : Req} {state : Waiting Thread Req Mod}
    (reached : (machine Thread Req Mod).Reached (Initial req) (Direct mod req) state) :
    Served mod req state :=
  ((preserves_direct mod req).reached (fun _ => Initial.honest) reached).served

/-- Two workers, and nobody waits. -/
def waitingTwo : Waiting Nat Nat Unit :=
  ⟨twoWorkers, fun _ _ => .out, fun _ => false, fun _ => false⟩

private theorem initial_waitingTwo (req : Nat) : Initial req waitingTwo :=
    ⟨initial_twoWorkers, rfl, fun _ => rfl⟩

/-- The request passes `schedule_barrier`, and a thread waits for it. -/
def waited : List (Act Nat Nat Unit) :=
  [.pool (.scheduleBarrier (some ()) 1 .fastQueue), .pool (.retry 1), .reqWait 0 1, .check 0 1,
    .pool (.start 0), .pool (.top 0), .pool (.look 0), .pool (.run 0),
      .pool (.finish 0 false), .wake 0 1,
    .check 0 1]

private theorem waited_runs : ((machine Nat Nat Unit).run waitingTwo waited).isSome = true := by
  decide +kernel

theorem served_of_direct_waited :
    Served () 1 ((machine Nat Nat Unit).final waitingTwo waited waited_runs) ∧
      ((machine Nat Nat Unit).final waitingTwo waited waited_runs).waits 0 1 = .returned := by
  refine ⟨served_of_direct (Machine.reached_final (initial_waitingTwo 1) ?_ waited_runs), ?_⟩
  · decide +kernel
  · decide +kernel

/-- The request is queued by `schedule_barrier`, while another one is executed. -/
def deferredBehind : List (Act Nat Nat Unit) :=
  [.pool (.start 0), .pool (.schedule (some ()) 0 .fastQueue), .pool (.enqueue 0), .pool (.top 0),
    .pool (.run 0), .pool (.scheduleBarrier (some ()) 1 .fastQueue), .pool (.finish 0 false),
    .pool (.top 0), .pool (.look 0), .pool (.run 0)]

private theorem deferredBehind_runs :
    ((machine Nat Nat Unit).run waitingTwo deferredBehind).isSome = true := by
  decide +kernel

/-- It is executed without its module. -/
theorem exists_executed_unbound : ∃ state : Waiting Nat Nat Unit,
    (machine Nat Nat Unit).Reached (Initial 1) (fun _ => Submits () 1) state ∧
      ¬ Served () 1 state := by
  have submits : ∀ act ∈ deferredBehind, Submits () 1 act := by decide
  have unbound : none ∈
      ((machine Nat Nat Unit).final waitingTwo deferredBehind deferredBehind_runs).pool.execs 1 := by
    decide +kernel
  refine ⟨_, Machine.reached_final (initial_waitingTwo 1)
    (Machine.meets_of_labels submits waitingTwo) deferredBehind_runs, ?_⟩
  intro served
  cases served.1 none unbound

end Waiting

end ThreadPool

end Tvntd
