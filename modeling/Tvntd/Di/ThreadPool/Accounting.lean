import Tvntd.Di.ThreadPool.Runs

/-! # Accounting in the thread pool

The runs of a pool that takes requests for its fast and its slow queue and is
not stopped. In each of their states every request that is accepted and not
finished is in one place, and the counters of the pool and of its workers count
what they should.
-/

namespace Tvntd

open Placement Function

namespace ThreadPool

set_option linter.unusedSectionVars false

variable {Req Mod : Type} [DecidableEq Req] {pool next : ThreadPool Req Mod}

/-- A request for the fast or the slow queue, and no stop. -/
def Ordinary : Act Req Mod → Prop
  | .schedule _ _ qno => qno = .fastQueue ∨ qno = .slowQueue
  | .scheduleBarrier _ _ qno => qno = .fastQueue ∨ qno = .slowQueue
  | .stop => False
  | _ => True

instance : DecidablePred (@Ordinary Req Mod)
  | .schedule _ _ qno => inferInstanceAs (Decidable (qno = .fastQueue ∨ qno = .slowQueue))
  | .scheduleBarrier _ _ qno => inferInstanceAs (Decidable (qno = .fastQueue ∨ qno = .slowQueue))
  | .stop => isFalse id
  | .retry _ | .enqueue _ | .leaveDorman _ | .spawn _ | .spawnCount _ | .spawnCreate _ _
  | .spawnFailed _ | .inlineRun _ | .inlineDone _ _ | .start _ | .top _ | .look _ | .probe _
  | .park _ | .wake _ | .run _ | .finish _ _ | .exit _ | .stopWake | .stopVerify => isTrue trivial

/-- No request waits for a time or is suspended, or is going to. -/
structure Unparked (pool : ThreadPool Req Mod) : Prop where
  timeWait : pool.mQueue .timeWait = []
  suspend : pool.mQueue .suspend = []
  retry : ∀ req mod qno, pool.submit req = .retry mod qno → qno = .fastQueue ∨ qno = .slowQueue

/-- `schedule` puts a request for the fast or the slow queue nowhere else. -/
theorem Unparked.schedule (unparked : Unparked pool) {mod : Option Mod} {req : Req} {qno : Reqq}
    (given : qno = .fastQueue ∨ qno = .slowQueue) : Unparked (pool.schedule mod req qno) := by
  have submitted : ∀ {rest : ThreadPool Req Mod} {after : Submit Mod}, rest.mQueue .timeWait = [] →
      rest.mQueue .suspend = [] → rest.submit = pool.submit →
      (∀ mod qno, after ≠ .retry mod qno) → Unparked (rest.setSubmit req after) := by
    intro rest after timeWait suspend submit behind
    refine ⟨timeWait, suspend, fun other otherMod otherQno begun => ?_⟩
    by_cases same : other = req
    · subst same
      simp only [setSubmit, update_self] at begun
      exact (behind _ _ begun).elim
    · simp only [setSubmit, update_of_ne same, submit] at begun
      exact unparked.retry other otherMod otherQno begun
  have queued : ∀ {rest : ThreadPool Req Mod} {queue other : Reqq}, rest.mQueue other = [] →
      other ≠ queue → (rest.modEnqueue req queue).mQueue other = [] :=
    fun empty apart => (update_of_ne apart _ _).trans empty
  rcases schedule_cases pool mod req qno with ⟨-, same⟩ | ⟨-, rest, relisted, outcome⟩
  · rw [same]
    exact submitted (queued unparked.timeWait (by decide))
      (queued unparked.suspend (by decide)) rfl (by simp)
  · have timeWait : rest.mQueue .timeWait = [] := by
      rw [relisted.mQueue]
      exact unparked.timeWait
    have suspend : rest.mQueue .suspend = [] := by
      rw [relisted.mQueue]
      exact unparked.suspend
    rcases outcome with ⟨wrk, same⟩ | ⟨queue, after, -, asked, parks, same⟩ | ⟨-, same⟩
    · rw [same]
      exact submitted timeWait suspend relisted.submit (by simp)
    · have served : queue = .fastQueue ∨ queue = .slowQueue := by
        rcases asked with rfl | rfl
        · exact given
        · rcases given with none | none
          · cases none
          · cases none
      have behind : ∀ mod qno, after ≠ .retry mod qno := by
        rintro mod qno rfl
        exact parks
      rw [same]
      rcases served with rfl | rfl
      · exact submitted (queued timeWait (by decide))
          (queued suspend (by decide)) relisted.submit behind
      · exact submitted (queued timeWait (by decide))
          (queued suspend (by decide)) relisted.submit behind
    · rw [same]
      exact submitted timeWait suspend relisted.submit (by simp)

theorem Unparked.step (unparked : Unparked pool) {act : Act Req Mod} (ordinary : Ordinary act)
    (taken : Taken pool act next) : Unparked next := by
  by_cases moves : Moves act
  · cases taken with
    | schedule begun => exact unparked.schedule ordinary
    | retry begun => exact unparked.schedule (unparked.retry _ _ _ begun)
    | @scheduleBarrier mod req qno begun =>
        unfold ThreadPool.scheduleBarrier
        dsimp only
        split
        · refine ⟨?_, ?_, ?_⟩
          · change update pool.mQueue .barrier
              (pool.mQueue .barrier ++ [req]) .timeWait = []
            rw [update_of_ne (by decide)]
            exact unparked.timeWait
          · change update pool.mQueue .barrier
              (pool.mQueue .barrier ++ [req]) .suspend = []
            rw [update_of_ne (by decide)]
            exact unparked.suspend
          · intro other otherMod otherQno later
            by_cases same : other = req
            · subst same
              simp [setSubmit] at later
            · simp only [setSubmit, update_of_ne same] at later
              exact unparked.retry other otherMod otherQno later
        · refine ⟨unparked.timeWait, unparked.suspend, ?_⟩
          intro other otherMod otherQno later
          by_cases same : other = req
          · subst same
            simp only [setSubmit, update_self, Submit.retry.injEq] at later
            exact later.2 ▸ ordinary
          · simp only [setSubmit, update_of_ne same] at later
            exact unparked.retry other otherMod otherQno later
    | @look wrk here =>
        refine ⟨?_, ?_, ?_⟩
        · rw [mQueue_getReqOrPutIdle wrk (by decide) (by decide) (by decide)]
          exact unparked.timeWait
        · rw [mQueue_getReqOrPutIdle wrk (by decide) (by decide) (by decide)]
          exact unparked.suspend
        · rw [served_getReqOrPutIdle pool wrk]
          exact unparked.retry
    | _ => exact moves.elim
  · have stays := taken.stays moves
    refine ⟨?_, ?_, ?_⟩
    · rw [stays.mQueue]
      exact unparked.timeWait
    · rw [stays.mQueue]
      exact unparked.suspend
    · intro req mod qno begun
      refine unparked.retry req mod qno ?_
      rw [← stays.unsubmitted req (by rw [begun]; trivial)]
      exact begun

/-- Where a request for the fast or the slow queue can be. -/
def Place.Serving : Place Req → Prop
  | .queue qno => qno = .barrier ∨ qno = .fastQueue ∨ qno = .slowQueue
  | .worker _ => True
  | .hand _ => True
  | .submitter _ => True

/-- Every request that is accepted and not finished is in one place, once, and the counters
count. -/
structure Accounted (pool : ThreadPool Req Mod) : Prop where
  placed : ∀ req ∈ pool.accepted, pool.finished req = false → ∃ place : Place Req, place.Serving ∧
    (pool.contents place).count req = 1 ∧ ∀ other, other ≠ place → req ∉ pool.contents other
  reqcnt : ∀ wrk, (pool.thpWorkers wrk).wrkReqcnt = ((pool.thpWorkers wrk).wrkQueue.length : Int)
  barrierCnt : pool.thpBarrierCnt = ((pool.mQueue .barrier).length : Int)
  schedReq : pool.thpSchedReq = ((pool.accepted.filter fun req =>
    pool.finished req = false ∧ req ∉ pool.mQueue .barrier).length : Int)

theorem Conserved.accounted (conserved : Conserved pool) (unparked : Unparked pool) :
    Accounted pool where
  placed := by
    intro req accepted unfinished
    have ledger := conserved.books.ledger
    have somewhere := (ledger.somewhere_iff req).mpr ⟨accepted, unfinished⟩
    obtain ⟨place, here, unique⟩ := ledger.exclusive.exists_unique somewhere
    refine ⟨place, ?_, List.count_eq_one_of_mem (ledger.exclusive.nodup place) here,
      fun other apart there => apart (unique other there)⟩
    cases place with
    | worker wrk | hand wrk | submitter req => trivial
    | queue qno =>
        change req ∈ pool.mQueue qno at here
        cases qno with
        | barrier => exact .inl rfl
        | fastQueue => exact .inr (.inl rfl)
        | slowQueue => exact .inr (.inr rfl)
        | timeWait =>
            rw [unparked.timeWait] at here
            exact (List.not_mem_nil here).elim
        | suspend =>
            rw [unparked.suspend] at here
            exact (List.not_mem_nil here).elim
  reqcnt := conserved.reqcnt
  barrierCnt := conserved.books.barrier_eq
  schedReq := by
    rw [conserved.books.sched_eq_outside, pending, List.filter_filter]
    congr 2
    refine List.filter_congr fun req _ => ?_
    rw [Bool.decide_and, Bool.and_comm]
    congr 1
    cases pool.finished req with
    | false => rfl
    | true => rfl

private theorem preserves_ordinary : (machine Req Mod).Preserves (fun _ => Ordinary) fun pool =>
    Serving pool ∧ Unparked pool := by
  rintro pool act next output ⟨serving, unparked⟩ ordinary stepped
  have taken := taken_of_machine stepped
  have other : act ≠ .stop := by
    rintro rfl
    exact ordinary
  exact ⟨serving.step other taken, unparked.step ordinary taken⟩

private theorem Initial.unparked (initial : Initial pool) : Unparked pool := by
  obtain ⟨thpMin, thpMax, created, request, -, -, rfl⟩ := initial
  exact ⟨rfl, rfl, fun _ _ _ begun => nomatch begun⟩

/-- **In every state of an ordinary run every request is in one place and every counter is
right.** -/
theorem accounted_of_reached
    (reached : (machine Req Mod).Reached Initial (fun _ => Ordinary) pool) : Accounted pool := by
  obtain ⟨serving, unparked⟩ := preserves_ordinary.reached
    (fun _ initial => ⟨initial.serving, initial.unparked⟩) reached
  exact serving.conserved.accounted unparked

section Deferred

def oneWorker : ThreadPool Nat Unit :=
  modInit 1 1 (fun _ => true) fun _ => ⟨none, Request.waiting⟩

private theorem initial_oneWorker : Initial oneWorker :=
  ⟨1, 1, _, _, Nat.one_pos, Nat.le_refl 1, rfl⟩

/-- A request is deferred behind a barrier request, which waits for a third one. -/
def deferring : List (Act Nat Unit) :=
  [.start 0, .schedule (some ()) 0 .fastQueue, .enqueue 0, .top 0, .run 0,
    .scheduleBarrier (some ()) 1 .fastQueue, .schedule (some ()) 2 .slowQueue,
      .finish 0 false, .top 0,
    .look 0]

theorem accounted_of_reached_deferring :
    Accounted ((machine Nat Unit).final oneWorker deferring (by decide +kernel)) := by
  have ordinary : ∀ act ∈ deferring, Ordinary act := by decide
  exact accounted_of_reached (Machine.reached_final initial_oneWorker
    (Machine.meets_of_labels ordinary oneWorker) _)

end Deferred

end ThreadPool

end Tvntd
