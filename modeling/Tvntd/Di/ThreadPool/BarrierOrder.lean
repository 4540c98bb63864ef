import Tvntd.Di.ThreadPool.Runs

/-! # The order of barrier requests

A request of `schedule_barrier` that is queued has the flag `barrier` until the
pool takes it, at a moment when everything accepted before it has finished. One
that goes on to `schedule` is an ordinary request from there on: it starts after
what was accepted before it where the critical section of `schedule` finds
nothing scheduled and nothing deferred, and need not elsewhere.
-/

namespace Tvntd

open Placement Function

namespace ThreadPool

set_option linter.unusedSectionVars false

variable {Req Mod : Type} [DecidableEq Req] {pool next : ThreadPool Req Mod}

/-- Everything accepted before the request has finished. -/
def Cleared (pool : ThreadPool Req Mod) (req : Req) : Prop :=
  ∀ earlier, Before pool.accepted earlier req → pool.finished earlier = true

def Flagged (pool : ThreadPool Req Mod) (req : Req) : Prop :=
  (pool.request req).rqDoneFlgs &&& Request.barrier ≠ 0

structure Ordered (pool : ThreadPool Req Mod) : Prop where
  fresh : ∀ req, pool.submit req = .fresh → pool.viaBarrier req = false
  queue : (pool.mQueue .barrier).Sublist pool.accepted
  barrier : ∀ req ∈ pool.accepted, pool.viaBarrier req = true →
    req ∈ pool.mQueue .barrier ∧ pool.Flagged req ∨ pool.Cleared req

/-- What `schedule_barrier` leaves to `schedule` finds nothing scheduled and nothing deferred
there. -/
def Undisturbed (pool : ThreadPool Req Mod) : Act Req Mod → Prop
  | .retry _ => pool.thpSchedReq = 0 ∧ pool.thpBarrierCnt = 0
  | _ => True

instance (pool : ThreadPool Req Mod) : DecidablePred pool.Undisturbed := fun act => by
  unfold Undisturbed
  split
  · infer_instance
  · infer_instance

/-! ## Submissions -/

/-- The order is seen in these parts of the pool. -/
theorem Ordered.congr (ordered : Ordered pool) (queue : next.mQueue .barrier = pool.mQueue .barrier)
    (submit : next.submit = pool.submit) (viaBarrier : next.viaBarrier = pool.viaBarrier)
    (accepted : next.accepted = pool.accepted) (finished : next.finished = pool.finished)
    (request : next.request = pool.request) : Ordered next where
  fresh := by
    rw [submit, viaBarrier]
    exact ordered.fresh
  queue := by
    rw [queue, accepted]
    exact ordered.queue
  barrier := by
    unfold Flagged Cleared
    rw [queue, viaBarrier, accepted, finished, request]
    exact ordered.barrier

theorem Ordered.relisted (ordered : Ordered pool) (relisted : Relisted pool next) :
    Ordered next := by
  rw [relisted.pool_eq]
  exact ordered.congr rfl rfl rfl rfl rfl rfl

theorem Ordered.setWorker (ordered : Ordered pool) (wrk : Nat) (after : WorkerThread Req) :
    Ordered (pool.setWorker wrk after) := ordered.congr rfl rfl rfl rfl rfl rfl

theorem Cleared.append {req new : Req} (cleared : pool.Cleared req) (inside : req ∈ pool.accepted)
    (nodup : (pool.accepted ++ [new]).Nodup) (accepted : next.accepted = pool.accepted ++ [new])
    (finished : next.finished = pool.finished) : next.Cleared req := by
  intro earlier before
  rw [accepted] at before
  rw [finished]
  exact cleared earlier (before.of_append nodup inside)

private theorem Conserved.accepted_nodup (conserved : Conserved pool) {req : Req}
    (unsubmitted : Unsubmitted (pool.submit req)) : (pool.accepted ++ [req]).Nodup := by
  refine List.nodup_append.mpr ⟨conserved.books.ledger.nodup, List.nodup_singleton req, ?_⟩
  rintro other inside last single rfl
  exact conserved.fresh req unsubmitted (List.mem_singleton.mp single ▸ inside)

/-- A request of `schedule`: what it is behind has finished, where it is a barrier request. -/
theorem Ordered.schedule (ordered : Ordered pool) (conserved : Conserved pool) {req : Req}
    (unsubmitted : Unsubmitted (pool.submit req)) (mod : Option Mod) (qno : Reqq)
    (cleared : pool.viaBarrier req = true → ∀ earlier ∈ pool.accepted, pool.finished earlier = true) :
    Ordered (pool.schedule mod req qno) := by
  have nodup := conserved.accepted_nodup unsubmitted
  have entered := entered_schedule pool mod req qno
  generalize pool.schedule mod req qno = next at entered
  refine ⟨?_, ?_, ?_⟩
  · intro other begun
    obtain ⟨after, behind, same⟩ := entered.submit
    rw [entered.viaBarrier]
    rw [same] at begun
    by_cases here : other = req
    · subst here
      rw [update_self] at begun
      exact (behind (begun ▸ trivial)).elim
    · rw [update_of_ne here] at begun
      exact ordered.fresh other begun
  · rw [entered.accepted]
    rcases entered.mQueue .barrier with same | same
    · rw [same]
      exact ordered.queue.trans (List.sublist_append_left _ _)
    · rw [same]
      exact ordered.queue.append (List.Sublist.refl _)
  · intro other inside via
    rw [entered.viaBarrier] at via
    rw [entered.accepted] at inside
    rcases List.mem_append.mp inside with old | new
    · rcases ordered.barrier other old via with ⟨queued, flagged⟩ | done
      · refine .inl ⟨?_, ?_⟩
        · rcases entered.mQueue .barrier with same | same
          · exact same ▸ queued
          · exact same ▸ List.mem_append_left _ queued
        · unfold Flagged
          rw [entered.request]
          by_cases here : other = req
          · subst here
            rw [update_self]
            exact flagged
          · rw [update_of_ne here]
            exact flagged
      · exact .inr (done.append old nodup entered.accepted entered.finished)
    · obtain rfl := List.mem_singleton.mp new
      refine .inr fun earlier before => ?_
      rw [entered.accepted] at before
      rw [entered.finished]
      exact cleared via earlier (before.of_append_self nodup)

/-- Nothing scheduled and nothing deferred: everything accepted has finished. -/
theorem Conserved.all_finished (conserved : Conserved pool) (sched : pool.thpSchedReq = 0)
    (barrierCnt : pool.thpBarrierCnt = 0) : ∀ req ∈ pool.accepted, pool.finished req = true := by
  intro req inside
  have books := conserved.books
  have total := books.sched_eq
  have none : (pending pool.accepted pool.finished).length = 0 := by
    rw [← books.barrier_eq, sched, barrierCnt] at total
    omega
  by_contra unfinished
  have left : req ∈ pending pool.accepted pool.finished :=
    List.mem_filter.mpr ⟨inside, by simpa using unfinished⟩
  rw [List.length_eq_zero_iff.mp none] at left
  exact List.not_mem_nil left

theorem Ordered.scheduleBarrier (ordered : Ordered pool) (conserved : Conserved pool) {req : Req}
    (begun : pool.submit req = .fresh) (mod : Option Mod) (qno : Reqq) :
    Ordered (pool.scheduleBarrier mod req qno) := by
  have unsubmitted : Unsubmitted (pool.submit req) := begun ▸ trivial
  have new := conserved.fresh req unsubmitted
  have nodup := conserved.accepted_nodup unsubmitted
  have apart : ∀ {other : Req}, other ∈ pool.accepted → other ≠ req := by
    rintro other inside rfl
    exact new inside
  have others : ∀ {other : Req}, other ∈ pool.accepted →
      update pool.viaBarrier req true other = true → pool.viaBarrier other = true := by
    intro other inside via
    rwa [update_of_ne (apart inside)] at via
  have fresh : ∀ {after : Submit Mod}, after ≠ .fresh → ∀ other,
      update pool.submit req after other = .fresh →
        update pool.viaBarrier req true other = false := by
    intro after behind other later
    by_cases here : other = req
    · subst here
      rw [update_self] at later
      exact (behind later).elim
    · rw [update_of_ne here] at later ⊢
      exact ordered.fresh other later
  unfold ThreadPool.scheduleBarrier
  dsimp only
  split
  · have deferred : ∀ {barred : ThreadPool Req Mod}, barred.accepted = pool.accepted ++ [req] →
        barred.finished = pool.finished → barred.mQueue .barrier = pool.mQueue .barrier ++ [req] →
        barred.viaBarrier = update pool.viaBarrier req true →
        barred.submit = update pool.submit req .returned →
        barred.request = update pool.request req
          { pool.request req with rqDoneFlgs := (pool.request req).rqDoneFlgs ||| Request.barrier } →
        Ordered barred := by
      intro barred accepted finished queue viaBarrier submit request
      refine ⟨?_, ?_, ?_⟩
      · rw [submit, viaBarrier]
        exact fresh nofun
      · rw [queue, accepted]
        exact ordered.queue.append (List.Sublist.refl _)
      · intro other inside via
        rw [viaBarrier] at via
        rw [accepted] at inside
        rw [queue]
        rcases List.mem_append.mp inside with old | last
        · rcases ordered.barrier other old (others old via) with ⟨queued, flagged⟩ | done
          · refine .inl ⟨List.mem_append_left _ queued, ?_⟩
            unfold Flagged
            rw [request, update_of_ne (apart old)]
            exact flagged
          · exact .inr (done.append old nodup accepted finished)
        · obtain rfl := List.mem_singleton.mp last
          refine .inl ⟨List.mem_append_right _ last, ?_⟩
          unfold Flagged
          rw [request, update_self]
          intro none
          have bit := congrArg (·.getLsbD 15) none
          simp [Request.barrier] at bit
    refine deferred rfl rfl ?_ rfl rfl rfl
    change update pool.mQueue .barrier (pool.mQueue .barrier ++ [req]) .barrier = _
    rw [update_self]
  · refine ⟨fresh nofun, ordered.queue, fun other inside via => ?_⟩
    exact ordered.barrier other inside (others inside via)

/-! ## Promotion -/

/-- A turn of the promotion leaves the requests with the flag in the queue. -/
theorem Ordered.turn (ordered : Ordered pool) {rq : Req} {list : List Req}
    (queue : pool.mQueue .barrier = rq :: list) (unflagged : ¬ pool.Flagged rq) :
    Ordered ((pool.resumed rq list).wakeIdle rq) := by
  have relisted := Relisted.wakeIdle (pool.resumed rq list) rq
  have left : ((pool.resumed rq list).wakeIdle rq).mQueue .barrier = list := by
    rw [relisted.mQueue, mQueue_resumed, update_of_ne (by decide), update_self]
  generalize (pool.resumed rq list).wakeIdle rq = next at relisted left
  have accepted : next.accepted = pool.accepted := congrArg (·.accepted) relisted.pool_eq
  have finished : next.finished = pool.finished := congrArg (·.finished) relisted.pool_eq
  have viaBarrier : next.viaBarrier = pool.viaBarrier := congrArg (·.viaBarrier) relisted.pool_eq
  have request : next.request = pool.request := congrArg (·.request) relisted.pool_eq
  have submit : next.submit = pool.submit := relisted.submit
  refine ⟨?_, ?_, ?_⟩
  · rw [submit, viaBarrier]
    exact ordered.fresh
  · rw [left, accepted]
    exact ((List.sublist_cons_self rq list).trans (queue ▸ List.Sublist.refl _)).trans ordered.queue
  · intro req inside via
    rw [accepted] at inside
    rw [viaBarrier] at via
    rcases ordered.barrier req inside via with ⟨queued, flagged⟩ | done
    · rw [queue] at queued
      refine .inl ⟨?_, ?_⟩
      · rw [left]
        refine (List.mem_cons.mp queued).resolve_left ?_
        rintro rfl
        exact unflagged flagged
      · unfold Flagged
        rw [request]
        exact flagged
    · refine .inr fun earlier before => ?_
      rw [accepted] at before
      rw [finished]
      exact done earlier before

/-- The front of the barrier queue starts once nothing is scheduled. -/
theorem Conserved.cleared_front (conserved : Conserved pool) (ordered : Ordered pool) {req : Req}
    {list : List Req} (queue : pool.mQueue .barrier = req :: list) (sched : pool.thpSchedReq = 0) :
    pool.Cleared req := by
  intro earlier before
  have books := conserved.books
  have sublist : (req :: list).Sublist pool.accepted := queue ▸ ordered.queue
  have absent := before.not_mem_of_sublist books.ledger.nodup sublist
  have outside := books.sched_eq_outside
  rw [sched] at outside
  have none := List.length_eq_zero_iff.mp (Int.natCast_eq_zero.mp outside.symm)
  by_contra unfinished
  have left : earlier ∈ pending pool.accepted pool.finished :=
    List.mem_filter.mpr ⟨before.mem, by simpa using unfinished⟩
  have counted : earlier ∈ (pending pool.accepted pool.finished).filter
      (· ∉ pool.contents (.queue .barrier)) := by
    refine List.mem_filter.mpr ⟨left, decide_eq_true ?_⟩
    change earlier ∉ pool.mQueue .barrier
    rw [queue]
    exact absent
  rw [none] at counted
  exact List.not_mem_nil counted

theorem Ordered.takeBarrier (ordered : Ordered pool) (conserved : Conserved pool) {wrk : Nat}
    (sched : pool.thpSchedReq = 0) (taken : pool.takeBarrier wrk = some next) : Ordered next := by
  obtain ⟨req, list, promoted, queue, promotion, rfl⟩ := takeBarrier_eq taken
  have cleared := conserved.cleared_front ordered queue sched
  have before : Ordered (pool.undeferred list) := by
    have left : (pool.undeferred list).mQueue .barrier = list := by
      change update pool.mQueue .barrier list .barrier = list
      rw [update_self]
    refine ⟨ordered.fresh, ?_, fun other inside via => ?_⟩
    · rw [left]
      exact ((List.sublist_cons_self req list).trans (queue ▸ List.Sublist.refl _)).trans ordered.queue
    · rcases ordered.barrier other inside via with ⟨queued, flagged⟩ | done
      · rw [queue] at queued
        rcases List.mem_cons.mp queued with rfl | later
        · exact .inr cleared
        · exact .inl ⟨left.symm ▸ later, flagged⟩
      · exact .inr done
  have after : Ordered promoted := promoted_of_turns Ordered
    (fun turn rq list held queue unflagged => held.turn queue fun flagged => flagged unflagged)
    before promotion
  exact after.setWorker wrk _

private theorem Conserved.sched_nonneg (conserved : Conserved pool) : 0 ≤ pool.thpSchedReq := by
  rw [conserved.books.sched_eq_outside]
  omega

theorem Ordered.getReqOrPutIdle (ordered : Ordered pool) (conserved : Conserved pool) {wrk : Nat}
    (cleared : Conserved (pool.looking wrk)) : Ordered (pool.getReqOrPutIdle wrk) := by
  have here : Ordered (pool.looking wrk) := ordered.setWorker wrk _
  rcases getReqOrPutIdle_cases pool wrk with ⟨qno, thr, req, list, served, -, same⟩ |
    ⟨-, -, ⟨-, same⟩ | ⟨stuck, same⟩⟩
  · have apart : Reqq.barrier ≠ qno := by
      rcases served with ⟨rfl, -⟩ | ⟨rfl, -⟩
      · decide
      · decide
    have dequeued :
        Ordered { pool.looking wrk with mQueue := update pool.mQueue qno list } := by
      refine here.congr ?_ rfl rfl rfl rfl rfl
      exact update_of_ne apart list pool.mQueue
    rw [same]
    exact (dequeued.relisted (Relisted.thpSwapQueue _ wrk thr)).setWorker wrk _
  · rw [same]
    exact (here.relisted (Relisted.thpSwapQueue _ wrk .idleThr)).setWorker wrk _
  · rw [same]
    cases taken : (pool.looking wrk).takeBarrier wrk with
    | none => exact here.setWorker wrk _
    | some after =>
        have nonneg := conserved.sched_nonneg
        have sched : (pool.looking wrk).thpSchedReq = 0 := by
          change pool.thpSchedReq = 0
          omega
        exact here.takeBarrier cleared sched taken

/-! ## Runs -/

theorem Ordered.step (ordered : Ordered pool) (serving : Serving pool) {act : Act Req Mod}
    (other : act ≠ .stop) (undisturbed : Undisturbed pool act) (taken : Taken pool act next) :
    Ordered next := by
  have conserved := serving.conserved
  have after := (serving.step other taken).conserved
  by_cases moves : Moves act
  · cases taken with
    | schedule begun =>
        refine ordered.schedule conserved (begun ▸ trivial) _ _ fun via => ?_
        exact absurd ((ordered.fresh _ begun).symm.trans via) Bool.false_ne_true
    | retry begun =>
        exact ordered.schedule conserved (begun ▸ trivial) _ _ fun _ =>
          conserved.all_finished undisturbed.1 undisturbed.2
    | scheduleBarrier begun => exact ordered.scheduleBarrier conserved begun _ _
    | look here => exact ordered.getReqOrPutIdle conserved (conserved.setWorker rfl rfl rfl)
    | _ => exact moves.elim
  · have stays := taken.stays moves
    refine ⟨?_, ?_, ?_⟩
    · intro req begun
      rw [stays.viaBarrier]
      refine ordered.fresh req ?_
      rw [← stays.unsubmitted req (by rw [begun]; trivial)]
      exact begun
    · rw [stays.mQueue, stays.accepted]
      exact ordered.queue
    · intro req inside via
      rw [stays.accepted] at inside
      rw [stays.viaBarrier] at via
      rcases ordered.barrier req inside via with ⟨queued, flagged⟩ | done
      · rw [← stays.mQueue] at queued
        refine .inl ⟨queued, ?_⟩
        -- A request in a queue has not finished.
        have unfinished := ((after.books.ledger.somewhere_iff req).mp ⟨.queue .barrier, queued⟩).2
        unfold Flagged
        rcases stays.request req with same | finished
        · rw [same]
          exact flagged
        · exact absurd (unfinished.symm.trans finished) Bool.false_ne_true
      · refine .inr fun earlier before => stays.finished earlier (done earlier ?_)
        rw [← stays.accepted]
        exact before

theorem Initial.ordered (initial : Initial pool) : Ordered pool := by
  obtain ⟨thpMin, thpMax, created, request, -, -, rfl⟩ := initial
  exact ⟨fun _ _ => rfl, List.Sublist.refl _, fun _ inside => (List.not_mem_nil inside).elim⟩

private theorem preserves_ordered : (machine Req Mod).Preserves
    (fun pool act => act ≠ .stop ∧ Undisturbed pool act) fun pool => Serving pool ∧
      Ordered pool := by
  rintro pool act next output ⟨serving, ordered⟩ ⟨other, undisturbed⟩ stepped
  have taken := taken_of_machine stepped
  exact ⟨serving.step other taken, ordered.step serving other undisturbed taken⟩

/-- A request of `schedule_barrier` is executed once everything accepted before it has finished. -/
def BarriersInOrder (pool : ThreadPool Req Mod) : Prop :=
  ∀ req, pool.viaBarrier req = true → pool.Executing req → pool.Cleared req

/-- **In a run whose submissions are not disturbed, barrier requests start in order.** -/
theorem barriersInOrder_of_reached (reached : (machine Req Mod).Reached Initial
    (fun pool act => act ≠ .stop ∧ Undisturbed pool act) pool) : BarriersInOrder pool := by
  obtain ⟨serving, ordered⟩ := preserves_ordered.reached
    (fun _ initial => ⟨initial.serving, initial.ordered⟩) reached
  rintro req via (⟨wrk, running⟩ | inline)
  · have ledger := serving.conserved.books.ledger
    have inHand : req ∈ pool.contents (.hand wrk) := by
      change req ∈ held (pool.thpWorkers wrk).pc
      rw [running]
      exact List.mem_cons_self
    have accepted := ((ledger.somewhere_iff req).mp ⟨_, inHand⟩).1
    refine (ordered.barrier req accepted via).resolve_left fun both => ?_
    have queued : req ∈ pool.contents (.queue .barrier) := both.1
    cases ledger.exclusive.unique inHand queued
  · exact (serving.crew.orderly.running req inline).elim

section TwoBarriers

/-- A barrier request behind one that found nothing scheduled. -/
def oneBarrier : List (Act Nat Unit) :=
  [.start 0, .scheduleBarrier (some ()) 0 .fastQueue, .retry 0, .enqueue 0, .top 0, .run 0,
    .scheduleBarrier (some ()) 1 .fastQueue, .finish 0 false, .top 0, .look 0, .run 0]

theorem barriersInOrder_of_reached_oneBarrier :
    BarriersInOrder ((machine Nat Unit).final twoWorkers oneBarrier (by decide +kernel)) := by
  have stops : ∀ act ∈ oneBarrier, act ≠ .stop := by simp [oneBarrier]
  have undisturbed : (machine Nat Unit).Meets Undisturbed twoWorkers oneBarrier := by decide +kernel
  exact barriersInOrder_of_reached (Machine.reached_final initial_twoWorkers
    ((Machine.meets_of_labels stops twoWorkers).and undisturbed) _)

/-- The second barrier request comes when the first one is deferred and nothing is scheduled: it is
queued without the flag, promoted together with the first one, and executed next to it. -/
def twoBarriers : List (Act Nat Unit) :=
  [.start 0, .schedule (some ()) 0 .fastQueue, .enqueue 0, .top 0, .run 0,
    .scheduleBarrier (some ()) 1 .fastQueue, .finish 0 false,
      .scheduleBarrier (some ()) 2 .fastQueue,
    .retry 2, .top 0, .look 0, .run 0, .start 1, .top 1, .look 1, .run 1]

theorem twoBarriers_runs : ((machine Nat Unit).run twoWorkers twoBarriers).isSome = true := by
  decide +kernel

theorem twoBarriers_not_inOrder : ∃ pool,
    (machine Nat Unit).Reached Initial (fun _ act => act ≠ .stop) pool ∧
      ¬ BarriersInOrder pool := by
  have stops : ∀ act ∈ twoBarriers, act ≠ .stop := by simp [twoBarriers]
  refine ⟨_, Machine.reached_final initial_twoWorkers (Machine.meets_of_labels stops twoWorkers)
    twoBarriers_runs, fun inOrder => ?_⟩
  have via : ((machine Nat Unit).final _ _ twoBarriers_runs).viaBarrier 2 =
      true := by decide +kernel
  have running : (((machine Nat Unit).final _ _ twoBarriers_runs).thpWorkers 1).pc =
      .running 2 := by
    decide +kernel
  have accepted : ((machine Nat Unit).final _ _ twoBarriers_runs).accepted = [0, 1, 2] := by
    decide +kernel
  have unfinished : ((machine Nat Unit).final _ _ twoBarriers_runs).finished 1 = false := by
    decide +kernel
  have done := inOrder 2 via (.inl ⟨1, running⟩) 1 ⟨[0, 1], [], accepted, by decide⟩
  exact absurd (unfinished.symm.trans done) Bool.false_ne_true

end TwoBarriers

end ThreadPool

end Tvntd
