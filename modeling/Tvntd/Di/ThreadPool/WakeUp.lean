import Tvntd.Di.ThreadPool.Runs

/-! # Sleeping workers of the thread pool

A worker lets go of `m_mod_mtx` between its place in the list of idle workers
and its wait. A promotion in between changes its state, and signals it in vain.
The state is verified behind that gap: the check holds as long as no promotion
takes a worker from the list that is in front of it. The lost signal does no
harm, for the worker that promotes the requests is up, and stays so as long as
one of them is queued.
-/

namespace Tvntd

open Placement Function

namespace ThreadPool

set_option linter.unusedSectionVars false

variable {Req Mod : Type} [DecidableEq Req] {pool next : ThreadPool Req Mod}

/-- In the loop, and not on the way to its wait. -/
def Active : WorkerPc Req → Prop
  | .top => True
  | .look => True
  | .taken _ => True
  | .running _ => True
  | _ => False

structure Attentive (lists : Thrq → List Nat) (workers : Nat → WorkerThread Req) (fast : List Req)
    (finished : Req → Bool) : Prop where
  exclusive : Exclusive lists
  probing : ∀ wrk, (workers wrk).pc = .probe →
    (workers wrk).wrkState = .idle ∧ wrk ∉ lists .fastThr ∧ wrk ∉ lists .slowThr
  sound : ∀ wrk, (workers wrk).pc ≠ .failed
  resumed : ∀ wrk, ∀ rq ∈ (workers wrk).missed,
    rq ∈ fast ∨ (∃ other, rq ∈ held (workers other).pc) ∨ finished rq = true
  active : ∀ wrk, ∀ rq ∈ (workers wrk).missed, rq ∈ fast → ∃ other, Active (workers other).pc

/-- The workers of a pool. -/
abbrev IsAttentive (pool : ThreadPool Req Mod) : Prop :=
  Attentive pool.thpQueue pool.thpWorkers (pool.mQueue .fastQueue) pool.finished

variable {lists : Thrq → List Nat} {workers : Nat → WorkerThread Req} {fast : List Req}
  {finished : Req → Bool} {wrk : Nat}

namespace Attentive

/-- A worker in the fast or the slow list is not in front of the check. -/
theorem not_probing (attentive : Attentive lists workers fast finished) {qno : Thrq}
    (serves : qno = .fastThr ∨ qno = .slowThr) (listed : wrk ∈ lists qno) :
    (workers wrk).pc ≠ .probe := by
  intro here
  obtain ⟨-, fast, slow⟩ := attentive.probing wrk here
  rcases serves with rfl | rfl
  · exact fast listed
  · exact slow listed

/-- A worker goes on: it stays active, and keeps the request it holds or has finished it. A signal
that it misses is for a request in the fast queue, while another worker is active. -/
theorem setWorker (attentive : Attentive lists workers fast finished) (wrk : Nat)
    {after : WorkerThread Req} {done : Req → Bool}
    (probes : after.pc = .probe → after.wrkState = .idle ∧ wrk ∉ lists .fastThr ∧ wrk ∉ lists .slowThr)
    (sound : after.pc ≠ .failed)
    (missed : ∀ rq ∈ after.missed, rq ∈ (workers wrk).missed ∨
      rq ∈ fast ∧ ∃ other, Active (workers other).pc)
    (keeps : ∀ rq ∈ held (workers wrk).pc, rq ∈ held after.pc ∨ done rq = true)
    (stays : fast ≠ [] → Active (workers wrk).pc → Active after.pc)
    (finishes : ∀ rq, finished rq = true → done rq = true) :
    Attentive lists (update workers wrk after) fast done := by
  have up : ∀ {other}, fast ≠ [] → Active (workers other).pc →
      ∃ other, Active (update workers wrk after other).pc := by
    intro other queued active
    refine ⟨other, ?_⟩
    by_cases same : other = wrk
    · subst same
      rw [update_self]
      exact stays queued active
    · rw [update_of_ne same]
      exact active
  have signalled : ∀ other, ∀ rq ∈ (update workers wrk after other).missed,
      (∃ old, rq ∈ (workers old).missed) ∨ rq ∈ fast ∧ ∃ other, Active (workers other).pc := by
    intro other rq inside
    by_cases same : other = wrk
    · subst same
      rw [update_self] at inside
      exact (missed rq inside).imp_left fun old => ⟨other, old⟩
    · rw [update_of_ne same] at inside
      exact .inl ⟨other, inside⟩
  refine ⟨attentive.exclusive, ?_, ?_, ?_, ?_⟩
  · intro other here
    by_cases same : other = wrk
    · subst same
      rw [update_self] at here ⊢
      exact probes here
    · rw [update_of_ne same] at here ⊢
      exact attentive.probing other here
  · intro other
    by_cases same : other = wrk
    · subst same
      rw [update_self]
      exact sound
    · rw [update_of_ne same]
      exact attentive.sound other
  · intro other rq inside
    rcases signalled other rq inside with ⟨old, inside⟩ | ⟨queued, -⟩
    · rcases attentive.resumed old rq inside with queued | ⟨holder, holds⟩ | finished
      · exact .inl queued
      · by_cases same : holder = wrk
        · subst same
          rcases keeps rq holds with still | finished
          · refine .inr (.inl ⟨holder, ?_⟩)
            rw [update_self]
            exact still
          · exact .inr (.inr finished)
        · refine .inr (.inl ⟨holder, ?_⟩)
          rw [update_of_ne same]
          exact holds
      · exact .inr (.inr (finishes rq finished))
    · exact .inl queued
  · intro other rq inside queued
    rcases signalled other rq inside with ⟨old, inside⟩ | ⟨-, active⟩
    · obtain ⟨busy, active⟩ := attentive.active old rq inside queued
      exact up (List.ne_nil_of_mem queued) active
    · obtain ⟨busy, active⟩ := active
      exact up (List.ne_nil_of_mem queued) active

/-- The lists change, and nobody in front of the check joins the fast or the slow one. -/
theorem relist (attentive : Attentive lists workers fast finished) {others : Thrq → List Nat}
    (exclusive : Exclusive others)
    (joins : ∀ qno, qno = .fastThr ∨ qno = .slowThr → ∀ wrk ∈ others qno,
      wrk ∈ lists qno ∨ (workers wrk).pc ≠ .probe) : Attentive others workers fast finished where
  exclusive := exclusive
  probing := by
    intro wrk here
    obtain ⟨idle, noFast, noSlow⟩ := attentive.probing wrk here
    refine ⟨idle, fun inside => ?_, fun inside => ?_⟩
    · rcases joins .fastThr (.inl rfl) wrk inside with listed | away
      · exact noFast listed
      · exact away here
    · rcases joins .slowThr (.inr rfl) wrk inside with listed | away
      · exact noSlow listed
      · exact away here
  sound := attentive.sound
  resumed := attentive.resumed
  active := attentive.active

/-- Requests that nobody was signalled for join the fast queue. -/
theorem queue (attentive : Attentive lists workers fast finished) {req : Req}
    (new : ∀ wrk, req ∉ (workers wrk).missed) :
    Attentive lists workers (fast ++ [req]) finished where
  exclusive := attentive.exclusive
  probing := attentive.probing
  sound := attentive.sound
  resumed := by
    intro wrk rq inside
    rcases attentive.resumed wrk rq inside with queued | later
    · exact .inl (List.mem_append_left _ queued)
    · exact .inr later
  active := by
    intro wrk rq inside queued
    rcases List.mem_append.mp queued with old | last
    · exact attentive.active wrk rq inside old
    · obtain rfl := List.mem_singleton.mp last
      exact (new wrk inside).elim

/-- A request joins the fast queue while a worker is active. -/
theorem queue_of_active (attentive : Attentive lists workers fast finished) (req : Req)
    (up : ∃ other, Active (workers other).pc) :
    Attentive lists workers (fast ++ [req]) finished where
  exclusive := attentive.exclusive
  probing := attentive.probing
  sound := attentive.sound
  resumed := fun wrk rq inside => (attentive.resumed wrk rq inside).imp_left
    (List.mem_append_left _)
  active := fun _ _ _ _ => up

/-- The request in front of the fast queue is taken. -/
theorem dequeue {req : Req} (attentive : Attentive lists workers (req :: fast) finished)
    (taken : ∃ other, req ∈ held (workers other).pc) : Attentive lists workers fast finished where
  exclusive := attentive.exclusive
  probing := attentive.probing
  sound := attentive.sound
  resumed := by
    intro wrk rq inside
    rcases attentive.resumed wrk rq inside with queued | later
    · rcases List.mem_cons.mp queued with rfl | old
      · exact .inr (.inl taken)
      · exact .inl old
    · exact .inr later
  active := fun wrk rq inside queued => attentive.active wrk rq inside
    (List.mem_cons_of_mem _ queued)

end Attentive

/-! ## Operations on the worker lists -/

theorem Attentive.thpDequeue (attentive : IsAttentive pool) {qno : Thrq} {wrk : Nat}
    (dequeued : pool.thpDequeue qno = some (wrk, next)) :
    IsAttentive next ∧ next.thpWorkers = pool.thpWorkers ∧ ¬ Somewhere next.thpQueue wrk := by
  obtain ⟨rest, first, rfl⟩ := thpDequeue_eq dequeued
  have takes : (pool.thpQueue qno).Perm (wrk :: rest) := by rw [first]
  refine ⟨Attentive.relist attentive (attentive.exclusive.take takes) ?_, rfl, fun somewhere => ?_⟩
  · intro other _ listed inside
    rcases mem_update.mp inside with ⟨rfl, later⟩ | ⟨-, old⟩
    · exact .inl (first ▸ List.mem_cons_of_mem _ later)
    · exact .inl old
  · exact ((attentive.exclusive.somewhere_take takes wrk).mp somewhere).1 rfl

theorem Attentive.dlAddFront (attentive : IsAttentive pool) {wrk : Nat}
    (nowhere : ¬ Somewhere pool.thpQueue wrk) (away : (pool.thpWorkers wrk).pc ≠ .probe)
    (qno : Thrq) :
    IsAttentive (pool.dlAddFront wrk qno) := by
  refine Attentive.relist attentive (attentive.exclusive.put nowhere (List.Perm.refl _)) ?_
  intro other _ listed inside
  rcases mem_update.mp inside with ⟨rfl, member⟩ | ⟨-, old⟩
  · rcases List.mem_cons.mp member with rfl | old
    · exact .inr away
    · exact .inl old
  · exact .inl old

/-- A worker that is not in front of the check moves to the back of a list. -/
theorem Attentive.thpSwapQueue (attentive : IsAttentive pool) {wrk : Nat}
    (away : (pool.thpWorkers wrk).pc ≠ .probe) (qno : Thrq) :
    IsAttentive (pool.thpSwapQueue wrk qno) := by
  have pc := pc_workerUpdateState (pool.thpWorkers wrk) qno
  have missed : (workerUpdateState (pool.thpWorkers wrk) qno).missed =
      (pool.thpWorkers wrk).missed := by
    unfold workerUpdateState
    split
    · rfl
    · rfl
  have updated : Attentive pool.thpQueue (update pool.thpWorkers wrk
      (workerUpdateState (pool.thpWorkers wrk) qno)) (pool.mQueue .fastQueue) pool.finished := by
    refine Attentive.setWorker attentive wrk ?_ ?_ ?_ ?_ ?_ fun _ done => done
    · exact fun here => (away (pc.symm.trans here)).elim
    · rw [pc]
      exact attentive.sound wrk
    · rw [missed]
      exact fun rq inside => .inl inside
    · rw [pc]
      exact fun rq holds => .inl holds
    · rw [pc]
      exact fun _ => id
  have removed : Exclusive fun list => (pool.thpQueue list).filter (· ≠ wrk) :=
    attentive.exclusive.mono fun list => List.filter_sublist
  have nowhere : ¬ Somewhere (fun list => (pool.thpQueue list).filter (· ≠ wrk)) wrk := by
    rintro ⟨list, inside⟩
    exact of_decide_eq_true (List.mem_filter.mp inside).2 rfl
  refine Attentive.relist updated (removed.put nowhere (List.perm_append_singleton wrk _)) ?_
  intro list _ other inside
  rcases mem_update.mp inside with ⟨rfl, member⟩ | ⟨-, old⟩
  · rcases List.mem_append.mp member with old | last
    · exact .inl (List.mem_filter.mp old).1
    · obtain rfl := List.mem_singleton.mp last
      refine .inr ?_
      rw [update_self, pc]
      exact away
  · exact .inl (List.mem_filter.mp old).1

/-- The worker that the round robin starts with comes from the fast or the slow list. -/
theorem Attentive.roundRobin (attentive : IsAttentive pool) {wrk : Nat}
    (away : (pool.thpWorkers wrk).pc ≠ .probe) {thp : Thrq}
    (serves : thp = .fastThr ∨ thp = .slowThr) :
    IsAttentive (pool.roundRobin wrk thp).2 := by
  have swapped := attentive.thpSwapQueue away thp
  unfold ThreadPool.roundRobin
  dsimp only
  split
  · split
    · exact swapped
    · rename_i front rest dequeued
      obtain ⟨still, workers, nowhere⟩ := swapped.thpDequeue dequeued
      obtain ⟨list, first, -⟩ := thpDequeue_eq dequeued
      have frontAway : (rest.thpWorkers front).pc ≠ .probe := by
        rw [workers]
        exact swapped.not_probing serves (first ▸ List.mem_cons_self)
      split
      · exact still.dlAddFront nowhere frontAway thp
      · exact still
  · exact swapped

theorem Attentive.modEnqueue (attentive : IsAttentive pool) {req : Req}
    (new : ∀ wrk, req ∉ (pool.thpWorkers wrk).missed) (qno : Reqq) :
    IsAttentive (pool.modEnqueue req qno) := by
  by_cases fast : qno = .fastQueue
  · subst fast
    have queue : (pool.modEnqueue req .fastQueue).mQueue .fastQueue = pool.mQueue .fastQueue ++
        [req] := by
      simp [ThreadPool.modEnqueue]
    unfold IsAttentive
    rw [queue]
    exact Attentive.queue attentive new
  · have same : (pool.modEnqueue req qno).mQueue .fastQueue = pool.mQueue .fastQueue :=
      update_of_ne (Ne.symm fast) _ _
    unfold IsAttentive
    rw [same]
    exact attentive

theorem Attentive.pickWorker (attentive : IsAttentive pool) {req : Req}
    (new : ∀ wrk, req ∉ (pool.thpWorkers wrk).missed) {thp : Thrq}
    (serves : thp = .fastThr ∨ thp = .slowThr) (qno : Reqq) :
    IsAttentive (pool.pickWorker req qno thp) := by
  unfold ThreadPool.pickWorker
  split
  · rename_i wrk rest dequeued
    obtain ⟨still, workers, -⟩ := attentive.thpDequeue dequeued
    obtain ⟨list, first, -⟩ := thpDequeue_eq dequeued
    have away : (rest.thpWorkers wrk).pc ≠ .probe := by
      rw [workers]
      exact attentive.not_probing serves (first ▸ List.mem_cons_self)
    exact still.roundRobin away serves
  · split
    · rename_i wrk rest dequeued
      obtain ⟨still, -, -⟩ := attentive.thpDequeue dequeued
      exact still
    · have queued := attentive.modEnqueue new qno
      split
      · split
        · rename_i wrk rest dequeued
          obtain ⟨still, -, -⟩ := queued.thpDequeue dequeued
          exact still
        · exact queued
      · exact attentive

/-! ## Sections -/

/-- Nobody is signalled for a request that is not accepted. -/
theorem Attentive.not_missed (attentive : IsAttentive pool) (conserved : Conserved pool) {req : Req}
    (unsubmitted : Unsubmitted (pool.submit req)) (wrk : Nat) :
    req ∉ (pool.thpWorkers wrk).missed := by
  intro inside
  have ledger := conserved.books.ledger
  have nowhere : ¬ Somewhere pool.contents req := fun somewhere =>
    conserved.fresh req unsubmitted ((ledger.somewhere_iff req).mp somewhere).1
  rcases attentive.resumed wrk req inside with queued | ⟨other, holds⟩ | finished
  · exact nowhere ⟨.queue .fastQueue, queued⟩
  · exact nowhere ⟨.hand other, holds⟩
  · exact absurd ((conserved.unfinished req unsubmitted).symm.trans finished) Bool.false_ne_true

theorem Attentive.schedule (attentive : IsAttentive pool) (conserved : Conserved pool) {req : Req}
    (unsubmitted : Unsubmitted (pool.submit req)) (mod : Option Mod) (qno : Reqq) :
    IsAttentive (pool.schedule mod req qno) := by
  have new := attentive.not_missed conserved unsubmitted
  by_cases deferred : 0 < pool.thpBarrierCnt
  · rw [schedule_deferred mod req qno deferred]
    have counted : IsAttentive { pool.entered mod req with thpBarrierCnt := pool.thpBarrierCnt + 1 } :=
      attentive
    exact counted.modEnqueue new .barrier
  · have scheduled : IsAttentive (pool.scheduled mod req) := attentive
    rw [schedule_scheduled mod req qno deferred]
    cases qno with
    | fastQueue => exact scheduled.pickWorker new (.inl rfl) .fastQueue
    | slowQueue => exact scheduled.pickWorker new (.inr rfl) .slowQueue
    | timeWait => exact scheduled.modEnqueue new .timeWait
    | suspend => exact scheduled.modEnqueue new .suspend
    | barrier => exact scheduled.modEnqueue new .suspend

theorem Attentive.scheduleBarrier (attentive : IsAttentive pool) (conserved : Conserved pool)
    {req : Req}
    (unsubmitted : Unsubmitted (pool.submit req)) (mod : Option Mod) (qno : Reqq) :
    IsAttentive (pool.scheduleBarrier mod req qno) := by
  have new := attentive.not_missed conserved unsubmitted
  unfold ThreadPool.scheduleBarrier
  dsimp only
  split
  · have deferred : ∀ barred : ThreadPool Req Mod, IsAttentive barred →
        barred.thpWorkers = pool.thpWorkers → IsAttentive (barred.modEnqueue req .barrier) := by
      intro barred held workers
      exact held.modEnqueue (workers ▸ new) .barrier
    exact deferred _ attentive rfl
  · exact attentive

/-- A signal that is missed is for a request in the fast queue. -/
theorem Attentive.signal (attentive : IsAttentive pool) {wrk : Nat} {req : Req}
    (queued : req ∈ pool.mQueue .fastQueue) (up : ∃ other, Active (pool.thpWorkers other).pc) :
    IsAttentive (pool.signal wrk req) := by
  unfold ThreadPool.signal
  dsimp only
  split
  · refine Attentive.setWorker attentive wrk (attentive.probing wrk) (attentive.sound wrk) ?_
      (fun _ holds => .inl holds) (fun _ => id) fun _ done => done
    intro rq inside
    rcases List.mem_cons.mp inside with rfl | old
    · exact .inr ⟨queued, up⟩
    · exact .inl old
  · exact attentive

/-! ## Promotion -/

/-- The requests in front of a queue that are not barrier requests. -/
def deferred (request : Req → Request Mod) (queue : List Req) : List Req :=
  queue.takeWhile fun rq => (request rq).rqDoneFlgs &&& Request.barrier = 0

/-- The idle workers that a promotion takes are not in front of the check. -/
def Spares (pool : ThreadPool Req Mod) (queue : List Req) : Prop :=
  ∀ wrk ∈ (pool.thpQueue .idleThr).take (deferred pool.request queue).length,
    (pool.thpWorkers wrk).pc ≠ .probe

/-- What holds between the turns of a promotion. -/
structure Waking (pool : ThreadPool Req Mod) : Prop where
  attentive : IsAttentive pool
  up : ∃ other, Active (pool.thpWorkers other).pc
  spares : pool.Spares (pool.mQueue .barrier)

private theorem thpQueue_signal (pool : ThreadPool Req Mod) (wrk : Nat) (req : Req) :
    (pool.signal wrk req).thpQueue = pool.thpQueue := by
  unfold ThreadPool.signal
  dsimp only
  split
  · rfl
  · rfl

/-- A turn of the promotion takes the first idle worker. -/
theorem Waking.turn (waking : Waking pool) {rq : Req} {list : List Req}
    (queue : pool.mQueue .barrier = rq :: list)
    (unflagged : (pool.request rq).rqDoneFlgs &&& Request.barrier = 0) :
    Waking ((pool.resumed rq list).wakeIdle rq) := by
  have fast : (pool.resumed rq list).mQueue .fastQueue = pool.mQueue .fastQueue ++ [rq] := by
    rw [mQueue_resumed, update_self]
  have resumed : IsAttentive (pool.resumed rq list) := by
    unfold IsAttentive
    rw [fast]
    exact Attentive.queue_of_active waking.attentive rq waking.up
  have queued : rq ∈ (pool.resumed rq list).mQueue .fastQueue := by
    rw [fast]
    exact List.mem_append_right _ List.mem_cons_self
  have more : (deferred pool.request (pool.mQueue .barrier)).length =
      (deferred pool.request list).length + 1 := by
    rw [queue, deferred, List.takeWhile_cons_of_pos (by simpa using unflagged)]
    rfl
  have left : ∀ {after : ThreadPool Req Mod}, after.mQueue = (pool.resumed rq list).mQueue →
      after.mQueue .barrier = list := by
    intro after same
    rw [same, mQueue_resumed, update_of_ne (by decide), update_self]
  have spares := waking.spares
  unfold Spares at spares
  rw [more] at spares
  unfold ThreadPool.wakeIdle
  cases dequeued : (pool.resumed rq list).thpDequeue .idleThr with
  | none =>
      have empty : pool.thpQueue .idleThr = [] := by
        unfold thpDequeue at dequeued
        split at dequeued
        · assumption
        · cases dequeued
      refine ⟨resumed, waking.up, fun wrk inside => ?_⟩
      change wrk ∈ (pool.thpQueue .idleThr).take _ at inside
      rw [empty, List.take_nil] at inside
      exact (List.not_mem_nil inside).elim
  | some found =>
      obtain ⟨wrk, rest⟩ := found
      obtain ⟨still, workers, nowhere⟩ := resumed.thpDequeue dequeued
      obtain ⟨idle, first, same⟩ := thpDequeue_eq dequeued
      change pool.thpQueue .idleThr = wrk :: idle at first
      rw [first, List.take_succ_cons] at spares
      have away : (rest.thpWorkers wrk).pc ≠ .probe := by
        rw [workers]
        exact spares wrk List.mem_cons_self
      have swapped := still.thpSwapQueue away .fastThr
      have relistedSwap := Relisted.thpSwapQueue rest wrk .fastThr
      have relisted := relistedSwap.trans (Relisted.signal (rest.thpSwapQueue wrk .fastThr) wrk rq)
      have restQueue : rest.mQueue = (pool.resumed rq list).mQueue := by rw [same]
      have restPc : ∀ other, (rest.thpWorkers other).pc = (pool.thpWorkers other).pc := by
        intro other
        rw [workers]
        rfl
      have lists : ((rest.thpSwapQueue wrk .fastThr).signal wrk rq).thpQueue .idleThr = idle := by
        have absent : wrk ∉ rest.thpQueue .idleThr := fun inside => nowhere ⟨.idleThr, inside⟩
        rw [thpQueue_signal, thpQueue_thpSwapQueue, update_of_ne (by decide),
          filter_eq_of_not_mem absent, same]
        simp only [update_self]
      refine ⟨swapped.signal ?_ ?_, ?_, ?_⟩
      · rw [relistedSwap.mQueue, restQueue]
        exact queued
      · obtain ⟨other, active⟩ := waking.up
        refine ⟨other, ?_⟩
        rw [relistedSwap.pc, restPc]
        exact active
      · obtain ⟨other, active⟩ := waking.up
        refine ⟨other, ?_⟩
        rw [relisted.pc, restPc]
        exact active
      · intro other inside
        have request : ((rest.thpSwapQueue wrk .fastThr).signal wrk rq).request = pool.request := by
          rw [relisted.pool_eq, same]
          rfl
        dsimp only at inside ⊢
        rw [lists, left (relisted.mQueue.trans restQueue), request] at inside
        rw [relisted.pc, restPc]
        exact spares other (List.mem_cons_of_mem _ inside)

/-- There is a request for every turn. -/
theorem promoted_of_length : ∀ {cnt : Nat} {pool : ThreadPool Req Mod},
    cnt ≤ (pool.mQueue .barrier).length → ∃ next, thpPromoteBarrierLck cnt pool = some next := by
  intro cnt
  induction cnt with
  | zero => exact fun _ => ⟨_, rfl⟩
  | succ cnt ih =>
      intro pool enough
      rw [thpPromoteBarrierLck]
      cases queue : pool.mQueue .barrier with
      | nil =>
          rw [queue] at enough
          exact (Nat.not_succ_le_zero _ enough).elim
      | cons rq list =>
          rw [queue, List.length_cons] at enough
          have shorter : cnt ≤ list.length := Nat.le_of_succ_le_succ enough
          have dequeued : pool.modDequeue .barrier =
              some (rq, { pool with mQueue := update pool.mQueue .barrier list }) := by
            unfold modDequeue
            rw [queue]
          have resumed : (pool.resumed rq list).mQueue .barrier = list := by
            rw [mQueue_resumed, update_of_ne (by decide), update_self]
          rw [dequeued]
          dsimp only
          split
          · split
            · exact ih (show cnt ≤ ((pool.resumed rq list).mQueue .barrier).length by rw [resumed]; exact shorter)
            · rename_i wrk rest found
              have listed := Relisted.thpDequeue
                (show (pool.resumed rq list).thpDequeue .idleThr = _ from found)
              have relisted := (listed.trans (Relisted.thpSwapQueue rest wrk .fastThr)).trans
                (Relisted.signal _ wrk rq)
              refine ih ?_
              rw [relisted.mQueue, resumed]
              exact shorter
          · exact ⟨_, rfl⟩

/-- Both verifies of a look for barrier requests hold. -/
theorem Conserved.takes (conserved : Conserved pool) (some_ : pool.thpBarrierCnt ≠ 0) (wrk : Nat) :
    ∃ next, pool.takeBarrier wrk = some next := by
  have counted : pool.thpBarrierCnt = ((pool.mQueue .barrier).length : Int) :=
      conserved.books.barrier_eq
  cases queue : pool.mQueue .barrier with
  | nil =>
      rw [queue] at counted
      exact (some_ counted).elim
  | cons req list =>
      have dequeued : pool.modDequeue .barrier =
          some (req, { pool with mQueue := update pool.mQueue .barrier list }) := by
        unfold modDequeue
        rw [queue]
      have left : (pool.undeferred list).mQueue .barrier = list := by
        change update pool.mQueue .barrier list .barrier = list
        rw [update_self]
      have enough : (pool.undeferred list).thpBarrierCnt.toNat ≤
          ((pool.undeferred list).mQueue .barrier).length := by
        rw [left]
        change (pool.thpBarrierCnt - 1).toNat ≤ _
        rw [counted, queue, List.length_cons]
        omega
      obtain ⟨promoted, promotion⟩ := promoted_of_length enough
      refine ⟨promoted.setPc wrk (.taken req), ?_⟩
      unfold ThreadPool.takeBarrier
      rw [dequeued, Option.bind_some]
      exact Option.map_eq_some_iff.mpr ⟨promoted, promotion, rfl⟩

/-! ## Looking for requests -/

/-- The worker is about to take a barrier request. -/
def TakesBarrier (pool : ThreadPool Req Mod) : Prop :=
  pool.mQueue .fastQueue = [] ∧ pool.mQueue .slowQueue = [] ∧
    ¬ (pool.thpBarrierCnt = 0 ∨ 0 < pool.thpSchedReq)

/-- A worker that takes a barrier request, and promotes those behind it, finds no idle worker for
them in front of the check. -/
def Sparing (pool : ThreadPool Req Mod) : Act Req Mod → Prop
  | .look _ => pool.TakesBarrier → pool.Spares (pool.mQueue .barrier).tail
  | _ => True

instance (pool : ThreadPool Req Mod) (queue : List Req) : Decidable (pool.Spares queue) := by
  unfold Spares
  infer_instance

instance (pool : ThreadPool Req Mod) : Decidable pool.TakesBarrier :=
  inferInstanceAs (Decidable (_ ∧ _))

instance (pool : ThreadPool Req Mod) : DecidablePred pool.Sparing
  | .look _ =>
      inferInstanceAs (Decidable (pool.TakesBarrier → pool.Spares (pool.mQueue .barrier).tail))
  | .schedule .. | .scheduleBarrier .. | .retry _ | .enqueue _ | .leaveDorman _ | .spawn _ |
    .spawnCount _ | .spawnCreate .. | .spawnFailed _ | .inlineRun _ | .inlineDone .. | .start _ |
    .top _ | .probe _ | .park _ | .wake _ | .run _ | .finish .. | .exit _ | .stop | .stopWake |
    .stopVerify =>
      inferInstanceAs (Decidable True)

theorem Attentive.takeBarrier (attentive : IsAttentive pool) {wrk : Nat}
    (here : (pool.thpWorkers wrk).pc = .look) (spares : pool.Spares (pool.mQueue .barrier).tail)
    (taken : pool.takeBarrier wrk = some next) : IsAttentive next := by
  obtain ⟨req, list, promoted, queue, promotion, rfl⟩ := takeBarrier_eq taken
  have left : (pool.undeferred list).mQueue .barrier = list := by
    change update pool.mQueue .barrier list .barrier = list
    rw [update_self]
  have fast : (pool.undeferred list).mQueue .fastQueue = pool.mQueue .fastQueue :=
    update_of_ne (show Reqq.fastQueue ≠ .barrier by decide) list pool.mQueue
  have before : Waking (pool.undeferred list) := by
    refine ⟨?_, ⟨wrk, ?_⟩, ?_⟩
    · unfold IsAttentive
      rw [fast]
      exact attentive
    · change Active (pool.thpWorkers wrk).pc
      rw [here]
      trivial
    · rw [left]
      rw [queue] at spares
      exact spares
  have after : Waking promoted := promoted_of_turns Waking
    (fun turn rq list held queue unflagged => held.turn queue unflagged) before promotion
  have pc : (promoted.thpWorkers wrk).pc = .look := (served_promoted promotion).pc wrk ▸ here
  refine Attentive.setWorker after.attentive wrk nofun nofun (fun _ inside => .inl inside) ?_
    (fun _ _ => trivial) fun _ done => done
  rw [pc]
  exact fun _ holds => (List.not_mem_nil holds).elim

/-- A worker that looks for requests takes one, or is put in front of the check. -/
theorem Attentive.getReqOrPutIdle (attentive : IsAttentive pool) (conserved : Conserved pool)
    {wrk : Nat}
    (here : (pool.thpWorkers wrk).pc = .look) (serves : (pool.thpWorkers wrk).wrkState ≠ .terminate)
    (sparing : pool.Sparing (.look wrk)) : IsAttentive (pool.getReqOrPutIdle wrk) := by
  have pc : ((pool.looking wrk).thpWorkers wrk).pc = .look := by
    simp only [looking, ThreadPool.setWorker, update_self]
    exact here
  have empty : held ((pool.looking wrk).thpWorkers wrk).pc = [] := by
    rw [pc]
    rfl
  have looking : IsAttentive (pool.looking wrk) := by
    refine Attentive.setWorker attentive wrk ?_ ?_ ?_ (fun _ holds => .inl holds) (fun _ => id)
      fun _ done => done
    · intro probes
      change (pool.thpWorkers wrk).pc = .probe at probes
      rw [here] at probes
      cases probes
    · exact attentive.sound wrk
    · exact fun _ inside => (List.not_mem_nil inside).elim
  have away : ((pool.looking wrk).thpWorkers wrk).pc ≠ .probe := by
    rw [pc]
    simp
  -- A worker that takes a request moves to the list for it first.
  have takes : ∀ (thr : Thrq) (req : Req),
      IsAttentive (((pool.looking wrk).thpSwapQueue wrk thr).setPc wrk (.taken req)) := by
    intro thr req
    refine Attentive.setWorker (looking.thpSwapQueue away thr) wrk (by simp) (by simp)
      (fun _ inside => .inl inside) ?_ (fun _ _ => trivial) fun _ done => done
    rw [(Relisted.thpSwapQueue (pool.looking wrk) wrk thr).pc, empty]
    exact fun _ holds => (List.not_mem_nil holds).elim
  rcases getReqOrPutIdle_cases pool wrk with ⟨qno, thr, req, list, served, queue, same⟩ |
    ⟨noFast, noSlow, ⟨-, same⟩ | ⟨stuck, same⟩⟩
  · rw [same]
    have taken := takes thr req
    have holds : req ∈ held
        ((((pool.looking wrk).thpSwapQueue wrk thr).setPc wrk (.taken req)).thpWorkers wrk).pc := by
      simp [ThreadPool.setPc, ThreadPool.setWorker, held]
    rcases served with ⟨rfl, rfl⟩ | ⟨rfl, rfl⟩
    · have fast : (((pool.looking wrk).thpSwapQueue wrk .fastThr).setPc wrk (.taken req)).mQueue
          .fastQueue = req :: list := queue
      unfold IsAttentive at taken
      rw [fast] at taken
      have dequeued := Attentive.dequeue taken ⟨wrk, holds⟩
      have left : update pool.mQueue .fastQueue list .fastQueue = list :=
        update_self _ _ _
      rw [← left] at dequeued
      exact dequeued
    · have kept : update pool.mQueue .slowQueue list .fastQueue = pool.mQueue .fastQueue :=
        update_of_ne (by decide) _ _
      unfold IsAttentive at taken
      change Attentive _ _ (pool.mQueue .fastQueue) _ at taken
      rw [← kept] at taken
      exact taken
  · rw [same]
    have swapped := looking.thpSwapQueue away .idleThr
    have state : (((pool.looking wrk).thpSwapQueue wrk .idleThr).thpWorkers wrk).wrkState =
        .idle := by
      change (update (pool.looking wrk).thpWorkers wrk
        (workerUpdateState ((pool.looking wrk).thpWorkers wrk) .idleThr) wrk).wrkState = _
      rw [update_self]
      have still : ((pool.looking wrk).thpWorkers wrk).wrkState ≠ .terminate := by
        simp only [ThreadPool.looking, ThreadPool.setWorker, update_self]
        exact serves
      rw [workerUpdateState, if_pos still]
      rfl
    have gone : ∀ {list : Thrq}, list ≠ .idleThr →
        wrk ∉ ((pool.looking wrk).thpSwapQueue wrk .idleThr).thpQueue list := by
      intro list other inside
      rw [thpQueue_thpSwapQueue, update_of_ne other] at inside
      exact of_decide_eq_true (List.mem_filter.mp inside).2 rfl
    refine Attentive.setWorker swapped wrk
      (fun _ => ⟨state, gone (by decide), gone (by decide)⟩) (by simp)
      (fun _ inside => .inl inside) ?_ ?_ fun _ done => done
    · rw [(Relisted.thpSwapQueue (pool.looking wrk) wrk .idleThr).pc, empty]
      exact fun _ holds => (List.not_mem_nil holds).elim
    · exact fun some_ => (some_ noFast).elim
  · have cleared : Conserved (pool.looking wrk) := conserved.setWorker rfl rfl rfl
    obtain ⟨after, taken⟩ := cleared.takes (fun none => stuck (.inl none)) wrk
    have spares : (pool.looking wrk).Spares ((pool.looking wrk).mQueue .barrier).tail := by
      intro other inside
      have before := sparing ⟨noFast, noSlow, stuck⟩ other inside
      by_cases same : other = wrk
      · subst same
        exact away
      · simp only [ThreadPool.looking, ThreadPool.setWorker, update_of_ne same]
        exact before
    rw [same, taken, Option.getD_some]
    exact looking.takeBarrier pc spares taken

/-! ## Steps -/

private theorem signal_of_free {wrk : Nat} {req : Req} (free : ¬ pool.HoldsMtx wrk) :
    pool.signal wrk req = pool := by
  unfold ThreadPool.signal
  refine if_neg fun window => free ?_
  rcases window with probe | park
  · exact .inr (.inl probe)
  · exact .inr (.inr park)

/-- A step of a worker to a place that is not in front of the check. -/
theorem Attentive.goOn (attentive : IsAttentive pool) {wrk : Nat} {after : WorkerThread Req}
    (away : after.pc ≠ .probe) (sound : after.pc ≠ .failed)
    (missed : after.missed = (pool.thpWorkers wrk).missed)
    (keeps : ∀ rq ∈ held (pool.thpWorkers wrk).pc, rq ∈ held after.pc)
    (stays : Active (pool.thpWorkers wrk).pc → Active after.pc) :
    IsAttentive (pool.setWorker wrk after) :=
  Attentive.setWorker attentive wrk (fun here => (away here).elim) sound
    (fun _ inside => .inl (missed ▸ inside)) (fun rq holds => .inl (keeps rq holds))
    (fun _ => stays) fun _ done => done

theorem Attentive.loopTop (attentive : IsAttentive pool) {wrk : Nat}
    (here : (pool.thpWorkers wrk).pc = .top)
    (serves : (pool.thpWorkers wrk).wrkState ≠ .terminate) :
    IsAttentive (pool.loopTop wrk) := by
  have empty : ∀ rq, rq ∉ held (pool.thpWorkers wrk).pc := by
    intro rq holds
    rw [here] at holds
    exact List.not_mem_nil holds
  unfold ThreadPool.loopTop
  dsimp only
  rw [if_neg fun ends : pool.wrkCanTerminate wrk => serves ends.1]
  split
  · exact attentive.goOn nofun nofun rfl (fun rq holds => (empty rq holds).elim) fun _ => trivial
  · exact attentive.goOn nofun nofun rfl (fun rq holds => (empty rq holds).elim) fun _ => trivial

/-- The check holds. -/
theorem Attentive.loopProbe (attentive : IsAttentive pool) {wrk : Nat}
    (here : (pool.thpWorkers wrk).pc = .probe) : IsAttentive (pool.loopProbe wrk) := by
  obtain ⟨idle, -, -⟩ := attentive.probing wrk here
  have stays : ¬ pool.wrkCanTerminate wrk := by
    intro ends
    have terminated := ends.1
    rw [idle] at terminated
    cases terminated
  unfold ThreadPool.loopProbe
  rw [if_neg stays, if_pos (.inl idle)]
  refine attentive.goOn nofun nofun rfl ?_ ?_
  · rw [here]
    exact fun _ holds => (List.not_mem_nil holds).elim
  · rw [here]
    exact False.elim

theorem Attentive.workerFinish (attentive : IsAttentive pool) {wrk : Nat} {req : Req}
    (here : (pool.thpWorkers wrk).pc = .running req) (chained : Bool) :
    IsAttentive (pool.workerFinish wrk req chained) := by
  refine Attentive.setWorker attentive wrk nofun nofun (fun _ inside => .inl inside) ?_
    (fun _ _ => trivial) (stays_execDone pool req chained).finished
  rw [here]
  intro rq holds
  obtain rfl := List.mem_singleton.mp holds
  exact .inr (update_self _ _ _)

theorem Attentive.step (attentive : IsAttentive pool) (serving : Serving pool) {act : Act Req Mod}
    (other : act ≠ .stop) (sparing : Sparing pool act) (taken : Taken pool act next) :
    IsAttentive next := by
  have conserved := serving.conserved
  have crew := serving.crew
  have serves : ∀ {wrk : Nat} {pc : WorkerPc Req}, (pool.thpWorkers wrk).pc = pc → pc ≠ .out →
      (pool.thpWorkers wrk).wrkState ≠ .terminate := by
    intro wrk pc here up
    exact (crew.serving serving.running wrk (here ▸ up)).1
  have leaves : ∀ {wrk : Nat} {pc : WorkerPc Req}, (pool.thpWorkers wrk).pc = pc → held pc = [] →
      ∀ {after : WorkerPc Req}, ∀ rq ∈ held (pool.thpWorkers wrk).pc, rq ∈ held after := by
    intro wrk pc here empty after rq holds
    rw [here, empty] at holds
    exact (List.not_mem_nil holds).elim
  have asleep : ∀ {wrk : Nat} {pc : WorkerPc Req}, (pool.thpWorkers wrk).pc = pc → ¬ Active pc →
      ∀ {after : WorkerPc Req}, Active (pool.thpWorkers wrk).pc → Active after := by
    intro wrk pc here down after active
    exact (down (here ▸ active)).elim
  cases taken with
  | schedule begun => exact attentive.schedule conserved (begun ▸ trivial) _ _
  | scheduleBarrier begun => exact attentive.scheduleBarrier conserved (begun ▸ trivial) _ _
  | retry begun => exact attentive.schedule conserved (begun ▸ trivial) _ _
  | @enqueue req wrk begun free =>
      unfold workerEnqueue
      dsimp only
      split
      · have queued : IsAttentive (pool.setWorker wrk { pool.thpWorkers wrk with
            wrkReqcnt := (pool.thpWorkers wrk).wrkReqcnt + 1
            wrkQueue := (pool.thpWorkers wrk).wrkQueue ++ [req] }) :=
          Attentive.setWorker attentive wrk (attentive.probing wrk) (attentive.sound wrk)
            (fun _ inside => .inl inside) (fun _ holds => .inl holds)
              (fun _ => id) fun _ done => done
        rw [signal_of_free]
        · exact queued
        · intro holds
          have same : ((pool.setWorker wrk { pool.thpWorkers wrk with
              wrkReqcnt := (pool.thpWorkers wrk).wrkReqcnt + 1
              wrkQueue := (pool.thpWorkers wrk).wrkQueue ++ [req] }).thpWorkers wrk).pc =
              (pool.thpWorkers wrk).pc := by
            simp only [ThreadPool.setWorker, update_self]
          unfold HoldsMtx at holds
          rw [same] at holds
          exact free holds
      · exact attentive
  | leaveDorman begun =>
      unfold ThreadPool.leaveDorman
      split
      · exact attentive
      · exact attentive
  | @spawn req wrk begun =>
      have fits := crew.fits req
      rw [begun] at fits
      have out : (pool.thpWorkers wrk).pc = .out := fits.2.1
      unfold workerSpawnThr
      dsimp only
      split
      · exact attentive
      · refine attentive.goOn ?_ (attentive.sound wrk) rfl (fun _ holds => holds) id
        dsimp only
        rw [out]
        simp
  | @spawnCount req wrk begun =>
      have fits := crew.fits req
      rw [begun] at fits
      have out : (pool.thpWorkers wrk).pc = .out := fits.2.1
      have counted : IsAttentive { pool with thpRunThds := pool.thpRunThds + 1 } := attentive
      exact counted.goOn (by simp) (by simp) rfl (leaves out rfl) (asleep out id)
  | @spawnCreate req wrk created begun =>
      have fits := crew.fits req
      rw [begun] at fits
      have creating : (pool.thpWorkers wrk).pc = .creating := fits
      unfold ThreadPool.spawnCreate
      dsimp only
      split
      · exact attentive.goOn (by simp) (by simp) rfl (leaves creating rfl) (asleep creating id)
      · have counted : IsAttentive { pool with thpRunThds := pool.thpRunThds - 1 } := attentive
        exact counted.goOn (by simp) (by simp) rfl (leaves creating rfl) (asleep creating id)
  | @spawnFailed req wrk begun =>
      have fits := crew.fits req
      rw [begun] at fits
      have out : (pool.thpWorkers wrk).pc = .out := fits
      exact attentive.thpSwapQueue (by rw [out]; simp) .dormanThr
  | inlineRun begun => exact attentive
  | inlineDone begun => exact (crew.orderly.running _ begun).elim
  | @start wrk here =>
      have swapped := attentive.thpSwapQueue (by rw [here]; simp) .fastThr
      have pc := (Relisted.thpSwapQueue pool wrk .fastThr).pc wrk
      refine swapped.goOn (by simp) (by simp) rfl ?_ fun _ => trivial
      rw [pc]
      exact leaves here rfl
  | top here => exact attentive.loopTop here (serves here (by simp))
  | look here => exact attentive.getReqOrPutIdle conserved here (serves here (by simp)) sparing
  | probe here => exact attentive.loopProbe here
  | park here => exact attentive.goOn (by simp) (by simp) rfl (leaves here rfl) (asleep here id)
  | wake here => exact attentive.goOn (by simp) (by simp) rfl (leaves here rfl) fun _ => trivial
  | @run wrk req here =>
      have executing : IsAttentive (pool.execTask req) := attentive
      refine executing.goOn (by simp) (by simp) rfl ?_ fun _ => trivial
      change ∀ rq ∈ held (pool.thpWorkers wrk).pc, _
      rw [here]
      exact fun _ holds => holds
  | finish here => exact attentive.workerFinish here _
  | @exit wrk here =>
      exact ((crew.serving serving.running wrk (by rw [here]; simp)).2 here).elim
  | stop begun => exact (other rfl).elim
  | stopWake begun done => exact attentive
  | stopReturn begun => exact attentive
  | stopVerify begun => exact attentive

/-! ## Runs -/

private theorem preserves_attentive : (machine Req Mod).Preserves
    (fun pool act => act ≠ .stop ∧ Sparing pool act) fun pool => Serving pool ∧
      IsAttentive pool := by
  rintro pool act next output ⟨serving, attentive⟩ ⟨other, sparing⟩ stepped
  have taken := taken_of_machine stepped
  exact ⟨serving.step other taken, attentive.step serving other sparing taken⟩

private theorem Initial.attentive (initial : Initial pool) : IsAttentive pool := by
  obtain ⟨thpMin, thpMax, created, request, -, -, rfl⟩ := initial
  have pc : ∀ wrk, ((modInit thpMin thpMax created request).thpWorkers wrk).pc = .start ∨
      ((modInit thpMin thpMax created request).thpWorkers wrk).pc = (.out : WorkerPc Req) := by
    intro wrk
    by_cases spawned : wrk < thpMin ∧ created wrk = true
    · exact .inl (by simp only [modInit, if_pos spawned])
    · exact .inr (by simp only [modInit, if_neg spawned])
  have missed : ∀ wrk, ((modInit thpMin thpMax created request).thpWorkers wrk).missed = [] := by
    intro wrk
    by_cases spawned : wrk < thpMin ∧ created wrk = true
    · simp only [modInit, if_pos spawned]
    · simp only [modInit, if_neg spawned]
  refine ⟨⟨?_, ?_⟩, ?_, ?_, ?_, ?_⟩
  · intro wrk first second here there
    have only : ∀ {list : Thrq}, wrk ∈ (modInit thpMin thpMax created request).thpQueue list →
        list = .dormanThr := by
      intro list listed
      by_contra some_
      simp only [modInit, if_neg some_] at listed
      exact List.not_mem_nil listed
    exact (only here).trans (only there).symm
  · intro list
    by_cases dormant : list = .dormanThr
    · simp only [modInit, if_pos dormant]
      exact nodup_dormant thpMin (thpMax - thpMin) created
    · simp only [modInit, if_neg dormant]
      exact List.nodup_nil
  · intro wrk here
    rcases pc wrk with start | out
    · cases start.symm.trans here
    · cases out.symm.trans here
  · intro wrk here
    rcases pc wrk with start | out
    · cases start.symm.trans here
    · cases out.symm.trans here
  · intro wrk rq inside
    rw [missed wrk] at inside
    exact (List.not_mem_nil inside).elim
  · intro wrk rq inside
    rw [missed wrk] at inside
    exact (List.not_mem_nil inside).elim

/-- No check of a worker failed, and no worker waits behind a lost signal for a request that is
still queued unless another worker is up. -/
structure Attended (pool : ThreadPool Req Mod) : Prop where
  verified : ∀ wrk, (pool.thpWorkers wrk).pc ≠ .failed
  awake : ∀ wrk rq, (pool.thpWorkers wrk).pc = .wait → rq ∈ (pool.thpWorkers wrk).missed →
    pool.Queued rq → ∃ other, other ≠ wrk ∧ Active (pool.thpWorkers other).pc

/-- **While promotions spare the workers in front of the check, it holds and no request is
forgotten.** -/
theorem attended_of_reached (reached : (machine Req Mod).Reached Initial
    (fun pool act => act ≠ .stop ∧ Sparing pool act) pool) : Attended pool := by
  obtain ⟨serving, attentive⟩ := preserves_attentive.reached
    (fun _ initial => ⟨initial.serving, initial.attentive⟩) reached
  refine ⟨attentive.sound, ?_⟩
  intro wrk rq waits missed queued
  have ledger := serving.conserved.books.ledger
  have somewhere : ∃ place, rq ∈ pool.contents place ∧ ∀ other, place ≠ .hand other := by
    rcases queued with ⟨qno, inside⟩ | ⟨other, inside⟩
    · exact ⟨.queue qno, inside, nofun⟩
    · exact ⟨.worker other, inside, nofun⟩
  obtain ⟨place, here, notHand⟩ := somewhere
  have unfinished := ((ledger.somewhere_iff rq).mp ⟨place, here⟩).2
  have fast : rq ∈ pool.mQueue .fastQueue := by
    rcases attentive.resumed wrk rq missed with queued | ⟨other, holds⟩ | finished
    · exact queued
    · have there : rq ∈ pool.contents (.hand other) := holds
      exact (notHand other (ledger.exclusive.unique here there)).elim
    · exact absurd (unfinished.symm.trans finished) Bool.false_ne_true
  obtain ⟨other, active⟩ := attentive.active wrk rq missed fast
  refine ⟨other, ?_, active⟩
  rintro rfl
  rw [waits] at active
  exact active

section ProbeWindow

/-- A barrier request, and one deferred behind it, while the second worker puts itself to sleep. -/
def intoSleep : List (Act Nat Unit) :=
  [.start 0, .schedule (some ()) 0 .fastQueue, .enqueue 0, .top 0, .run 0,
    .scheduleBarrier (some ()) 1 .fastQueue, .schedule (some ()) 2 .fastQueue, .start 1,
      .top 1, .look 1]

/-- The promotion comes behind the check, and its signal is lost. -/
def behindProbe : List (Act Nat Unit) :=
  intoSleep ++ [.probe 1, .finish 0 false, .top 0, .look 0, .park 1]

theorem attended_of_reached_behindProbe :
    Attended ((machine Nat Unit).final twoWorkers behindProbe (by decide +kernel)) := by
  have stops : ∀ act ∈ behindProbe, act ≠ .stop := by simp [behindProbe, intoSleep]
  have sparing : (machine Nat Unit).Meets Sparing twoWorkers behindProbe := by decide +kernel
  exact attended_of_reached (Machine.reached_final initial_twoWorkers
    ((Machine.meets_of_labels stops twoWorkers).and sparing) _)

/-- The promotion comes in front of the check. -/
def beforeProbe : List (Act Nat Unit) :=
  intoSleep ++ [.finish 0 false, .top 0, .look 0, .probe 1]

theorem beforeProbe_runs : ((machine Nat Unit).run twoWorkers beforeProbe).isSome = true := by
  decide +kernel

theorem beforeProbe_not_attended : ∃ pool,
    (machine Nat Unit).Reached Initial (fun _ act => act ≠ .stop) pool ∧ ¬ Attended pool := by
  have stops : ∀ act ∈ beforeProbe, act ≠ .stop := by simp [beforeProbe, intoSleep]
  refine ⟨_, Machine.reached_final initial_twoWorkers (Machine.meets_of_labels stops twoWorkers)
    beforeProbe_runs, fun attended => ?_⟩
  have failed : (((machine Nat Unit).final _ _ beforeProbe_runs).thpWorkers 1).pc = .failed := by
    decide +kernel
  exact attended.verified 1 failed

end ProbeWindow

end ThreadPool

end Tvntd
