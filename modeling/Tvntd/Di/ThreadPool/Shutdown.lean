import Mathlib.Data.Finset.Card
import Tvntd.Di.ThreadPool.Runs

/-! # Stopping the thread pool

What `thp_stop` relies on in a quiet run: the threads are counted, all of them
belong to the workers of the pool, every request is executed once, and behind
the wait for the threads nothing moves any more, so that what was verified stays
true. `stopsWell_of_reached` puts this together.
-/

namespace Tvntd

open Placement Function

namespace ThreadPool

set_option linter.unusedSectionVars false

variable {Req Mod : Type} [DecidableEq Req] {pool next : ThreadPool Req Mod}

/-! ## The workers of the pool -/

/-- The worker of a submission. -/
def assigned : Submit Mod → List Nat
  | .hand wrk => [wrk]
  | at_ => berth at_

/-- All workers that are seen somewhere are below a bound. -/
structure Within (max : Nat) (lists : Thrq → List Nat) (workers : Nat → WorkerThread Req)
    (submit : Req → Submit Mod) : Prop where
  listed : ∀ qno, ∀ wrk ∈ lists qno, wrk < max
  manned : ∀ wrk, (workers wrk).pc ≠ .out → wrk < max
  queued : ∀ wrk, (workers wrk).wrkQueue ≠ [] → wrk < max
  given : ∀ req, ∀ wrk ∈ assigned (submit req), wrk < max

/-- The workers of a pool. -/
abbrev IsWithin (pool : ThreadPool Req Mod) : Prop :=
  Within pool.thpMax pool.thpQueue pool.thpWorkers pool.submit

namespace Within

variable {max : Nat} {lists : Thrq → List Nat} {workers : Nat → WorkerThread Req}
  {submit : Req → Submit Mod} {wrk : Nat}

theorem setWorker (within : Within max lists workers submit) (inside : wrk < max)
    (after : WorkerThread Req) : Within max lists (update workers wrk after) submit where
  listed := within.listed
  manned := by
    intro other up
    by_cases same : other = wrk
    · exact same ▸ inside
    · rw [update_of_ne same] at up
      exact within.manned other up
  queued := by
    intro other some_
    by_cases same : other = wrk
    · exact same ▸ inside
    · rw [update_of_ne same] at some_
      exact within.queued other some_
  given := within.given

theorem setSubmit (within : Within max lists workers submit) (req : Req) {after : Submit Mod}
    (inside : ∀ wrk ∈ assigned after, wrk < max) :
    Within max lists workers (update submit req after) where
  listed := within.listed
  manned := within.manned
  queued := within.queued
  given := by
    intro other
    by_cases same : other = req
    · subst same
      rw [update_self]
      exact inside
    · rw [update_of_ne same]
      exact within.given other

/-- The lists change, with the same workers. -/
theorem relist (within : Within max lists workers submit) {others : Thrq → List Nat}
    (inside : ∀ qno, ∀ wrk ∈ others qno, wrk < max) : Within max others workers submit :=
  ⟨inside, within.manned, within.queued, within.given⟩

end Within

theorem Within.thpDequeue (within : IsWithin pool) {qno : Thrq} {wrk : Nat}
    (dequeued : pool.thpDequeue qno = some (wrk, next)) : IsWithin next ∧ wrk < next.thpMax := by
  obtain ⟨rest, first, rfl⟩ := thpDequeue_eq dequeued
  refine ⟨Within.relist within ?_, within.listed qno wrk (first ▸ List.mem_cons_self)⟩
  intro list other inside
  rcases mem_update.mp inside with ⟨rfl, later⟩ | ⟨-, old⟩
  · exact within.listed list other (first ▸ List.mem_cons_of_mem _ later)
  · exact within.listed list other old

theorem Within.thpSwapQueue (within : IsWithin pool) {wrk : Nat} (inside : wrk < pool.thpMax)
    (qno : Thrq) : IsWithin (pool.thpSwapQueue wrk qno) := by
  refine Within.relist (Within.setWorker within inside _) ?_
  intro list other member
  rcases mem_update.mp member with ⟨rfl, added⟩ | ⟨-, old⟩
  · rcases List.mem_append.mp added with old | last
    · exact within.listed list other (List.mem_filter.mp old).1
    · exact List.mem_singleton.mp last ▸ inside
  · exact within.listed list other (List.mem_filter.mp old).1

theorem Within.dlAddFront (within : IsWithin pool) {wrk : Nat} (inside : wrk < pool.thpMax)
    (qno : Thrq) : IsWithin (pool.dlAddFront wrk qno) := by
  refine Within.relist within ?_
  intro list other member
  rcases mem_update.mp member with ⟨rfl, added⟩ | ⟨-, old⟩
  · rcases List.mem_cons.mp added with rfl | old
    · exact inside
    · exact within.listed list other old
  · exact within.listed list other old

theorem Within.signal (within : IsWithin pool) {wrk : Nat} (inside : wrk < pool.thpMax)
    (req : Req) :
    IsWithin (pool.signal wrk req) := by
  unfold ThreadPool.signal
  dsimp only
  split
  · exact Within.setWorker within inside _
  · exact within

theorem Within.roundRobin (within : IsWithin pool) {wrk : Nat} (inside : wrk < pool.thpMax)
    (thp : Thrq) : IsWithin (pool.roundRobin wrk thp).2 ∧
      (pool.roundRobin wrk thp).1 < (pool.roundRobin wrk thp).2.thpMax := by
  have swapped := within.thpSwapQueue inside thp
  unfold ThreadPool.roundRobin
  dsimp only
  split
  · split
    · exact ⟨swapped, inside⟩
    · obtain ⟨rest, front⟩ := swapped.thpDequeue ‹_›
      split
      · exact ⟨rest.dlAddFront front thp, front⟩
      · exact ⟨rest, front⟩
  · exact ⟨swapped, inside⟩

/-- A submission with a worker of the pool. -/
theorem Within.assign (within : IsWithin pool) (req : Req) {after : Submit Mod}
    (inside : ∀ wrk ∈ assigned after, wrk < pool.thpMax) : IsWithin (pool.setSubmit req after) :=
  Within.setSubmit within req inside

theorem Within.pickWorker (within : IsWithin pool) (req : Req) (qno : Reqq) (thp : Thrq) :
    IsWithin (pool.pickWorker req qno thp) := by
  have one : ∀ {max wrk : Nat}, wrk < max → ∀ other ∈ [wrk], other < max := by
    intro max wrk inside other member
    exact List.mem_singleton.mp member ▸ inside
  unfold ThreadPool.pickWorker
  split
  · rename_i wrk rest dequeued
    obtain ⟨still, inside⟩ := within.thpDequeue dequeued
    obtain ⟨picked, front⟩ := still.roundRobin inside thp
    exact picked.assign req (one front)
  · split
    · rename_i wrk rest dequeued
      obtain ⟨still, inside⟩ := within.thpDequeue dequeued
      exact still.assign req (one inside)
    · have queued : IsWithin (pool.modEnqueue req qno) := within
      split
      · split
        · rename_i wrk rest dequeued
          obtain ⟨still, inside⟩ := queued.thpDequeue dequeued
          exact still.assign req (one inside)
        · exact queued.assign req nofun
      · exact within.assign req nofun

theorem Within.schedule (within : IsWithin pool) (mod : Option Mod) (req : Req) (qno : Reqq) :
    IsWithin (pool.schedule mod req qno) := by
  by_cases deferred : 0 < pool.thpBarrierCnt
  · rw [schedule_deferred mod req qno deferred]
    exact Within.setSubmit within req nofun
  · have scheduled : IsWithin (pool.scheduled mod req) := within
    rw [schedule_scheduled mod req qno deferred]
    cases qno with
    | fastQueue => exact scheduled.pickWorker req .fastQueue .fastThr
    | slowQueue => exact scheduled.pickWorker req .slowQueue .slowThr
    | timeWait | suspend | barrier => exact Within.setSubmit within req nofun

/-- The idle worker that a promotion takes is one of the pool. -/
theorem Within.wakeIdle (within : IsWithin pool) (rq : Req) : IsWithin (pool.wakeIdle rq) := by
  unfold ThreadPool.wakeIdle
  split
  · exact within
  · obtain ⟨still, inside⟩ := within.thpDequeue ‹_›
    exact (still.thpSwapQueue inside .fastThr).signal inside rq

theorem Within.getReqOrPutIdle (within : IsWithin pool) {wrk : Nat} (inside : wrk < pool.thpMax) :
    IsWithin (pool.getReqOrPutIdle wrk) := by
  have looking : IsWithin (pool.looking wrk) := Within.setWorker within inside _
  have moves : ∀ {before : ThreadPool Req Mod} (thr : Thrq) (pc : WorkerPc Req), IsWithin before →
      wrk < before.thpMax → IsWithin ((before.thpSwapQueue wrk thr).setPc wrk pc) := by
    intro before thr pc held below
    exact Within.setWorker (held.thpSwapQueue below thr) below _
  rcases getReqOrPutIdle_cases pool wrk with ⟨qno, thr, req, list, -, -, same⟩ |
    ⟨-, -, ⟨-, same⟩ | ⟨-, same⟩⟩
  · rw [same]
    have dequeued :
        IsWithin { pool.looking wrk with mQueue := update pool.mQueue qno list } :=
      looking
    exact moves thr _ dequeued inside
  · rw [same]
    exact moves .idleThr _ looking inside
  · rw [same]
    cases taken : (pool.looking wrk).takeBarrier wrk with
    | none => exact Within.setWorker looking inside _
    | some after =>
        obtain ⟨req, list, promoted, -, promotion, rfl⟩ := takeBarrier_eq taken
        have before : IsWithin ((pool.looking wrk).undeferred list) := looking
        have turn : ∀ (turn : ThreadPool Req Mod) (rq : Req) (list : List Req), IsWithin turn →
            IsWithin ((turn.resumed rq list).wakeIdle rq) := by
          intro turn rq list held
          have resumed : IsWithin (turn.resumed rq list) := held
          exact resumed.wakeIdle rq
        have after : IsWithin promoted := promoted_of_turns IsWithin
          (fun before rq list held _ _ => turn before rq list held) before promotion
        have below : wrk < promoted.thpMax := by
          rw [(served_promoted promotion).pool_eq]
          exact inside
        exact Within.setWorker after below _

theorem Within.step (within : IsWithin pool) {act : Act Req Mod} (taken : Taken pool act next) :
    IsWithin next := by
  have up : ∀ {wrk : Nat} {pc : WorkerPc Req}, (pool.thpWorkers wrk).pc = pc → pc ≠ .out →
      wrk < pool.thpMax := fun here some_ => within.manned _ (here ▸ some_)
  have theirs : ∀ {req : Req} {at_ : Submit Mod} {wrk : Nat}, pool.submit req = at_ →
      wrk ∈ assigned at_ → wrk < pool.thpMax := fun begun given => within.given _ _ (begun ▸ given)
  have mine : ∀ {wrk : Nat}, wrk < pool.thpMax → ∀ other ∈ [wrk], other < pool.thpMax := by
    intro wrk inside other member
    exact List.mem_singleton.mp member ▸ inside
  have none : ∀ other ∈ ([] : List Nat), other < pool.thpMax := nofun
  cases taken with
  | schedule begun => exact within.schedule _ _ _
  | retry begun => exact within.schedule _ _ _
  | @scheduleBarrier mod req qno begun =>
      unfold ThreadPool.scheduleBarrier
      dsimp only
      split
      · exact Within.setSubmit within req none
      · exact Within.setSubmit within req none
  | @enqueue req wrk begun free =>
      have inside := theirs begun List.mem_cons_self
      unfold workerEnqueue
      dsimp only
      split
      · have queued : IsWithin (pool.setWorker wrk { pool.thpWorkers wrk with
            wrkReqcnt := (pool.thpWorkers wrk).wrkReqcnt + 1
            wrkQueue := (pool.thpWorkers wrk).wrkQueue ++ [req] }) :=
              Within.setWorker within inside _
        have signalled := queued.signal inside req
        refine signalled.assign req fun other member => ?_
        exact (List.not_mem_nil member).elim
      · exact within.assign req none
  | leaveDorman begun =>
      unfold ThreadPool.leaveDorman
      split
      · exact within.assign _ (mine (theirs begun List.mem_cons_self))
      · exact within.assign _ none
  | spawn begun =>
      have inside := theirs begun List.mem_cons_self
      unfold workerSpawnThr
      dsimp only
      split
      · exact within.assign _ none
      · exact Within.setSubmit (Within.setWorker within inside _) _ (mine inside)
  | spawnCount begun =>
      have inside := theirs begun List.mem_cons_self
      exact Within.setSubmit (Within.setWorker within inside _) _ (mine inside)
  | spawnCreate begun =>
      have inside := theirs begun List.mem_cons_self
      unfold ThreadPool.spawnCreate
      dsimp only
      split
      · exact Within.setSubmit (Within.setWorker within inside _) _ none
      · exact Within.setSubmit (Within.setWorker within inside _) _ (mine inside)
  | spawnFailed begun =>
      exact (within.thpSwapQueue (theirs begun List.mem_cons_self) .dormanThr).assign _ none
  | inlineRun begun => exact Within.setSubmit within _ none
  | inlineDone begun => exact Within.setSubmit within _ none
  | start here =>
      have inside := up here nofun
      exact Within.setWorker (within.thpSwapQueue inside .fastThr) inside _
  | top here =>
      have inside := up here nofun
      unfold loopTop
      dsimp only
      split
      · exact Within.setWorker within inside _
      · split
        · exact Within.setWorker within inside _
        · exact Within.setWorker within inside _
  | look here => exact within.getReqOrPutIdle (up here nofun)
  | probe here =>
      have inside := up here nofun
      unfold loopProbe
      split
      · exact Within.setWorker within inside _
      · split
        · exact Within.setWorker within inside _
        · exact Within.setWorker within inside _
  | park here => exact Within.setWorker within (up here nofun) _
  | wake here => exact Within.setWorker within (up here nofun) _
  | run here => exact Within.setWorker within (up here nofun) _
  | finish here => exact Within.setWorker within (up here nofun) _
  | @exit wrk here =>
      have inside := up here nofun
      have counted : IsWithin { pool with thpRunThds := pool.thpRunThds - 1 } := within
      exact Within.setWorker (counted.thpSwapQueue inside .dormanThr) inside _
  | stop begun =>
      have same : ∀ wrk, (pool.thpStop.thpWorkers wrk).pc = (pool.thpWorkers wrk).pc ∧
          (pool.thpStop.thpWorkers wrk).wrkQueue = (pool.thpWorkers wrk).wrkQueue := by
        intro wrk
        by_cases inside : wrk < pool.thpMax
        · simp only [thpStop, if_pos inside, and_self]
        · simp only [thpStop, if_neg inside, and_self]
      refine ⟨within.listed, ?_, ?_, within.given⟩
      · intro wrk
        rw [(same wrk).1]
        exact within.manned wrk
      · intro wrk
        rw [(same wrk).2]
        exact within.queued wrk
  | stopWake begun done => exact within
  | stopReturn begun => exact within
  | stopVerify begun => exact within

/-! ## Threads -/

/-- From a place of a thread to the next one. -/
def Goes : WorkerPc Req → WorkerPc Req → Prop
  | .out, after => after = .creating
  | .creating, after => after = .start ∨ after = .out
  | .start, after => after = .top
  | .top, after => after = .exit ∨ after = .look ∨ ∃ req, after = .taken req
  | .look, after => (∃ req, after = .taken req) ∨ after = .probe ∨ after = .failed
  | .probe, after => after = .exit ∨ after = .park ∨ after = .failed
  | .park, after => after = .wait
  | .wait, after => after = .top
  | .taken req, after => after = .running req
  | .running _, after => after = .top
  | .exit, after => after = .out
  | .failed, _ => False

theorem pc_setWorker (pool : ThreadPool Req Mod) (wrk : Nat) (after : WorkerThread Req) :
    ((pool.setWorker wrk after).thpWorkers wrk).pc = after.pc := by
  simp only [setWorker, update_self]

theorem pc_setPc (pool : ThreadPool Req Mod) (wrk : Nat) (pc : WorkerPc Req) :
    ((pool.setPc wrk pc).thpWorkers wrk).pc = pc := pc_setWorker pool wrk _

private theorem goes_getReqOrPutIdle (pool : ThreadPool Req Mod) (wrk : Nat) :
    Goes .look ((pool.getReqOrPutIdle wrk).thpWorkers wrk).pc := by
  rcases getReqOrPutIdle_cases pool wrk with ⟨qno, thr, req, list, -, -, same⟩ |
    ⟨-, -, ⟨-, same⟩ | ⟨-, same⟩⟩
  · rw [same, pc_setPc]
    exact .inl ⟨req, rfl⟩
  · rw [same, pc_setPc]
    exact .inr (.inl rfl)
  · rw [same]
    cases taken : (pool.looking wrk).takeBarrier wrk with
    | none =>
        rw [Option.getD_none, pc_setPc]
        exact .inr (.inr rfl)
    | some after =>
        obtain ⟨req, list, promoted, -, -, rfl⟩ := takeBarrier_eq taken
        rw [Option.getD_some, pc_setPc]
        exact .inl ⟨req, rfl⟩

/-- The thread that takes a step goes to the next place. -/
theorem Taken.goes {act : Act Req Mod} (taken : Taken pool act next) (orderly : Orderly pool)
    {wrk : Nat}
    (mine : pool.actor act = some wrk) :
    Goes (pool.thpWorkers wrk).pc (next.thpWorkers wrk).pc := by
  cases taken with
  | schedule | scheduleBarrier | retry | enqueue | leaveDorman | spawn | spawnFailed | inlineRun
  | inlineDone | stop | stopWake | stopReturn | stopVerify => cases mine
  | spawnCount begun =>
      rw [actor, begun] at mine
      obtain rfl := Option.some.inj mine
      rw [orderly.spawnCount _ _ begun]
      exact pc_setPc _ _ _
  | @spawnCreate req other created begun =>
      rw [actor, begun] at mine
      obtain rfl := Option.some.inj mine
      rw [orderly.spawnCreate _ _ begun]
      unfold ThreadPool.spawnCreate
      dsimp only
      split
      · exact .inl (pc_setWorker pool _ _)
      · exact .inr (pc_setWorker _ _ _)
  | start here =>
      obtain rfl := Option.some.inj mine
      rw [here]
      exact pc_setPc _ _ _
  | top here =>
      obtain rfl := Option.some.inj mine
      rw [here]
      unfold loopTop
      dsimp only
      split
      · exact .inl (pc_setWorker _ _ _)
      · split
        · exact .inr (.inl (pc_setPc _ _ _))
        · exact .inr (.inr ⟨_, pc_setWorker _ _ _⟩)
  | look here =>
      obtain rfl := Option.some.inj mine
      rw [here]
      exact goes_getReqOrPutIdle pool _
  | probe here =>
      obtain rfl := Option.some.inj mine
      rw [here]
      unfold loopProbe
      split
      · exact .inl (pc_setWorker _ _ _)
      · split
        · exact .inr (.inl (pc_setPc _ _ _))
        · exact .inr (.inr (pc_setPc _ _ _))
  | park here =>
      obtain rfl := Option.some.inj mine
      rw [here]
      exact pc_setPc _ _ _
  | wake here =>
      obtain rfl := Option.some.inj mine
      rw [here]
      exact pc_setPc _ _ _
  | run here =>
      obtain rfl := Option.some.inj mine
      rw [here]
      exact pc_setPc _ _ _
  | finish here =>
      obtain rfl := Option.some.inj mine
      rw [here]
      exact pc_setPc _ _ _
  | exit here =>
      obtain rfl := Option.some.inj mine
      rw [here]
      exact pc_setPc _ _ _

/-- `thp_run_thds` counts the threads. -/
def Counted (pool : ThreadPool Req Mod) : Prop :=
  ∃ threads : Finset Nat, (∀ wrk, wrk ∈ threads ↔ (pool.thpWorkers wrk).pc ≠ .out) ∧
    pool.thpRunThds = (threads.card : Int)

theorem Counted.congr (counted : Counted pool) (runThds : next.thpRunThds = pool.thpRunThds)
    (same : ∀ wrk, (next.thpWorkers wrk).pc = .out ↔ (pool.thpWorkers wrk).pc = .out) :
    Counted next := by
  obtain ⟨threads, member, card⟩ := counted
  refine ⟨threads, fun wrk => ?_, runThds.trans card⟩
  rw [member wrk, not_iff_not, same wrk]

/-- A thread is added. -/
theorem Counted.add (counted : Counted pool) {wrk : Nat} (out : (pool.thpWorkers wrk).pc = .out)
    (up : (next.thpWorkers wrk).pc ≠ .out) (runThds : next.thpRunThds = pool.thpRunThds + 1)
    (others : ∀ other, other ≠ wrk → (next.thpWorkers other).pc = (pool.thpWorkers other).pc) :
    Counted next := by
  obtain ⟨threads, member, card⟩ := counted
  have absent : wrk ∉ threads := fun inside => (member wrk).mp inside out
  refine ⟨insert wrk threads, fun other => ?_, ?_⟩
  · by_cases same : other = wrk
    · subst same
      exact iff_of_true (Finset.mem_insert_self _ _) up
    · rw [Finset.mem_insert, others other same, ← member other]
      exact or_iff_right same
  · rw [runThds, card, Finset.card_insert_of_notMem absent]
    rfl

/-- A thread is gone. -/
theorem Counted.remove (counted : Counted pool) {wrk : Nat} (up : (pool.thpWorkers wrk).pc ≠ .out)
    (out : (next.thpWorkers wrk).pc = .out) (runThds : next.thpRunThds = pool.thpRunThds - 1)
    (others : ∀ other, other ≠ wrk → (next.thpWorkers other).pc = (pool.thpWorkers other).pc) :
    Counted next := by
  obtain ⟨threads, member, card⟩ := counted
  have inside : wrk ∈ threads := (member wrk).mpr up
  refine ⟨threads.erase wrk, fun other => ?_, ?_⟩
  · by_cases same : other = wrk
    · subst same
      exact iff_of_false (Finset.notMem_erase _ _) (fun some_ => some_ out)
    · rw [Finset.mem_erase, others other same, ← member other]
      exact and_iff_right same
  · have some_ := Finset.card_pos.mpr ⟨wrk, inside⟩
    rw [runThds, card, Finset.card_erase_of_mem inside]
    omega

/-- No thread starts or ends. -/
theorem Taken.pc_out {act : Act Req Mod} (taken : Taken pool act next) (orderly : Orderly pool)
    (stays : ∀ wrk, pool.actor act = some wrk → (pool.thpWorkers wrk).pc ≠ .out ∧
      (pool.thpWorkers wrk).pc ≠ .creating ∧ (pool.thpWorkers wrk).pc ≠ .exit) (wrk : Nat) :
    (next.thpWorkers wrk).pc = .out ↔ (pool.thpWorkers wrk).pc = .out := by
  by_cases mine : pool.actor act = some wrk
  · obtain ⟨out, creating, exit⟩ := stays wrk mine
    have goes := taken.goes orderly mine
    refine iff_of_false (fun after => ?_) out
    rw [after] at goes
    cases before : (pool.thpWorkers wrk).pc with
    | out => exact out before
    | creating => exact creating before
    | exit => exact exit before
    | failed =>
        rw [before] at goes
        exact goes
    | start | park | wait | taken | running =>
        rw [before] at goes
        cases goes
    | top | look | probe =>
        rw [before] at goes
        rcases goes with goes | goes | goes
        all_goals simp at goes
  · rw [taken.pc_eq mine]

theorem pc_spawnCreate (pool : ThreadPool Req Mod) (req : Req) (wrk : Nat) (created : Bool) :
    (created = true → ((pool.spawnCreate req wrk created).thpWorkers wrk).pc = .start) ∧
      (created = false → ((pool.spawnCreate req wrk created).thpWorkers wrk).pc = .out) := by
  constructor
  · rintro rfl
    exact pc_setWorker pool wrk _
  · rintro rfl
    exact pc_setWorker { pool with thpRunThds := pool.thpRunThds - 1 } wrk _

theorem Counted.step (counted : Counted pool) (orderly : Orderly pool) {act : Act Req Mod}
    (taken : Taken pool act next) : Counted next := by
  have others : ∀ {wrk other : Nat}, pool.actor act = some wrk → other ≠ wrk →
      (next.thpWorkers other).pc = (pool.thpWorkers other).pc := by
    intro wrk other mine apart
    exact taken.pc_eq fun same => apart (Option.some.inj (same.symm.trans mine))
  have stay := taken.pc_out orderly
  by_cases plain : Plain act
  · refine counted.congr (taken.frame plain).thpRunThds (stay fun wrk mine => ?_)
    cases taken with
    | spawnCount | spawnCreate | exit | run | finish => exact plain.elim
    | start here | top here | look here | probe here | park here | wake here =>
        obtain rfl := Option.some.inj mine
        rw [here]
        exact ⟨by simp, by simp, by simp⟩
    | _ => cases mine
  · cases taken with
    | @spawnCount req wrk begun =>
        have mine : pool.actor (.spawnCount req) = some wrk := by
          rw [actor, begun]
        have up : ((pool.spawnCount req wrk).thpWorkers wrk).pc = .creating := pc_setPc _ _ _
        exact counted.add (orderly.spawnCount _ _ begun) (by rw [up]; simp) rfl
          fun other apart => others mine apart
    | @spawnCreate req wrk created begun =>
        have mine : pool.actor (.spawnCreate req created) = some wrk := by
          rw [actor, begun]
        have creating := orderly.spawnCreate _ _ begun
        have apart : ∀ other, other ≠ wrk →
            ((pool.spawnCreate req wrk created).thpWorkers other).pc = (pool.thpWorkers other).pc :=
          fun other apart => others mine apart
        have goes := pc_spawnCreate pool req wrk created
        cases created with
        | true =>
            refine counted.congr rfl fun other => ?_
            by_cases same : other = wrk
            · subst same
              exact iff_of_false (by rw [goes.1 rfl]; simp) (by rw [creating]; simp)
            · rw [apart other same]
        | false => exact counted.remove (by rw [creating]; simp) (goes.2 rfl) rfl apart
    | @exit wrk here =>
        refine counted.remove (by rw [here]; simp) (pc_setPc _ _ _) rfl fun other apart =>
          others rfl apart
    | run here | finish here =>
        refine counted.congr rfl (stay fun other mine => ?_)
        obtain rfl := Option.some.inj mine
        rw [here]
        exact ⟨by simp, by simp, by simp⟩
    | inlineRun | inlineDone | stop | stopWake | stopReturn | stopVerify =>
        exact counted.congr rfl (stay fun _ mine => by cases mine)
    | _ => exact (plain trivial).elim

theorem Counted.all_out (counted : Counted pool) (none : ¬ 0 < pool.thpRunThds) (wrk : Nat) :
    (pool.thpWorkers wrk).pc = .out := by
  obtain ⟨threads, member, card⟩ := counted
  by_contra up
  have some_ := Finset.card_pos.mpr ⟨wrk, (member wrk).mpr up⟩
  omega

/-! ## Executions -/

/-- A request is executed once, before it is finished. -/
structure Executed (pool : ThreadPool Req Mod) : Prop where
  running : ∀ wrk req, (pool.thpWorkers wrk).pc = .running req → pool.execs req ≠ []
  finished : ∀ req, pool.finished req = true → pool.execs req ≠ []
  once : ∀ req, (pool.execs req).length ≤ 1
  only : ∀ req, pool.execs req ≠ [] →
    pool.finished req = true ∨ ∃ wrk, (pool.thpWorkers wrk).pc = .running req

/-- A thread that executes a request, and did not before, begins with it. -/
theorem Taken.running_of {act : Act Req Mod} (taken : Taken pool act next) (orderly : Orderly pool)
    {wrk : Nat} {req : Req} (begins : act ≠ .run wrk)
    (after : (next.thpWorkers wrk).pc = .running req) :
    (pool.thpWorkers wrk).pc = .running req := by
  by_cases mine : pool.actor act = some wrk
  · have goes := taken.goes orderly mine
    rw [after] at goes
    cases before : (pool.thpWorkers wrk).pc with
    | taken other =>
        cases taken with
        | run here => exact (begins (congrArg Act.run (Option.some.inj mine))).elim
        | spawnCount begun =>
            rw [actor, begun] at mine
            obtain rfl := Option.some.inj mine
            cases before.symm.trans (orderly.spawnCount _ _ begun)
        | spawnCreate begun =>
            rw [actor, begun] at mine
            obtain rfl := Option.some.inj mine
            cases before.symm.trans (orderly.spawnCreate _ _ begun)
        | start here | top here | look here | probe here | park here | wake here | finish here
        | exit here =>
            obtain rfl := Option.some.inj mine
            cases before.symm.trans here
        | _ => cases mine
    | failed =>
        rw [before] at goes
        exact goes.elim
    | out | start | park | wait | running | exit =>
        rw [before] at goes
        cases goes
    | creating | top | look | probe =>
        rw [before] at goes
        simp [Goes] at goes
  · rw [← taken.pc_eq mine]
    exact after

/-- A thread that executes a request goes on, or has finished it. -/
theorem Taken.running_kept {act : Act Req Mod} (taken : Taken pool act next)
    (orderly : Orderly pool)
    {wrk : Nat} {req : Req} (before : (pool.thpWorkers wrk).pc = .running req) :
    (next.thpWorkers wrk).pc = .running req ∨ next.finished req = true := by
  by_cases mine : pool.actor act = some wrk
  · cases taken with
    | finish here =>
        obtain rfl := Option.some.inj mine
        obtain rfl := WorkerPc.running.inj (here.symm.trans before)
        exact .inr (update_self _ _ _)
    | spawnCount begun =>
        rw [actor, begun] at mine
        obtain rfl := Option.some.inj mine
        cases before.symm.trans (orderly.spawnCount _ _ begun)
    | spawnCreate begun =>
        rw [actor, begun] at mine
        obtain rfl := Option.some.inj mine
        cases before.symm.trans (orderly.spawnCreate _ _ begun)
    | start here | top here | look here | probe here | park here | wake here | run here | exit here =>
        obtain rfl := Option.some.inj mine
        cases before.symm.trans here
    | _ => cases mine
  · exact .inl ((taken.pc_eq mine).trans before)

/-- What is finished was, or was executed. -/
theorem Taken.finished_of {act : Act Req Mod} (taken : Taken pool act next) {req : Req}
    (after : next.finished req = true) : pool.finished req = true ∨ pool.Executing req := by
  have done : ∀ other, update pool.finished other true req = true → pool.Executing other →
      pool.finished req = true ∨ pool.Executing req := by
    intro other after executing
    by_cases same : req = other
    · exact .inr (same ▸ executing)
    · rw [update_of_ne same] at after
      exact .inl after
  by_cases plain : Plain act
  · rw [(taken.frame plain).finished] at after
    exact .inl after
  · cases taken with
    | finish here => exact done _ after (.inl ⟨_, here⟩)
    | inlineDone begun => exact done _ after (.inr begun)
    | spawnCreate =>
        unfold ThreadPool.spawnCreate at after
        dsimp only at after
        split at after
        · exact .inl after
        · exact .inl after
    | spawnCount | exit | run | inlineRun | stop | stopWake | stopReturn | stopVerify =>
        exact .inl after
    | _ => exact (plain trivial).elim

/-- A request that a worker has taken is not executed yet. -/
theorem Executed.taken_fresh (executed : Executed pool) (conserved : Conserved pool) {wrk : Nat}
    {req : Req} (here : (pool.thpWorkers wrk).pc = .taken req) : pool.execs req = [] := by
  have ledger := conserved.books.ledger
  have inHand : req ∈ pool.contents (.hand wrk) := by
    change req ∈ held (pool.thpWorkers wrk).pc
    rw [here]
    exact List.mem_cons_self
  by_contra some_
  rcases executed.only req some_ with finished | ⟨other, running⟩
  · exact absurd (((ledger.somewhere_iff req).mp ⟨_, inHand⟩).2.symm.trans finished) Bool.false_ne_true
  · have there : req ∈ pool.contents (.hand other) := by
      change req ∈ held (pool.thpWorkers other).pc
      rw [running]
      exact List.mem_cons_self
    cases ledger.exclusive.unique inHand there
    cases here.symm.trans running

/-- A step that begins no execution. -/
theorem Executed.keep (executed : Executed pool) (orderly : Orderly pool) {act : Act Req Mod}
    (taken : Taken pool act next) (begins : ∀ wrk, act ≠ .run wrk)
    (inline : ∀ req, act ≠ .inlineRun req)
    (finishes : ∀ req, pool.finished req = true → next.finished req = true) : Executed next := by
  have execs := taken.execs_eq begins inline
  refine ⟨?_, ?_, ?_, ?_⟩
  · intro wrk req after
    rw [execs]
    exact executed.running wrk req (taken.running_of orderly (begins wrk) after)
  · intro req after
    rw [execs]
    rcases taken.finished_of after with before | ⟨wrk, running⟩ | inline
    · exact executed.finished req before
    · exact executed.running wrk req running
    · exact (orderly.running req inline).elim
  · intro req
    rw [execs]
    exact executed.once req
  · intro req some_
    rw [execs] at some_
    rcases executed.only req some_ with finished | ⟨wrk, running⟩
    · exact .inl (finishes req finished)
    · rcases taken.running_kept orderly running with still | finished
      · exact .inr ⟨wrk, still⟩
      · exact .inl finished

theorem Taken.finishes {act : Act Req Mod} (taken : Taken pool act next) (req : Req)
    (finished : pool.finished req = true) : next.finished req = true := by
  by_cases moves : Moves act
  · have plain : Plain act := by
      cases act with
      | schedule | scheduleBarrier | retry | look => trivial
      | _ => exact moves.elim
    rw [(taken.frame plain).finished]
    exact finished
  · exact (taken.stays moves).finished req finished

/-- A worker begins to execute the request it has taken. -/
theorem Executed.run (executed : Executed pool) (conserved : Conserved pool) {wrk : Nat} {req : Req}
    (here : (pool.thpWorkers wrk).pc = .taken req) :
    Executed ((pool.execTask req).setPc wrk (.running req)) := by
  have fresh := executed.taken_fresh conserved here
  have own : ∀ {other : Req}, other ≠ req →
      update pool.execs req (pool.execs req ++ [(pool.request req).rqMod]) other =
        pool.execs other := fun apart => update_of_ne apart _ _
  have mine : update pool.execs req (pool.execs req ++ [(pool.request req).rqMod]) req =
      [(pool.request req).rqMod] := by
    rw [update_self, fresh]
    rfl
  have pc : ∀ other, other ≠ wrk →
      (((pool.execTask req).setPc wrk (.running req)).thpWorkers other).pc =
        (pool.thpWorkers other).pc := by
    intro other apart
    simp only [setPc, setWorker, update_of_ne apart]
    rfl
  have self := pc_setPc (pool.execTask req) wrk (.running req)
  refine ⟨?_, ?_, ?_, ?_⟩
  · intro other rq after
    change update pool.execs req (pool.execs req ++ [(pool.request req).rqMod]) rq ≠ []
    by_cases same : rq = req
    · rw [same, mine]
      exact List.cons_ne_nil _ _
    · rw [own same]
      have apart : other ≠ wrk := by
        rintro rfl
        exact same (WorkerPc.running.inj (after.symm.trans self))
      rw [pc other apart] at after
      exact executed.running other rq after
  · intro rq finished
    change update pool.execs req (pool.execs req ++ [(pool.request req).rqMod]) rq ≠ []
    by_cases same : rq = req
    · rw [same, mine]
      exact List.cons_ne_nil _ _
    · rw [own same]
      exact executed.finished rq finished
  · intro rq
    change (update pool.execs req (pool.execs req ++ [(pool.request req).rqMod]) rq).length ≤ 1
    by_cases same : rq = req
    · rw [same, mine]
      exact Nat.le_refl 1
    · rw [own same]
      exact executed.once rq
  · intro rq some_
    change update pool.execs req
      (pool.execs req ++ [(pool.request req).rqMod]) rq ≠ [] at some_
    by_cases same : rq = req
    · exact .inr ⟨wrk, same ▸ self⟩
    · rw [own same] at some_
      rcases executed.only rq some_ with finished | ⟨other, running⟩
      · exact .inl finished
      · have apart : other ≠ wrk := by
          rintro rfl
          cases here.symm.trans running
        exact .inr ⟨other, (pc other apart).trans running⟩

theorem Executed.step (executed : Executed pool) (conserved : Conserved pool) (crew : InCrew pool)
    {act : Act Req Mod} (taken : Taken pool act next) : Executed next := by
  by_cases begins : ∃ wrk, act = .run wrk
  · obtain ⟨wrk, rfl⟩ := begins
    cases taken with
    | run here => exact executed.run conserved here
  · by_cases inline : ∃ req, act = .inlineRun req
    · obtain ⟨req, rfl⟩ := inline
      cases taken with
      | inlineRun begun =>
          have fits := crew.fits req
          rw [begun] at fits
          exact fits.elim
    · exact executed.keep crew.orderly taken (fun wrk same => begins ⟨wrk, same⟩)
        (fun req same => inline ⟨req, same⟩) taken.finishes

/-! ## Behind the stop -/

/-- No worker leaves the state `terminate`. -/
def Lasting (pool next : ThreadPool Req Mod) : Prop :=
  ∀ wrk, (pool.thpWorkers wrk).wrkState = .terminate → (next.thpWorkers wrk).wrkState = .terminate

theorem Lasting.trans {after : ThreadPool Req Mod} (first : Lasting pool next)
    (second : Lasting next after) :
    Lasting pool after := fun wrk terminated => second wrk (first wrk terminated)

private theorem lasting_setWorker (pool : ThreadPool Req Mod) (wrk : Nat) {after : WorkerThread Req}
    (same : (pool.thpWorkers wrk).wrkState = .terminate → after.wrkState = .terminate) :
    Lasting pool (pool.setWorker wrk after) := by
  intro other terminated
  by_cases here : other = wrk
  · subst here
    simp only [setWorker, update_self]
    exact same terminated
  · simp only [setWorker, update_of_ne here]
    exact terminated

private theorem lasting_setPc (pool : ThreadPool Req Mod) (wrk : Nat) (pc : WorkerPc Req) :
    Lasting pool (pool.setPc wrk pc) := lasting_setWorker pool wrk id

private theorem lasting_thpSwapQueue (pool : ThreadPool Req Mod) (wrk : Nat) (qno : Thrq) :
    Lasting pool (pool.thpSwapQueue wrk qno) := by
  have updated : Lasting pool (pool.setWorker wrk (workerUpdateState (pool.thpWorkers wrk) qno)) := by
    refine lasting_setWorker pool wrk fun terminated => ?_
    rw [workerUpdateState, if_neg fun serves => serves terminated]
    exact terminated
  exact updated

private theorem lasting_signal (pool : ThreadPool Req Mod) (wrk : Nat) (req : Req) :
    Lasting pool (pool.signal wrk req) := by
  unfold ThreadPool.signal
  dsimp only
  split
  · exact lasting_setWorker pool wrk id
  · exact fun _ => id

private theorem lasting_wakeIdle (pool : ThreadPool Req Mod) (rq : Req) :
    Lasting pool (pool.wakeIdle rq) := by
  unfold ThreadPool.wakeIdle
  split
  · exact fun _ => id
  · rename_i wrk rest dequeued
    obtain ⟨list, -, rfl⟩ := thpDequeue_eq dequeued
    have dequeued : Lasting pool
        { pool with thpQueue := update pool.thpQueue .idleThr list } := fun _ => id
    exact (dequeued.trans (lasting_thpSwapQueue _ wrk .fastThr)).trans (lasting_signal _ wrk rq)

private theorem lasting_getReqOrPutIdle (pool : ThreadPool Req Mod) (wrk : Nat) :
    Lasting pool (pool.getReqOrPutIdle wrk) := by
  have looking : Lasting pool (pool.looking wrk) := lasting_setWorker pool wrk id
  rcases getReqOrPutIdle_cases pool wrk with ⟨qno, thr, req, list, -, -, same⟩ |
    ⟨-, -, ⟨-, same⟩ | ⟨-, same⟩⟩
  · have dequeued : Lasting pool { pool.looking wrk with mQueue := update pool.mQueue qno list } :=
      looking
    rw [same]
    exact (dequeued.trans (lasting_thpSwapQueue _ wrk thr)).trans (lasting_setPc _ wrk _)
  · rw [same]
    exact (looking.trans (lasting_thpSwapQueue _ wrk .idleThr)).trans (lasting_setPc _ wrk _)
  · rw [same]
    cases taken : (pool.looking wrk).takeBarrier wrk with
    | none => exact looking.trans (lasting_setPc _ wrk _)
    | some after =>
        obtain ⟨req, list, promoted, -, promotion, rfl⟩ := takeBarrier_eq taken
        have before : Lasting pool ((pool.looking wrk).undeferred list) := looking
        have turn : ∀ (turn : ThreadPool Req Mod) (rq : Req) (list : List Req), Lasting pool turn →
            Lasting pool ((turn.resumed rq list).wakeIdle rq) := by
          intro turn rq list held
          have resumed : Lasting pool (turn.resumed rq list) := held
          exact resumed.trans (lasting_wakeIdle _ rq)
        have promoted : Lasting pool promoted := promoted_of_turns (Lasting pool)
          (fun before rq list held _ _ => turn before rq list held) before promotion
        exact promoted.trans (lasting_setPc _ wrk _)

/-- Behind the stop no submission is on its way and every worker is to terminate. -/
structure Halting (pool : ThreadPool Req Mod) : Prop where
  stopped : pool.stop ≠ .before → pool.thpShutdown = true
  settled : pool.thpShutdown = true → ∀ req, Settled (pool.submit req)
  terminated : pool.thpShutdown = true → ∀ wrk, wrk < pool.thpMax →
    (pool.thpWorkers wrk).wrkState = .terminate

theorem Taken.stop_eq {act : Act Req Mod} (taken : Taken pool act next) (stop : act ≠ .stop)
    (wake : act ≠ .stopWake) (verify : act ≠ .stopVerify) : next.stop = pool.stop := by
  by_cases plain : Plain act
  · exact (taken.frame plain).stop
  · cases taken with
    | spawnCreate =>
        unfold ThreadPool.spawnCreate
        dsimp only
        split
        · rfl
        · rfl
    | spawnCount | exit | run | finish | inlineRun | inlineDone => rfl
    | stop => exact (stop rfl).elim
    | stopWake => exact (wake rfl).elim
    | stopReturn => exact (verify rfl).elim
    | stopVerify => exact (verify rfl).elim
    | _ => exact (plain trivial).elim

theorem Taken.thpMax_eq {act : Act Req Mod} (taken : Taken pool act next) :
    next.thpMax = pool.thpMax := by
  by_cases moves : Moves act
  · cases taken with
    | schedule begun => exact (entered_schedule _ _ _ _).thpMax
    | retry begun => exact (entered_schedule _ _ _ _).thpMax
    | scheduleBarrier =>
        unfold ThreadPool.scheduleBarrier
        dsimp only
        split
        · rfl
        · rfl
    | @look wrk => rw [served_getReqOrPutIdle pool wrk]
    | _ => exact moves.elim
  · exact (taken.stays moves).thpMax

private theorem settled_update {submit : Req → Submit Mod} (settled : ∀ req, Settled (submit req))
    (req : Req)
    {after : Submit Mod} (here : Settled after) :
    ∀ other, Settled (update submit req after other) := by
  intro other
  by_cases same : other = req
  · subst same
    rw [update_self]
    exact here
  · rw [update_of_ne same]
    exact settled other

/-- Once the pool is shut down, every step keeps it so. -/
theorem Halting.shut (halting : Halting pool) (shut : pool.thpShutdown = true) {act : Act Req Mod}
    (quiet : Quiet pool act) (taken : Taken pool act next) :
    (∀ req, Settled (next.submit req)) ∧ (act ≠ .stop → Lasting pool next) := by
  have settled := halting.settled shut
  have away : ∀ {req : Req} {at_ : Submit Mod}, pool.submit req = at_ → Settled at_ :=
    fun begun => begun ▸ settled _
  cases taken with
  | @schedule mod req qno begun =>
      rw [schedule_deferred mod req qno (quiet shut)]
      exact ⟨settled_update settled req trivial, fun _ _ => id⟩
  | @retry mod req qno begun =>
      rw [schedule_deferred mod req qno (quiet shut)]
      exact ⟨settled_update settled req trivial, fun _ _ => id⟩
  | @scheduleBarrier mod req qno begun =>
      unfold ThreadPool.scheduleBarrier
      dsimp only
      split
      · exact ⟨settled_update settled req trivial, fun _ _ => id⟩
      · exact ⟨settled_update settled req trivial, fun _ _ => id⟩
  | enqueue begun => exact (away begun).elim
  | leaveDorman begun => exact (away begun).elim
  | spawn begun => exact (away begun).elim
  | spawnCount begun => exact (away begun).elim
  | inlineRun begun => exact (away begun).elim
  | inlineDone begun => exact (away begun).elim
  | @spawnCreate req wrk created begun =>
      unfold ThreadPool.spawnCreate
      dsimp only
      split
      · exact ⟨settled_update settled req trivial,
          fun _ => lasting_setWorker pool wrk id⟩
      · exact ⟨settled_update settled req trivial,
          fun _ => lasting_setWorker pool wrk id⟩
  | @spawnFailed req wrk begun =>
      exact ⟨settled_update settled req trivial,
        fun _ => lasting_thpSwapQueue pool wrk .dormanThr⟩
  | @start wrk here =>
      exact ⟨settled, fun _ => (lasting_thpSwapQueue pool wrk .fastThr).trans (lasting_setPc _ wrk _)⟩
  | @top wrk here =>
      unfold loopTop
      dsimp only
      split
      · exact ⟨settled, fun _ => lasting_setWorker pool wrk id⟩
      · split
        · exact ⟨settled, fun _ => lasting_setPc pool wrk _⟩
        · exact ⟨settled, fun _ => lasting_setWorker pool wrk id⟩
  | @look wrk here =>
      refine ⟨?_, fun _ => lasting_getReqOrPutIdle pool wrk⟩
      rw [served_getReqOrPutIdle pool wrk]
      exact settled
  | @probe wrk here =>
      unfold loopProbe
      split
      · exact ⟨settled, fun _ => lasting_setWorker pool wrk id⟩
      · split
        · exact ⟨settled, fun _ => lasting_setPc pool wrk _⟩
        · exact ⟨settled, fun _ => lasting_setPc pool wrk _⟩
  | @park wrk here => exact ⟨settled, fun _ => lasting_setPc pool wrk _⟩
  | @wake wrk here => exact ⟨settled, fun _ => lasting_setPc pool wrk _⟩
  | @run wrk req here => exact ⟨settled, fun _ => lasting_setPc (pool.execTask req) wrk _⟩
  | @finish wrk req chained here =>
      exact ⟨settled, fun _ => lasting_setPc { pool.execDone req chained with thpSchedReq := _ } wrk _⟩
  | @exit wrk here =>
      exact ⟨settled, fun _ => (lasting_thpSwapQueue { pool with thpRunThds := _ } wrk .dormanThr).trans
        (lasting_setPc _ wrk _)⟩
  | stop begun => exact ⟨settled, fun other => (other rfl).elim⟩
  | stopWake begun done => exact ⟨settled, fun _ _ => id⟩
  | stopReturn begun => exact ⟨settled, fun _ _ => id⟩
  | stopVerify begun => exact ⟨settled, fun _ _ => id⟩

theorem Halting.step (halting : Halting pool) {act : Act Req Mod} (quiet : Quiet pool act)
    (taken : Taken pool act next) : Halting next := by
  by_cases stops : act = .stop
  · subst stops
    cases taken with
    | stop begun =>
        refine ⟨fun _ => rfl, fun _ => quiet, fun _ wrk inside => ?_⟩
        change (if wrk < pool.thpMax then _ else _ : WorkerThread Req).wrkState = _
        rw [if_pos (show wrk < pool.thpMax from inside)]
  · have same := taken.thpShutdown_eq stops
    refine ⟨?_, ?_, ?_⟩
    · intro begun
      rw [same]
      refine halting.stopped fun before => begun ?_
      by_cases wake : act = .stopWake
      · subst wake
        cases taken with
        | stopWake waits done => cases before.symm.trans waits
      · by_cases verify : act = .stopVerify
        · subst verify
          cases taken with
          | stopReturn verifies => cases before.symm.trans verifies
          | stopVerify verifies => cases before.symm.trans verifies
        · exact (taken.stop_eq stops wake verify).trans before
    · intro shut
      exact (halting.shut (same ▸ shut) quiet taken).1
    · intro shut wrk inside
      rw [same] at shut
      rw [taken.thpMax_eq] at inside
      exact (halting.shut shut quiet taken).2 stops wrk (halting.terminated shut wrk inside)

/-! ## What was verified -/

private theorem stopChecks_concat (pool : ThreadPool Req Mod) : pool.stopChecks =
    (StopCheck.runThds :: (List.range pool.thpMax).map StopCheck.worker ++
      [StopCheck.queue .fastQueue, .queue .slowQueue, .queue .timeWait, .queue .suspend]) ++
        [StopCheck.queue .barrier] := by
  simp [stopChecks]

theorem stopChecks_eq (same : next.thpMax = pool.thpMax) : next.stopChecks = pool.stopChecks := by
  unfold stopChecks
  rw [same]

private theorem mem_stopChecks_queue (pool : ThreadPool Req Mod) (qno : Reqq) :
    .queue qno ∈ pool.stopChecks := by
  cases qno with
  | fastQueue | slowQueue | timeWait | suspend | barrier => simp [stopChecks]

private theorem mem_stopChecks_worker {wrk : Nat} (inside : wrk < pool.thpMax) :
    .worker wrk ∈ pool.stopChecks := by
  simp [stopChecks, inside]

/-- All threads have ended, and what is not to be verified any more passes. -/
structure Vetting (pool : ThreadPool Req Mod) (rest : List StopCheck) : Prop where
  out : ∀ wrk, (pool.thpWorkers wrk).pc = .out
  order : rest <:+ pool.stopChecks
  passed : ∀ check ∈ pool.stopChecks, check ∈ rest ∨ pool.Passes check

def Vetted (pool : ThreadPool Req Mod) : Prop :=
  match pool.stop with
  | .verifying rest => Vetting pool rest
  | .returned => ∀ req ∈ pool.accepted, pool.finished req = true
  | _ => True

/-- The barrier queue is verified last. -/
theorem Vetting.barrier_last {rest : List StopCheck} (vetting : Vetting pool rest) :
    rest = [] ∨ .queue .barrier ∈ rest := by
  have order := vetting.order
  rw [stopChecks_concat] at order
  rcases List.suffix_concat_iff.mp order with none | ⟨before, same, -⟩
  · exact .inl none
  · exact .inr (same ▸ List.mem_append_right _ List.mem_cons_self)

/-- When everything passed, no request is left. -/
theorem Vetting.all_finished (vetting : Vetting pool []) (conserved : Conserved pool)
    (within : IsWithin pool) (settled : ∀ req, Settled (pool.submit req)) :
    ∀ req ∈ pool.accepted, pool.finished req = true := by
  have passed : ∀ check ∈ pool.stopChecks, pool.Passes check := fun check inside =>
    (vetting.passed check inside).resolve_left List.not_mem_nil
  have empty : ∀ place, pool.contents place = [] := by
    intro place
    cases place with
    | queue qno => exact passed _ (mem_stopChecks_queue pool qno)
    | worker wrk =>
        by_contra some_
        exact some_ (passed _ (mem_stopChecks_worker (within.queued wrk some_))).2
    | hand wrk =>
        change held (pool.thpWorkers wrk).pc = []
        rw [vetting.out wrk]
        rfl
    | submitter req =>
        have away := settled req
        change kept req (pool.submit req) = []
        cases begun : pool.submit req with
        | hand | inline | inlineRunning =>
            rw [begun] at away
            exact away.elim
        | _ => rfl
  intro req accepted
  by_contra unfinished
  obtain ⟨place, here⟩ := (conserved.books.ledger.somewhere_iff req).mpr
    ⟨accepted, Bool.not_eq_true _ ▸ unfinished⟩
  rw [empty place] at here
  exact List.not_mem_nil here

/-- Once everything accepted has finished, the counters are 0. -/
theorem Conserved.counters (conserved : Conserved pool)
    (done : ∀ req ∈ pool.accepted, pool.finished req = true) :
    pool.thpSchedReq = 0 ∧ pool.thpBarrierCnt = 0 := by
  have books := conserved.books
  have none : pending pool.accepted pool.finished = [] := by
    refine List.filter_eq_nil_iff.mpr fun req accepted => ?_
    rw [done req accepted]
    exact Bool.false_ne_true
  have total := books.sched_eq
  have outside := books.sched_eq_outside
  rw [none] at total outside
  have barrier := books.barrier_eq
  simp only [List.filter_nil, List.length_nil] at outside total
  omega

/-- A step that keeps the threads, the queues and the states keeps what was verified. -/
theorem Vetting.keep {rest : List StopCheck} (vetting : Vetting pool rest)
    (out : ∀ wrk, (next.thpWorkers wrk).pc = (pool.thpWorkers wrk).pc)
    (thpMax : next.thpMax = pool.thpMax) (runThds : next.thpRunThds = pool.thpRunThds)
    (lasting : Lasting pool next)
    (workers : ∀ wrk, (next.thpWorkers wrk).wrkQueue = (pool.thpWorkers wrk).wrkQueue)
    (queues : ∀ qno, qno ≠ .barrier → next.mQueue qno = pool.mQueue qno)
    (barrier : rest = [] → next.mQueue .barrier = pool.mQueue .barrier) : Vetting next rest where
  out := fun wrk => (out wrk).trans (vetting.out wrk)
  order := by
    rw [stopChecks_eq thpMax]
    exact vetting.order
  passed := by
    intro check inside
    rw [stopChecks_eq thpMax] at inside
    rcases vetting.passed check inside with later | passes
    · exact .inl later
    · cases check with
      | runThds => exact .inr (runThds.trans passes)
      | worker wrk => exact .inr ⟨lasting wrk passes.1, (workers wrk).trans passes.2⟩
      | queue qno =>
          by_cases last : qno = .barrier
          · subst last
            rcases vetting.barrier_last with none | later
            · exact .inr ((barrier none).trans passes)
            · exact .inl later
          · exact .inr ((queues qno last).trans passes)

/-- What a quiet run keeps. -/
structure Disciplined (pool : ThreadPool Req Mod) : Prop where
  conserved : Conserved pool
  crew : InCrew pool
  within : IsWithin pool
  counted : Counted pool
  executed : Executed pool
  halting : Halting pool
  vetted : Vetted pool

/-- Behind the shutdown a request is deferred, if it is accepted at all. -/
theorem Vetting.schedule {rest : List StopCheck} (vetting : Vetting pool rest)
    (disciplined : Disciplined pool) (settled : ∀ req, Settled (pool.submit req))
    (deferred : 0 < pool.thpBarrierCnt) (mod : Option Mod) (req : Req) (qno : Reqq) :
    Vetting (pool.schedule mod req qno) rest := by
  rw [schedule_deferred mod req qno deferred]
  refine vetting.keep (fun _ => rfl) rfl rfl (fun _ => id) (fun _ => rfl) ?_ ?_
  · exact fun qno apart => update_of_ne apart _ pool.mQueue
  · rintro rfl
    have none := (disciplined.conserved.counters
      (vetting.all_finished disciplined.conserved disciplined.within settled)).2
    omega

theorem Vetting.step {rest : List StopCheck} (vetting : Vetting pool rest)
    (disciplined : Disciplined pool) (shut : pool.thpShutdown = true) {act : Act Req Mod}
    (quiet : Quiet pool act) (verify : act ≠ .stopVerify) (begun : pool.stop = .verifying rest)
    (taken : Taken pool act next) : Vetting next rest := by
  have settled := disciplined.halting.settled shut
  have orderly := disciplined.crew.orderly
  have away : ∀ {req : Req} {at_ : Submit Mod}, pool.submit req = at_ → Settled at_ :=
    fun begun => begun ▸ settled _
  have nobody : ∀ {wrk : Nat} {pc : WorkerPc Req}, (pool.thpWorkers wrk).pc = pc → pc = .out :=
    fun here => here.symm.trans (vetting.out _)
  cases taken with
  | schedule begun => exact vetting.schedule disciplined settled (quiet shut) _ _ _
  | retry begun => exact vetting.schedule disciplined settled (quiet shut) _ _ _
  | @scheduleBarrier mod req qno begun =>
      unfold ThreadPool.scheduleBarrier
      dsimp only
      split
      · refine vetting.keep (fun _ => rfl) rfl rfl (fun _ => id) (fun _ => rfl) ?_ ?_
        · exact fun qno apart => update_of_ne apart _ pool.mQueue
        · rintro rfl
          have none := (disciplined.conserved.counters
            (vetting.all_finished disciplined.conserved disciplined.within settled)).1
          omega
      · exact vetting.keep (fun _ => rfl) rfl rfl (fun _ => id) (fun _ => rfl)
          (fun _ _ => rfl) fun _ => rfl
  | enqueue begun => exact (away begun).elim
  | leaveDorman begun => exact (away begun).elim
  | spawn begun => exact (away begun).elim
  | spawnCount begun => exact (away begun).elim
  | inlineRun begun => exact (away begun).elim
  | inlineDone begun => exact (away begun).elim
  | spawnCreate begun => cases nobody (orderly.spawnCreate _ _ begun)
  | @spawnFailed req wrk begun =>
      have relisted := Relisted.thpSwapQueue pool wrk .dormanThr
      exact vetting.keep relisted.pc rfl rfl
        (lasting_thpSwapQueue pool wrk .dormanThr) relisted.wrkQueue
        (fun _ _ => rfl) fun _ => rfl
  | start here | top here | look here | probe here | park here | wake here | run here | finish here
  | exit here => cases nobody here
  | stop before => cases before.symm.trans begun
  | stopWake waits => cases waits.symm.trans begun
  | stopReturn => exact (verify rfl).elim
  | stopVerify => exact (verify rfl).elim

/-- Behind the return of `thp_stop` no request is accepted. -/
theorem Disciplined.accepts_none (disciplined : Disciplined pool) (shut : pool.thpShutdown = true)
    (done : ∀ req ∈ pool.accepted, pool.finished req = true) {act : Act Req Mod}
    (quiet : Quiet pool act) (taken : Taken pool act next) : next.accepted = pool.accepted := by
  obtain ⟨sched, barrierCnt⟩ := disciplined.conserved.counters done
  by_cases moves : Moves act
  · cases taken with
    | schedule begun =>
        have deferred : 0 < pool.thpBarrierCnt := quiet shut
        omega
    | retry begun =>
        have deferred : 0 < pool.thpBarrierCnt := quiet shut
        omega
    | scheduleBarrier =>
        unfold ThreadPool.scheduleBarrier
        dsimp only
        rw [if_neg (by omega)]
        rfl
    | @look wrk => rw [served_getReqOrPutIdle pool wrk]
    | _ => exact moves.elim
  · exact (taken.stays moves).accepted

private theorem Disciplined.vetted_step (disciplined : Disciplined pool) {act : Act Req Mod}
    (quiet : Quiet pool act) (taken : Taken pool act next) : Vetted next := by
  have vetted := disciplined.vetted
  by_cases stops : act = .stop
  · subst stops
    cases taken with
    | stop begun => trivial
  by_cases wake : act = .stopWake
  · subst wake
    cases taken with
    | stopWake begun done =>
        exact ⟨disciplined.counted.all_out done, List.suffix_refl _, fun check inside => .inl inside⟩
  by_cases verify : act = .stopVerify
  · subst verify
    cases taken with
    | stopReturn begun =>
        unfold Vetted at vetted
        rw [begun] at vetted
        have shut := disciplined.halting.stopped (by rw [begun]; nofun)
        have vetting : Vetting pool [] := vetted
        exact vetting.all_finished disciplined.conserved disciplined.within
          (disciplined.halting.settled shut)
    | @stopVerify check rest begun =>
        unfold Vetted at vetted ⊢
        rw [begun] at vetted
        dsimp only
        by_cases passes : pool.Passes check
        · rw [if_pos passes]
          refine ⟨vetted.out, (List.suffix_cons _ _).trans vetted.order, fun other inside => ?_⟩
          rcases vetted.passed other inside with queued | passed
          · rcases List.mem_cons.mp queued with rfl | later
            · exact .inr passes
            · exact .inl later
          · exact .inr passed
        · rw [if_neg passes]
          trivial
  have same := taken.stop_eq stops wake verify
  unfold Vetted at vetted ⊢
  rw [same]
  cases begun : pool.stop with
  | verifying rest =>
      rw [begun] at vetted
      have shut := disciplined.halting.stopped (by rw [begun]; nofun)
      exact Vetting.step vetted disciplined shut quiet verify begun taken
  | returned =>
      rw [begun] at vetted
      have shut := disciplined.halting.stopped (by rw [begun]; nofun)
      dsimp only
      rw [disciplined.accepts_none shut vetted quiet taken]
      exact fun req accepted => taken.finishes req (vetted req accepted)
  | before | waiting | failed => trivial

/-! ## Runs -/

theorem Disciplined.step (disciplined : Disciplined pool) {act : Act Req Mod}
    (quiet : Quiet pool act)
    (taken : Taken pool act next) : Disciplined next := by
  have orderly := disciplined.crew.orderly
  exact ⟨disciplined.conserved.step orderly taken, disciplined.crew.step quiet taken,
    disciplined.within.step taken, disciplined.counted.step orderly taken,
    disciplined.executed.step disciplined.conserved disciplined.crew taken,
    disciplined.halting.step quiet taken, disciplined.vetted_step quiet taken⟩

private theorem preserves_disciplined : (machine Req Mod).Preserves Quiet Disciplined := by
  intro pool act next output disciplined quiet stepped
  exact disciplined.step quiet (taken_of_machine stepped)

theorem Initial.disciplined (initial : Initial pool) : Disciplined pool := by
  have conserved := initial.conserved
  have crew := initial.crew
  obtain ⟨thpMin, thpMax, created, request, positive, below, rfl⟩ := initial
  have spawned : ∀ wrk, ((modInit thpMin thpMax created request).thpWorkers wrk).pc ≠ .out ↔
      wrk < thpMin ∧ created wrk = true := by
    intro wrk
    by_cases made : wrk < thpMin ∧ created wrk = true
    · refine iff_of_true ?_ made
      simp only [modInit, if_pos made]
      simp
    · refine iff_of_false (fun up => up ?_) made
      simp only [modInit, if_neg made]
  refine ⟨conserved, crew, ⟨?_, ?_, ?_, by simp [modInit, assigned, berth]⟩,
    ⟨((List.range thpMin).filter created).toFinset, ?_, ?_⟩,
    ⟨?_, by simp [modInit], fun _ => Nat.zero_le 1, fun _ some_ => (some_ rfl).elim⟩,
    ⟨fun begun => (begun rfl).elim, by simp [modInit], by simp [modInit]⟩, trivial⟩
  · intro qno wrk listed
    by_cases dormant : qno = .dormanThr
    · simp only [modInit, if_pos dormant] at listed
      rcases List.mem_append.mp listed with above | failed
      · have range := List.mem_range'_1.mp above
        change wrk < thpMax
        omega
      · have inside := List.mem_range.mp (List.mem_filter.mp failed).1
        change wrk < thpMax
        omega
    · simp only [modInit, if_neg dormant] at listed
      exact (List.not_mem_nil listed).elim
  · intro wrk up
    exact Nat.lt_of_lt_of_le ((spawned wrk).mp up).1 below
  · intro wrk some_
    exact (some_ (congrFun (contents_modInit thpMin thpMax created request) (.worker wrk))).elim
  · intro wrk
    rw [spawned wrk, List.mem_toFinset, List.mem_filter, List.mem_range]
  · rw [List.toFinset_card_of_nodup (List.nodup_range.filter _)]
    rfl
  · intro wrk req running
    have up := (spawned wrk).mp (by rw [running]; simp)
    simp only [modInit, if_pos up] at running
    cases running

/-- What the pool promises of its requests around `thp_stop`. -/
structure StopsWell (pool : ThreadPool Req Mod) : Prop where
  unlinked : ∀ req, pool.Executing req → ¬ pool.Queued req
  once : ∀ req, (pool.execs req).length ≤ 1
  executed : pool.stop = .returned → ∀ req ∈ pool.accepted,
    pool.execs req ≠ [] ∧ pool.finished req = true
  drained : (∀ req ∈ pool.accepted, pool.finished req = true) → pool.thpSchedReq = 0

/-- **A pool that is stopped while no submission is on its way stops well.** -/
theorem stopsWell_of_reached (reached : (machine Req Mod).Reached Initial Quiet pool) :
    StopsWell pool := by
  have disciplined := preserves_disciplined.reached (fun _ => Initial.disciplined) reached
  have ledger := disciplined.conserved.books.ledger
  refine ⟨?_, disciplined.executed.once, ?_, fun done => (disciplined.conserved.counters done).1⟩
  · rintro req (⟨wrk, running⟩ | inline) queued
    · have inHand : req ∈ pool.contents (.hand wrk) := by
        change req ∈ held (pool.thpWorkers wrk).pc
        rw [running]
        exact List.mem_cons_self
      rcases queued with ⟨qno, inside⟩ | ⟨other, inside⟩
      · have there : req ∈ pool.contents (.queue qno) := inside
        cases ledger.exclusive.unique inHand there
      · have there : req ∈ pool.contents (.worker other) := inside
        cases ledger.exclusive.unique inHand there
    · exact disciplined.crew.orderly.running req inline
  · intro returned req accepted
    have vetted := disciplined.vetted
    unfold Vetted at vetted
    rw [returned] at vetted
    exact ⟨disciplined.executed.finished req (vetted req accepted), vetted req accepted⟩

section Stops

instance (at_ : Submit Mod) : Decidable (Settled at_) := by
  unfold Settled
  split
  all_goals infer_instance

instance {n : Nat} (pool : ThreadPool (Fin n) Mod) : DecidablePred pool.Quiet := fun act => by
  unfold Quiet
  split
  all_goals infer_instance

/-- One of the two workers has its thread. -/
def spareWorker : ThreadPool (Fin 1) Unit :=
  modInit 1 2 (fun _ => true) fun _ => ⟨none, Request.waiting⟩

theorem initial_spareWorker : Initial spareWorker := ⟨1, 2, _, _, Nat.one_pos, by decide, rfl⟩

/-- The stop comes when the request is with its worker. -/
def stopBehind : List (Act (Fin 1) Unit) :=
  [.start 0, .schedule (some ()) 0 .fastQueue, .enqueue 0, .stop, .top 0, .run 0, .finish 0 false, .top 0,
    .exit 0, .stopWake, .stopVerify, .stopVerify, .stopVerify, .stopVerify,
      .stopVerify, .stopVerify,
    .stopVerify, .stopVerify, .stopVerify]

theorem stopsWell_of_reached_stopBehind :
    StopsWell ((machine (Fin 1) Unit).final spareWorker stopBehind (by decide +kernel)) := by
  have quiet : (machine (Fin 1) Unit).Meets Quiet spareWorker stopBehind := by decide +kernel
  exact stopsWell_of_reached (Machine.reached_final initial_spareWorker quiet _)

/-- The stop comes when the request is queued and its submitter has a dormant worker. -/
def stopBetween : List (Act (Fin 1) Unit) :=
  [.schedule (some ()) 0 .fastQueue, .stop, .leaveDorman 0, .inlineRun 0, .inlineDone 0 false, .start 0,
    .top 0, .look 0, .run 0]

theorem stopBetween_runs : ((machine (Fin 1) Unit).run spareWorker stopBetween).isSome = true := by
  decide +kernel

/-- The submitter executes the request, and so does a worker. -/
theorem stopBetween_not_stopsWell : ∃ pool,
    (machine (Fin 1) Unit).Reached Initial (fun _ _ => True) pool ∧ ¬ StopsWell pool := by
  refine ⟨_, Machine.reached_final initial_spareWorker
    (Machine.meets_of_forall (fun _ _ => trivial) _ _) stopBetween_runs, fun stopsWell => ?_⟩
  have twice : (((machine (Fin 1) Unit).final _ _ stopBetween_runs).execs 0).length = 2 := by
    decide +kernel
  have once := stopsWell.once 0
  omega

end Stops

end ThreadPool

end Tvntd
