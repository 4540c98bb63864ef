import Tvntd.Di.ThreadPool.Conservation

/-! # The workers of the thread pool

`Crew` says which workers have a thread. The dormant ones are in the list of
dormant workers or in the hands of one submitter that spawns their thread, and
have none; the workers in the other lists have one, and so has a worker that is
handed a request. As long as the pool is not shut down no worker with a thread
is in the state `terminate`.
-/

namespace Tvntd

open Placement Function

namespace ThreadPool

set_option linter.unusedSectionVars false

variable {Req Mod : Type} [DecidableEq Req] {pool next : ThreadPool Req Mod}

/-- Where a dormant worker can be. -/
inductive Berth (Req : Type) where
  | list
  | submitter (req : Req)
  deriving DecidableEq

/-- The dormant worker of a submitter. -/
def berth : Submit Mod → List Nat
  | .dorman wrk => [wrk]
  | .spawn wrk => [wrk]
  | .spawnCount wrk => [wrk]
  | .spawnCreate wrk => [wrk]
  | .spawnFailed wrk => [wrk]
  | _ => []

def berths (queue : Thrq → List Nat) (submit : Req → Submit Mod) : Berth Req → List Nat
  | .list => queue .dormanThr
  | .submitter req => berth (submit req)

private theorem berths_submit (queue : Thrq → List Nat) (submit : Req → Submit Mod) (req : Req)
    (at_ : Submit Mod) : berths queue (update submit req at_) =
      update (berths queue submit) (.submitter req) (berth at_) := by
  funext place
  cases place with
  | list => rfl
  | submitter other =>
      by_cases same : other = req
      · subst same
        simp [berths]
      · simp [berths, same]

private theorem berths_list {lists : Thrq → List Nat} (queue : Thrq → List Nat)
    (submit : Req → Submit Mod) :
    berths lists submit = update (berths queue submit) .list (lists .dormanThr) := by
  funext place
  cases place with
  | list => rfl
  | submitter other => rfl

/-- There is a thread. -/
def Awake (pc : WorkerPc Req) : Prop := pc ≠ .out ∧ pc ≠ .creating

def Asleep (wrk : WorkerThread Req) : Prop := wrk.pc = .out ∧ wrk.wrkState = .terminate

/-- What a submitter relies on. -/
def Fits (shutdown : Bool) (workers : Nat → WorkerThread Req) : Submit Mod → Prop
  | .hand wrk => shutdown = false ∧ Awake (workers wrk).pc
  | .dorman wrk => shutdown = false ∧ Asleep (workers wrk)
  | .spawn wrk => shutdown = false ∧ Asleep (workers wrk)
  | .spawnCount wrk =>
      shutdown = false ∧ (workers wrk).pc = .out ∧ (workers wrk).wrkState ≠ .terminate
  | .spawnCreate wrk => (workers wrk).pc = .creating
  | .spawnFailed wrk => (workers wrk).pc = .out
  | .inline => False
  | .inlineRunning => False
  | _ => True

structure Crew (queue : Thrq → List Nat) (workers : Nat → WorkerThread Req)
    (submit : Req → Submit Mod) (shutdown : Bool) : Prop where
  exclusive : Exclusive (berths queue submit)
  dormant : ∀ wrk ∈ queue .dormanThr, Asleep (workers wrk)
  listed : ∀ qno, qno ≠ .dormanThr → ∀ wrk ∈ queue qno, Awake (workers wrk).pc
  fits : ∀ req, Fits shutdown workers (submit req)
  serving : shutdown = false → ∀ wrk, (workers wrk).pc ≠ .out →
    (workers wrk).wrkState ≠ .terminate ∧ (workers wrk).pc ≠ .exit

/-- The crew of a pool. -/
abbrev InCrew (pool : ThreadPool Req Mod) : Prop :=
  Crew pool.thpQueue pool.thpWorkers pool.submit pool.thpShutdown

variable {queue : Thrq → List Nat} {workers : Nat → WorkerThread Req} {submit : Req → Submit Mod}
  {shutdown : Bool} {wrk : Nat} {after : WorkerThread Req}

/-- What submitters rely on is only seen through their workers. -/
theorem Fits.congr {others : Nat → WorkerThread Req} {at_ : Submit Mod}
    (fits : Fits shutdown workers at_)
    (hand : ∀ wrk, at_ = .hand wrk → Awake (others wrk).pc)
    (same : ∀ wrk ∈ berth at_, others wrk = workers wrk) : Fits shutdown others at_ := by
  cases at_ with
  | hand wrk => exact ⟨fits.1, hand wrk rfl⟩
  | dorman wrk | spawn wrk | spawnCount wrk | spawnCreate wrk | spawnFailed wrk =>
      have kept := same wrk List.mem_cons_self
      simp only [Fits, kept] at fits ⊢
      exact fits
  | inline | inlineRunning => exact fits
  | fresh | retry | returned => trivial

namespace Crew

/-- A worker with a thread is nobody's dormant worker. -/
theorem not_berthed (crew : Crew queue workers submit shutdown) (awake : Awake (workers wrk).pc) :
    ¬ Somewhere (berths queue submit) wrk := by
  rintro ⟨place, member⟩
  cases place with
  | list => exact awake.1 (crew.dormant wrk member).1
  | submitter req =>
      have fits := crew.fits req
      change wrk ∈ berth (submit req) at member
      cases begun : submit req with
      | fresh | retry | hand | inline | inlineRunning | returned =>
          rw [begun] at member
          exact (List.not_mem_nil member).elim
      | dorman other | spawn other =>
          rw [begun] at member fits
          obtain rfl := List.mem_singleton.mp member
          exact awake.1 fits.2.1
      | spawnCount other =>
          rw [begun] at member fits
          obtain rfl := List.mem_singleton.mp member
          exact awake.1 fits.2.1
      | spawnCreate other =>
          rw [begun] at member fits
          obtain rfl := List.mem_singleton.mp member
          exact awake.2 fits
      | spawnFailed other =>
          rw [begun] at member fits
          obtain rfl := List.mem_singleton.mp member
          exact awake.1 fits

/-- Nobody else has the dormant worker of a submitter. -/
theorem apart_of_berthed (crew : Crew queue workers submit shutdown) {req : Req}
    (berthed : wrk ∈ berth (submit req)) :
    wrk ∉ queue .dormanThr ∧ ∀ other, other ≠ req → wrk ∉ berth (submit other) := by
  have here : wrk ∈ berths queue submit (.submitter req) := berthed
  constructor
  · intro listed
    have there : wrk ∈ berths queue submit .list := listed
    cases crew.exclusive.unique here there
  · intro other apart member
    have there : wrk ∈ berths queue submit (.submitter other) := member
    exact apart (Berth.submitter.inj (crew.exclusive.unique there here))

/-- A worker with a thread goes on, and keeps it. -/
theorem setAwake (crew : Crew queue workers submit shutdown) (after : WorkerThread Req)
    (awake : Awake (workers wrk).pc) (still : Awake after.pc)
    (serves : shutdown = false → after.wrkState ≠ .terminate ∧ after.pc ≠ .exit) :
    Crew queue (update workers wrk after) submit shutdown := by
  have nowhere := crew.not_berthed awake
  have others : ∀ {other : Nat}, Awake (workers other).pc →
      Awake (update workers wrk after other).pc := by
    intro other up
    by_cases same : other = wrk
    · subst same
      rw [update_self]
      exact still
    · rw [update_of_ne same]
      exact up
  refine ⟨crew.exclusive, ?_, ?_, ?_, ?_⟩
  · intro other listed
    have apart : other ≠ wrk := by
      rintro rfl
      exact nowhere ⟨.list, listed⟩
    rw [update_of_ne apart]
    exact crew.dormant other listed
  · exact fun qno some_ other listed => others (crew.listed qno some_ other listed)
  · intro req
    refine (crew.fits req).congr ?_ ?_
    · intro other begun
      have fits := crew.fits req
      rw [begun] at fits
      exact others fits.2
    · intro other berthed
      refine update_of_ne ?_ _ _
      rintro rfl
      exact nowhere ⟨.submitter req, berthed⟩
  · intro running other up
    by_cases same : other = wrk
    · subst same
      rw [update_self]
      exact serves running
    · rw [update_of_ne same] at up ⊢
      exact crew.serving running other up

theorem state_of_awake (crew : Crew queue workers submit shutdown) (awake : Awake (workers wrk).pc)
    (running : shutdown = false) : (workers wrk).wrkState ≠ .terminate :=
  (crew.serving running wrk awake.1).1

/-- The lists of workers with a thread change, within these. -/
theorem relist (crew : Crew queue workers submit shutdown) {lists : Thrq → List Nat}
    (dorman : lists .dormanThr = queue .dormanThr)
    (awake : ∀ qno, qno ≠ .dormanThr → ∀ wrk ∈ lists qno, Awake (workers wrk).pc) :
    Crew lists workers submit shutdown where
  exclusive := by
    have same : berths lists submit = berths queue submit := by
      funext place
      cases place with
      | list => exact dorman
      | submitter req => rfl
    rw [same]
    exact crew.exclusive
  dormant := by
    rw [dorman]
    exact crew.dormant
  listed := awake
  fits := crew.fits
  serving := crew.serving

/-- A submitter goes on without a dormant worker. -/
theorem goOn (crew : Crew queue workers submit shutdown) (req : Req) {at_ : Submit Mod}
    (none : berth at_ = []) (fits : Fits shutdown workers at_) :
    Crew queue workers (update submit req at_) shutdown where
  exclusive := by
    rw [berths_submit, none]
    exact crew.exclusive.clear (.submitter req)
  dormant := crew.dormant
  listed := crew.listed
  fits := by
    intro other
    by_cases same : other = req
    · subst same
      rw [update_self]
      exact fits
    · rw [update_of_ne same]
      exact crew.fits other
  serving := crew.serving

/-- A dormant worker and its submitter go on together. -/
theorem spawning (crew : Crew queue workers submit shutdown) {req : Req} {at_ : Submit Mod}
    (begun : berth (submit req) = [wrk]) (down : ¬ Awake (workers wrk).pc)
    (kept : berth at_ = [wrk] ∨ berth at_ = [])
    (fits : Fits shutdown (update workers wrk after) at_)
    (serves : shutdown = false → after.pc ≠ .out → after.wrkState ≠ .terminate ∧ after.pc ≠ .exit) :
    Crew queue (update workers wrk after) (update submit req at_) shutdown := by
  have berthed : wrk ∈ berth (submit req) := by
    rw [begun]
    exact List.mem_cons_self
  obtain ⟨unlisted, apart⟩ := crew.apart_of_berthed berthed
  have others : ∀ {other : Nat}, other ≠ wrk →
      update workers wrk after other = workers other :=
    fun differs => update_of_ne differs _ _
  refine ⟨?_, ?_, ?_, ?_, ?_⟩
  · rw [berths_submit]
    rcases kept with same | none
    · rw [same, ← begun, show berth (submit req) = berths queue submit (.submitter req) from rfl,
        update_eq_self]
      exact crew.exclusive
    · rw [none]
      exact crew.exclusive.clear (.submitter req)
  · intro other listed
    rw [others fun same => unlisted (same ▸ listed)]
    exact crew.dormant other listed
  · intro qno some_ other listed
    have up := crew.listed qno some_ other listed
    rw [others fun same => down (same ▸ up)]
    exact up
  · intro other
    by_cases here : other = req
    · subst here
      rw [update_self]
      exact fits
    · rw [update_of_ne here]
      refine (crew.fits other).congr ?_ ?_
      · intro handed same
        have fits := crew.fits other
        rw [same] at fits
        rw [others fun same => down (same ▸ fits.2)]
        exact fits.2
      · intro theirs member
        exact others fun same => apart other here (same ▸ member)
  · intro running other up
    by_cases same : other = wrk
    · subst same
      rw [update_self] at up ⊢
      exact serves running up
    · rw [others same] at up ⊢
      exact crew.serving running other up

/-- A worker without a thread joins the list of dormant workers. -/
theorem layDown (crew : Crew queue workers submit shutdown)
    (nowhere : ¬ Somewhere (berths queue submit) wrk) (noHand : ∀ req, submit req ≠ .hand wrk)
    (asleep : Asleep after) {lists : Thrq → List Nat}
    (dorman : lists .dormanThr = queue .dormanThr ++ [wrk])
    (removed : ∀ qno, qno ≠ .dormanThr → ∀ other ∈ lists qno, other ≠ wrk ∧ other ∈ queue qno) :
    Crew lists (update workers wrk after) submit shutdown := by
  have others : ∀ {other : Nat}, other ≠ wrk →
      update workers wrk after other = workers other :=
    fun differs => update_of_ne differs _ _
  refine ⟨?_, ?_, ?_, ?_, ?_⟩
  · rw [berths_list queue submit, dorman]
    exact crew.exclusive.put nowhere (List.perm_append_singleton wrk _)
  · rw [dorman]
    intro other member
    rcases List.mem_append.mp member with listed | here
    · rw [others fun same => nowhere ⟨.list, same ▸ listed⟩]
      exact crew.dormant other listed
    · obtain rfl := List.mem_singleton.mp here
      rw [update_self]
      exact asleep
  · intro qno some_ other member
    obtain ⟨differs, listed⟩ := removed qno some_ other member
    rw [others differs]
    exact crew.listed qno some_ other listed
  · intro req
    refine (crew.fits req).congr ?_ ?_
    · intro other begun
      have fits := crew.fits req
      rw [begun] at fits
      rw [others fun same => noHand req (same ▸ begun)]
      exact fits.2
    · intro other berthed
      exact others fun same => nowhere ⟨.submitter req, same ▸ berthed⟩
  · intro running other up
    have differs : other ≠ wrk := by
      rintro rfl
      rw [update_self] at up
      exact up asleep.1
    rw [others differs] at up ⊢
    exact crew.serving running other up

/-- A dormant worker leaves the list for a submitter. -/
theorem takeDorman (crew : Crew queue workers submit shutdown) {rest : List Nat}
    (first : queue .dormanThr = wrk :: rest) {req : Req} (none : berth (submit req) = [])
    (running : shutdown = false) :
    Crew (update queue .dormanThr rest) workers (update submit req (.dorman wrk))
      shutdown where
  exclusive := by
    rw [berths_submit, berths_list queue, update_self]
    have puts : (berth (.dorman wrk : Submit Mod)).Perm
      (wrk :: berths queue submit (.submitter req)) := by
      change [wrk].Perm (wrk :: berth (submit req))
      rw [none]
    have takes : (berths queue submit .list).Perm (wrk :: rest) := by
      change (queue .dormanThr).Perm _
      rw [first]
    have apart : Berth.submitter req ≠ .list := nofun
    have empty : update (berths queue submit) .list rest (.submitter req) =
        berths queue submit (.submitter req) := update_of_ne apart _ _
    rw [← empty] at puts
    exact (crew.exclusive.take takes).put
      (fun somewhere => ((crew.exclusive.somewhere_take takes wrk).mp somewhere).1 rfl) puts
  dormant := by
    intro other member
    rw [update_self] at member
    exact crew.dormant other (first ▸ List.mem_cons_of_mem _ member)
  listed := by
    intro qno some_ other member
    rw [update_of_ne some_] at member
    exact crew.listed qno some_ other member
  fits := by
    intro other
    by_cases same : other = req
    · subst same
      rw [update_self]
      exact ⟨running, crew.dormant wrk (first ▸ List.mem_cons_self)⟩
    · rw [update_of_ne same]
      exact crew.fits other
  serving := crew.serving

end Crew

/-! ## Operations on the worker lists -/

theorem pc_workerUpdateState (wrk : WorkerThread Req) (qno : Thrq) :
    (workerUpdateState wrk qno).pc = wrk.pc := by
  unfold workerUpdateState
  split
  · rfl
  · rfl

/-- Only the list of dormant workers goes with the state `terminate`. -/
theorem wrkState_workerUpdateState (wrk : WorkerThread Req) {qno : Thrq} (awake : qno ≠ .dormanThr)
    (serves : wrk.wrkState ≠ .terminate) : (workerUpdateState wrk qno).wrkState ≠ .terminate := by
  rw [workerUpdateState, if_pos serves]
  cases qno with
  | dormanThr => exact (awake rfl).elim
  | idleThr | fastThr | slowThr => nofun

private theorem wrkState_workerUpdateState_dormanThr (wrk : WorkerThread Req) :
    (workerUpdateState wrk .dormanThr).wrkState = .terminate := by
  unfold workerUpdateState
  split
  · rfl
  · rename_i serves
    exact Classical.not_not.mp serves

theorem filter_eq_of_not_mem {list : List Nat} {wrk : Nat} (absent : wrk ∉ list) :
    list.filter (· ≠ wrk) = list := by
  refine List.filter_eq_self.mpr fun other member => decide_eq_true ?_
  rintro rfl
  exact absent member

theorem thpQueue_thpSwapQueue (pool : ThreadPool Req Mod) (wrk : Nat) (qno : Thrq) :
    (pool.thpSwapQueue wrk qno).thpQueue = update
      (fun list => (pool.thpQueue list).filter (· ≠ wrk)) qno
        ((pool.thpQueue qno).filter (· ≠ wrk) ++ [wrk]) := rfl

private theorem setPc_self {wrk : Nat} {pc : WorkerPc Req} (here : (pool.thpWorkers wrk).pc = pc) :
    pool.setPc wrk pc = pool := by
  subst here
  unfold ThreadPool.setPc setWorker
  rw [update_eq_self]

/-- A worker with a thread moves to the back of a list. -/
theorem Crew.thpSwapQueue (crew : InCrew pool) {wrk : Nat} (awake : Awake (pool.thpWorkers wrk).pc)
    {qno : Thrq} (some_ : qno ≠ .dormanThr) : InCrew (pool.thpSwapQueue wrk qno) := by
  have absent : wrk ∉ pool.thpQueue .dormanThr := fun listed => awake.1 (crew.dormant wrk listed).1
  have updated := Crew.setAwake crew (workerUpdateState (pool.thpWorkers wrk) qno) awake
    (by rw [pc_workerUpdateState]; exact awake) (by
      intro running
      obtain ⟨serves, stays⟩ := crew.serving running wrk awake.1
      rw [pc_workerUpdateState]
      exact ⟨wrkState_workerUpdateState _ some_ serves, stays⟩)
  refine updated.relist ?_ ?_
  · change update _ qno _ .dormanThr = _
    rw [update_of_ne some_.symm]
    exact filter_eq_of_not_mem absent
  · have keptUp : ∀ {other : Nat}, Awake (pool.thpWorkers other).pc →
        Awake (update pool.thpWorkers wrk (workerUpdateState (pool.thpWorkers wrk) qno)
          other).pc := by
      intro other up
      by_cases same : other = wrk
      · subst same
        rw [update_self, pc_workerUpdateState]
        exact up
      · rw [update_of_ne same]
        exact up
    intro other otherSome moved member
    refine keptUp ?_
    rw [thpQueue_thpSwapQueue] at member
    rcases mem_update.mp member with ⟨rfl, inList⟩ | ⟨-, inside⟩
    · rcases List.mem_append.mp inList with listed | here
      · exact crew.listed other otherSome moved (List.mem_filter.mp listed).1
      · rw [List.mem_singleton.mp here]
        exact awake
    · exact crew.listed other otherSome moved (List.mem_filter.mp inside).1

/-- The worker in front of a list of workers with a thread. -/
theorem Crew.thpDequeue (crew : InCrew pool) {qno : Thrq} (some_ : qno ≠ .dormanThr) {wrk : Nat}
    (dequeued : pool.thpDequeue qno = some (wrk, next)) :
    InCrew next ∧ Awake (next.thpWorkers wrk).pc ∧ next.thpShutdown = pool.thpShutdown ∧
      next.submit = pool.submit := by
  obtain ⟨rest, first, rfl⟩ := thpDequeue_eq dequeued
  refine ⟨crew.relist ?_ ?_, crew.listed qno some_ wrk (first ▸ List.mem_cons_self), rfl, rfl⟩
  · exact update_of_ne some_.symm _ _
  · intro other otherSome moved member
    rcases mem_update.mp member with ⟨rfl, inRest⟩ | ⟨-, inside⟩
    · exact crew.listed other otherSome moved (first ▸ List.mem_cons_of_mem _ inRest)
    · exact crew.listed other otherSome moved inside

theorem Crew.dlAddFront (crew : InCrew pool) {wrk : Nat} (awake : Awake (pool.thpWorkers wrk).pc)
    {qno : Thrq} (some_ : qno ≠ .dormanThr) : InCrew (pool.dlAddFront wrk qno) := by
  refine crew.relist (update_of_ne some_.symm _ _) ?_
  intro other otherSome moved member
  rcases mem_update.mp member with ⟨rfl, inList⟩ | ⟨-, inside⟩
  · rcases List.mem_cons.mp inList with rfl | listed
    · exact awake
    · exact crew.listed other otherSome moved listed
  · exact crew.listed other otherSome moved inside

theorem Crew.signal (crew : InCrew pool) (wrk : Nat) (req : Req) :
    InCrew (pool.signal wrk req) := by
  unfold ThreadPool.signal
  dsimp only
  split
  · rename_i window
    have awake : Awake (pool.thpWorkers wrk).pc := by
      rcases window with here | here
      · rw [here]
        exact ⟨nofun, nofun⟩
      · rw [here]
        exact ⟨nofun, nofun⟩
    exact crew.setAwake _ awake awake fun running => crew.serving running wrk awake.1
  · exact crew

/-- The worker that the round robin picks has a thread. -/
theorem Crew.roundRobin (crew : InCrew pool) {wrk : Nat} (awake : Awake (pool.thpWorkers wrk).pc)
    {thp : Thrq} (some_ : thp ≠ .dormanThr) :
    InCrew (pool.roundRobin wrk thp).2 ∧
      Awake ((pool.roundRobin wrk thp).2.thpWorkers (pool.roundRobin wrk thp).1).pc := by
  have swapped := crew.thpSwapQueue awake some_
  have up : Awake ((pool.thpSwapQueue wrk thp).thpWorkers wrk).pc := by
    rw [(Relisted.thpSwapQueue pool wrk thp).pc]
    exact awake
  unfold ThreadPool.roundRobin
  dsimp only
  split
  · split
    · exact ⟨swapped, up⟩
    · obtain ⟨rest, front, -, -⟩ := swapped.thpDequeue some_ ‹_›
      split
      · exact ⟨rest.dlAddFront front some_, front⟩
      · exact ⟨rest, front⟩
  · exact ⟨swapped, up⟩

theorem Crew.pickWorker (crew : InCrew pool) (running : pool.thpShutdown = false) {req : Req}
    (none : berth (pool.submit req) = []) {qno : Reqq} {thp : Thrq} (some_ : thp ≠ .dormanThr) :
    InCrew (pool.pickWorker req qno thp) := by
  unfold ThreadPool.pickWorker
  split
  · obtain ⟨rest, awake, same, -⟩ := crew.thpDequeue some_ ‹_›
    rename_i wrk left dequeued
    obtain ⟨picked, up⟩ := rest.roundRobin awake some_
    have relisted := Relisted.roundRobin left wrk thp
    refine picked.goOn req rfl ⟨?_, up⟩
    rw [relisted.pool_eq]
    exact same.trans running
  · split
    · obtain ⟨rest, awake, same, -⟩ := crew.thpDequeue
        (show Thrq.idleThr ≠ .dormanThr by decide) ‹_›
      exact rest.goOn req rfl ⟨same.trans running, awake⟩
    · rw [if_pos running]
      split
      · rename_i wrk left dequeued
        obtain ⟨rest, first, rfl⟩ := thpDequeue_eq dequeued
        exact crew.takeDorman first none running
      · exact crew.goOn req rfl trivial

private theorem berth_of_unsubmitted {at_ : Submit Mod} (unsubmitted : Unsubmitted at_) :
    berth at_ = [] := by
  cases at_ with
  | fresh | retry => rfl
  | _ => exact unsubmitted.elim

theorem Crew.schedule (crew : InCrew pool) {req : Req} (unsubmitted : Unsubmitted (pool.submit req))
    (quiet : pool.thpShutdown = true → 0 < pool.thpBarrierCnt) (mod : Option Mod) (qno : Reqq) :
    InCrew (pool.schedule mod req qno) := by
  have none := berth_of_unsubmitted unsubmitted
  by_cases deferred : 0 < pool.thpBarrierCnt
  · rw [schedule_deferred mod req qno deferred]
    exact crew.goOn req rfl trivial
  · have running : pool.thpShutdown = false := Bool.eq_false_iff.mpr fun stopped =>
      deferred (quiet stopped)
    have scheduled : InCrew (pool.scheduled mod req) := crew
    rw [schedule_scheduled mod req qno deferred]
    cases qno with
    | fastQueue =>
        exact scheduled.pickWorker running none (show Thrq.fastThr ≠ .dormanThr by decide)
    | slowQueue =>
        exact scheduled.pickWorker running none (show Thrq.slowThr ≠ .dormanThr by decide)
    | timeWait | suspend | barrier => exact crew.goOn req rfl trivial

theorem Crew.scheduleBarrier (crew : InCrew pool) (req : Req) (mod : Option Mod) (qno : Reqq) :
    InCrew (pool.scheduleBarrier mod req qno) := by
  unfold ThreadPool.scheduleBarrier
  dsimp only
  split
  · exact crew.goOn req rfl trivial
  · exact crew.goOn req rfl trivial

theorem Crew.workerEnqueue (crew : InCrew pool) {req : Req} {wrk : Nat}
    (begun : pool.submit req = .hand wrk) : InCrew (pool.workerEnqueue req wrk) := by
  have fits := crew.fits req
  rw [begun] at fits
  obtain ⟨running, awake⟩ := fits
  have serves := crew.serving running wrk awake.1
  unfold ThreadPool.workerEnqueue
  dsimp only
  rw [if_pos serves.1]
  have updated := Crew.setAwake crew { pool.thpWorkers wrk with
    wrkReqcnt := (pool.thpWorkers wrk).wrkReqcnt + 1
    wrkQueue := (pool.thpWorkers wrk).wrkQueue ++ [req] } awake awake fun _ => serves
  have queued : InCrew (pool.setWorker wrk _) := updated
  have signalled := queued.signal wrk req
  exact signalled.goOn req rfl trivial

/-- A worker out of the loop: the pool was shut down. -/
theorem Crew.leaveLoop (crew : InCrew pool) {wrk : Nat} (awake : Awake (pool.thpWorkers wrk).pc)
    (ends : pool.wrkCanTerminate wrk) : InCrew (pool.leaveLoop wrk) :=
  crew.setAwake _ awake ⟨nofun, nofun⟩ fun running =>
    (crew.state_of_awake awake running ends.1).elim

theorem Crew.setPc (crew : InCrew pool) {wrk : Nat} (awake : Awake (pool.thpWorkers wrk).pc)
    {pc : WorkerPc Req} (still : Awake pc) (stays : pc ≠ .exit) : InCrew (pool.setPc wrk pc) :=
  crew.setAwake _ awake still fun running => ⟨crew.state_of_awake awake running, stays⟩

theorem Crew.loopTop (crew : InCrew pool) {wrk : Nat} (awake : Awake (pool.thpWorkers wrk).pc) :
    InCrew (pool.loopTop wrk) := by
  unfold ThreadPool.loopTop
  dsimp only
  split
  · exact crew.leaveLoop awake ‹_›
  · split
    · exact crew.setPc awake ⟨nofun, nofun⟩ nofun
    · exact crew.setAwake _ awake ⟨nofun, nofun⟩ fun running =>
        ⟨crew.state_of_awake awake running, nofun⟩

theorem Crew.loopProbe (crew : InCrew pool) {wrk : Nat} (awake : Awake (pool.thpWorkers wrk).pc) :
    InCrew (pool.loopProbe wrk) := by
  unfold ThreadPool.loopProbe
  split
  · exact crew.leaveLoop awake ‹_›
  · split
    · exact crew.setPc awake ⟨nofun, nofun⟩ nofun
    · exact crew.setPc awake ⟨nofun, nofun⟩ nofun

/-- The idle worker that is signalled goes to the fast list. -/
theorem Crew.wakeIdle (crew : InCrew pool) (rq : Req) : InCrew (pool.wakeIdle rq) := by
  unfold ThreadPool.wakeIdle
  split
  · exact crew
  · obtain ⟨rest, awake, -, -⟩ := crew.thpDequeue (show Thrq.idleThr ≠ .dormanThr by decide) ‹_›
    exact (rest.thpSwapQueue awake (show Thrq.fastThr ≠ .dormanThr by decide)).signal _ rq

theorem Crew.takeBarrier (crew : InCrew pool) {wrk : Nat} (awake : Awake (pool.thpWorkers wrk).pc)
    (taken : pool.takeBarrier wrk = some next) : InCrew next := by
  obtain ⟨req, list, promoted, -, promotion, rfl⟩ := takeBarrier_eq taken
  have before : InCrew (pool.undeferred list) ∧
      Awake ((pool.undeferred list).thpWorkers wrk).pc := ⟨crew, awake⟩
  have turn : ∀ (pool : ThreadPool Req Mod) (rq : Req) (list : List Req),
      (InCrew pool ∧ Awake (pool.thpWorkers wrk).pc) →
        InCrew ((pool.resumed rq list).wakeIdle rq) ∧
          Awake (((pool.resumed rq list).wakeIdle rq).thpWorkers wrk).pc := by
    rintro pool rq list ⟨crew, up⟩
    have resumed : InCrew (pool.resumed rq list) := crew
    refine ⟨resumed.wakeIdle rq, ?_⟩
    rw [(Relisted.wakeIdle (pool.resumed rq list) rq).pc]
    exact up
  have still := promoted_of_turns (fun pool => InCrew pool ∧ Awake (pool.thpWorkers wrk).pc)
    (fun pool rq list held _ _ => turn pool rq list held) before promotion
  exact still.1.setPc still.2 ⟨nofun, nofun⟩ nofun

/-- A worker that takes a request, or goes to sleep, moves to the list for it. -/
theorem Crew.moves (crew : InCrew pool) {wrk : Nat} (awake : Awake (pool.thpWorkers wrk).pc)
    {thr : Thrq} (some_ : thr ≠ .dormanThr) {pc : WorkerPc Req} (still : Awake pc)
    (stays : pc ≠ .exit) :
    InCrew ((pool.thpSwapQueue wrk thr).setPc wrk pc) := by
  have swapped := crew.thpSwapQueue awake some_
  refine swapped.setPc ?_ still stays
  rw [(Relisted.thpSwapQueue pool wrk thr).pc]
  exact awake

theorem Crew.getReqOrPutIdle (crew : InCrew pool) {wrk : Nat}
    (awake : Awake (pool.thpWorkers wrk).pc) : InCrew (pool.getReqOrPutIdle wrk) := by
  have cleared : InCrew (pool.looking wrk) :=
    crew.setAwake _ awake awake fun running => crew.serving running wrk awake.1
  have up : Awake ((pool.looking wrk).thpWorkers wrk).pc := by
    simp only [looking, setWorker, update_self]
    exact awake
  rcases getReqOrPutIdle_cases pool wrk with ⟨qno, thr, req, list, served, -, same⟩ |
    ⟨-, -, ⟨-, same⟩ | ⟨-, same⟩⟩
  · have some_ : thr ≠ .dormanThr := by
      rcases served with ⟨-, rfl⟩ | ⟨-, rfl⟩
      · decide
      · decide
    have dequeued :
        InCrew { pool.looking wrk with mQueue := update pool.mQueue qno list } :=
      cleared
    rw [same]
    exact dequeued.moves up some_ ⟨by simp, by simp⟩ (by simp)
  · rw [same]
    exact cleared.moves up (by decide) ⟨by simp, by simp⟩ (by simp)
  · rw [same]
    cases taken : (pool.looking wrk).takeBarrier wrk with
    | none => exact cleared.setPc up ⟨by simp, by simp⟩ (by simp)
    | some after => exact cleared.takeBarrier up taken

/-! ## Quiet runs -/

/-- The submission is not on its way from `schedule` to a worker. -/
def Settled : Submit Mod → Prop
  | .hand _ => False
  | .dorman _ => False
  | .spawn _ => False
  | .spawnCount _ => False
  | .inline => False
  | .inlineRunning => False
  | _ => True

/-- The pool is stopped while no request is on its way, and takes requests afterwards only where it
defers them. -/
def Quiet (pool : ThreadPool Req Mod) : Act Req Mod → Prop
  | .stop => ∀ req, Settled (pool.submit req)
  | .schedule _ _ _ => pool.thpShutdown = true → 0 < pool.thpBarrierCnt
  | .retry _ => pool.thpShutdown = true → 0 < pool.thpBarrierCnt
  | _ => True

theorem Crew.thpStop (crew : InCrew pool) (settled : ∀ req, Settled (pool.submit req)) :
    InCrew pool.thpStop := by
  have pc : ∀ wrk, (pool.thpStop.thpWorkers wrk).pc = (pool.thpWorkers wrk).pc := by
    intro wrk
    by_cases inside : wrk < pool.thpMax
    · simp only [ThreadPool.thpStop, if_pos inside]
    · simp only [ThreadPool.thpStop, if_neg inside]
  refine ⟨crew.exclusive, ?_, ?_, ?_, fun alive => by cases alive⟩
  · intro wrk listed
    obtain ⟨out, state⟩ := crew.dormant wrk listed
    refine ⟨(pc wrk).trans out, ?_⟩
    by_cases inside : wrk < pool.thpMax
    · simp only [ThreadPool.thpStop, if_pos inside]
    · simp only [ThreadPool.thpStop, if_neg inside]
      exact state
  · intro qno some_ wrk listed
    rw [pc]
    exact crew.listed qno some_ wrk listed
  · intro req
    have fits := crew.fits req
    have away := settled req
    change Fits true pool.thpStop.thpWorkers (pool.submit req)
    cases begun : pool.submit req with
    | fresh | retry | returned => trivial
    | spawnCreate wrk =>
        rw [begun] at fits
        exact (pc wrk).trans fits
    | spawnFailed wrk =>
        rw [begun] at fits
        exact (pc wrk).trans fits
    | _ =>
        rw [begun] at away
        exact away.elim

/-- What `Conserved` needs of the submitters. -/
theorem Crew.orderly (crew : InCrew pool) : Orderly pool where
  running := by
    intro req begun
    have fits := crew.fits req
    rw [begun] at fits
    exact fits
  dorman := by
    intro req wrk begun
    have fits := crew.fits req
    rw [begun] at fits
    exact ⟨fits.1, fits.2.2⟩
  spawnCount := by
    intro req wrk begun
    have fits := crew.fits req
    rw [begun] at fits
    exact fits.2.1
  spawnCreate := by
    intro req wrk begun
    have fits := crew.fits req
    rw [begun] at fits
    exact fits

/-- Joining the dormant workers: the thread of the worker has ended, or was never created. -/
theorem Crew.sleep (crew : InCrew pool) {wrk : Nat}
    (nowhere : ¬ Somewhere (berths pool.thpQueue pool.submit) wrk)
    (noHand : ∀ req, pool.submit req ≠ .hand wrk) :
    InCrew ((pool.thpSwapQueue wrk .dormanThr).setPc wrk .out) := by
  have asleep : Asleep { (pool.thpSwapQueue wrk .dormanThr).thpWorkers wrk with pc := .out } := by
    refine ⟨rfl, ?_⟩
    change (update pool.thpWorkers wrk
      (workerUpdateState (pool.thpWorkers wrk) .dormanThr) wrk).wrkState = _
    rw [update_self]
    exact wrkState_workerUpdateState_dormanThr _
  have unlisted : wrk ∉ pool.thpQueue .dormanThr := fun listed => nowhere ⟨.list, listed⟩
  have dorman : (pool.thpSwapQueue wrk .dormanThr).thpQueue .dormanThr =
      pool.thpQueue .dormanThr ++ [wrk] := by
    rw [thpQueue_thpSwapQueue, update_self, filter_eq_of_not_mem unlisted]
  have removed : ∀ qno, qno ≠ .dormanThr →
      ∀ other ∈ (pool.thpSwapQueue wrk .dormanThr).thpQueue qno, other ≠ wrk ∧
        other ∈ pool.thpQueue qno := by
    intro qno some_ other member
    rw [thpQueue_thpSwapQueue, update_of_ne some_] at member
    obtain ⟨listed, differs⟩ := List.mem_filter.mp member
    exact ⟨of_decide_eq_true differs, listed⟩
  have laid := Crew.layDown crew nowhere noHand asleep dorman removed
  have same : ((pool.thpSwapQueue wrk .dormanThr).setPc wrk .out).thpWorkers =
      update pool.thpWorkers wrk
        { (pool.thpSwapQueue wrk .dormanThr).thpWorkers wrk with pc := .out } :=
    update_idem _ _ _
  change Crew _ ((pool.thpSwapQueue wrk .dormanThr).setPc wrk .out).thpWorkers _ _
  rw [same]
  exact laid

/-- **In a quiet run every step keeps the crew.** -/
theorem Crew.step (crew : InCrew pool) {act : Act Req Mod} (quiet : Quiet pool act)
    (taken : Taken pool act next) : InCrew next := by
  -- A worker that is somewhere in its loop has a thread.
  have up : ∀ {wrk : Nat} {pc : WorkerPc Req}, (pool.thpWorkers wrk).pc = pc → Awake pc →
      Awake (pool.thpWorkers wrk).pc := fun here awake => here ▸ awake
  cases taken with
  | schedule begun => exact crew.schedule (begun ▸ trivial) quiet _ _
  | scheduleBarrier begun => exact crew.scheduleBarrier _ _ _
  | retry begun => exact crew.schedule (begun ▸ trivial) quiet _ _
  | enqueue begun free => exact crew.workerEnqueue begun
  | @leaveDorman req wrk begun =>
      have fits := crew.fits req
      rw [begun] at fits
      rw [ThreadPool.leaveDorman, if_pos ⟨fits.1, fits.2.2⟩]
      have spawning : Crew pool.thpQueue (update pool.thpWorkers wrk (pool.thpWorkers wrk))
          (update pool.submit req (.spawn wrk)) pool.thpShutdown :=
        Crew.spawning crew (by rw [begun]; rfl) (fun awake => awake.1 fits.2.1) (.inl rfl)
          (by rw [update_eq_self]; exact fits) (fun running some_ => (some_ fits.2.1).elim)
      rw [update_eq_self] at spawning
      exact spawning
  | @spawn req wrk begun =>
      have fits := crew.fits req
      rw [begun] at fits
      unfold workerSpawnThr
      dsimp only
      split
      · exact crew.goOn req rfl trivial
      · refine Crew.spawning crew (by rw [begun]; rfl) (fun awake => awake.1 fits.2.1) (.inl rfl) ?_
          (fun running some_ => (some_ fits.2.1).elim)
        change _ ∧ _ ∧ _
        rw [update_self]
        exact ⟨fits.1, fits.2.1, by simp⟩
  | @spawnCount req wrk begun =>
      have fits := crew.fits req
      rw [begun] at fits
      refine Crew.spawning crew (by rw [begun]; rfl) (fun awake => awake.1 fits.2.1) (.inl rfl) ?_
        (fun _ _ => ⟨fits.2.2, by simp⟩)
      change (update pool.thpWorkers wrk _ wrk).pc = _
      rw [update_self]
  | @spawnCreate req wrk created begun =>
      have fits := crew.fits req
      rw [begun] at fits
      have creating : (pool.thpWorkers wrk).pc = .creating := fits
      unfold ThreadPool.spawnCreate
      dsimp only
      split
      · refine Crew.spawning crew (by rw [begun]; rfl) (fun awake => awake.2 creating)
          (.inr rfl) trivial ?_
        exact fun running _ => ⟨(crew.serving running wrk (by rw [creating]; simp)).1, by simp⟩
      · refine Crew.spawning crew (by rw [begun]; rfl) (fun awake => awake.2 creating) (.inl rfl) ?_
          (fun _ some_ => (some_ rfl).elim)
        change (update pool.thpWorkers wrk _ wrk).pc = _
        rw [update_self]
  | @spawnFailed req wrk begun =>
      have fits := crew.fits req
      rw [begun] at fits
      have out : (pool.thpWorkers wrk).pc = .out := fits
      have berthed : wrk ∈ berth (pool.submit req) := by
        rw [begun]
        exact List.mem_cons_self
      obtain ⟨unlisted, apart⟩ := crew.apart_of_berthed berthed
      have released : InCrew (pool.setSubmit req .returned) := crew.goOn req rfl trivial
      have slept : InCrew (((pool.setSubmit req .returned).thpSwapQueue wrk .dormanThr).setPc wrk .out) :=
        released.sleep (by
        rintro ⟨place, member⟩
        cases place with
        | list => exact unlisted member
        | submitter other =>
            change wrk ∈ berth (update pool.submit req .returned other) at member
            by_cases same : other = req
            · subst same
              rw [update_self] at member
              exact (List.not_mem_nil member).elim
            · rw [update_of_ne same] at member
              exact apart other same member) (by
        intro other handed
        have fits := released.fits other
        rw [handed] at fits
        exact fits.2.1 out)
      rw [setPc_self] at slept
      · exact slept
      · rw [(Relisted.thpSwapQueue (pool.setSubmit req .returned) wrk .dormanThr).pc]
        exact out
  | @inlineRun req begun =>
      have fits := crew.fits req
      rw [begun] at fits
      exact fits.elim
  | @inlineDone req chained begun =>
      have fits := crew.fits req
      rw [begun] at fits
      exact fits.elim
  | @start wrk here =>
      exact crew.moves (up here ⟨by simp, by simp⟩) (by decide) ⟨by simp, by simp⟩ (by simp)
  | top here => exact crew.loopTop (up here ⟨by simp, by simp⟩)
  | look here => exact crew.getReqOrPutIdle (up here ⟨by simp, by simp⟩)
  | probe here => exact crew.loopProbe (up here ⟨by simp, by simp⟩)
  | park here => exact crew.setPc (up here ⟨by simp, by simp⟩) ⟨by simp, by simp⟩ (by simp)
  | wake here => exact crew.setPc (up here ⟨by simp, by simp⟩) ⟨by simp, by simp⟩ (by simp)
  | @run wrk req here =>
      have executing : InCrew (pool.execTask req) := crew
      exact executing.setPc (up here ⟨by simp, by simp⟩) ⟨by simp, by simp⟩ (by simp)
  | @finish wrk req chained here =>
      have counted :
          InCrew { pool.execDone req chained with thpSchedReq := pool.thpSchedReq - 1 } := crew
      exact counted.setPc (up here ⟨by simp, by simp⟩) ⟨by simp, by simp⟩ (by simp)
  | @exit wrk here =>
      have awake := up here ⟨by simp, by simp⟩
      have counted : InCrew { pool with thpRunThds := pool.thpRunThds - 1 } := crew
      refine counted.sleep (crew.not_berthed awake) fun req begun => ?_
      have fits := crew.fits req
      rw [begun] at fits
      exact (crew.serving fits.1 wrk awake.1).2 here
  | stop begun => exact crew.thpStop quiet
  | stopWake begun done => exact crew
  | stopReturn begun => exact crew
  | stopVerify begun => exact crew

end ThreadPool

end Tvntd
