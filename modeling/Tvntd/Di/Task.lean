import Mathlib.Logic.Function.Basic
import Tvntd.Lib.Machine
import Mathlib.Algebra.Group.Nat.Defs
import Mathlib.Algebra.Group.Int.Defs

/-! # Tasks

`Task::task_submit` and `Task::req_exec_task` of `common/di/request.cpp`, for one
task. Every access to `tsk_pend` is one step, and so are the call of `schedule`,
the beginning of an execution by the pool, and the beginning and the end of
`task_handler`; between the steps any other thread may run, and a handler may
submit the task itself.

`tsk_pend` counts the submissions that no handler has served, and whoever raises
it from 0 owns the task: the owner hands it to the pool, and the execution keeps
it until it takes the last submission off. `Phase` says who the owner is. What is
not in the source is the record of the submissions: how often the counter rose
from 0, how often the task was handed to the pool, and which submissions were
followed by a handler.
-/

namespace Tvntd

open Function

/-- Where a call of `task_submit` is. -/
inductive SubmitPc where
  | fresh
  /-- Before the call of `schedule`. -/
  | schedule
  | returned
  deriving DecidableEq

/-- Where an execution of `req_exec_task` is, with its `pending` and its `loop`. -/
inductive ExecPc where
  | out
  | load (loop : Nat)
  /-- Before the call of `task_handler`. -/
  | enter (pending : Int) (loop : Nat)
  | handler (pending : Int) (loop : Nat)
  | subtract (pending : Int) (loop : Nat)
  /-- An assertion failed. -/
  | failed
  deriving DecidableEq

/-- Between the beginning and the end of `task_handler`. -/
def ExecPc.inHandler : ExecPc → Bool
  | .handler _ _ => true
  | _ => false

structure Task (Call Thread : Type) where
  tskPend : Int
  call : Call → SubmitPc
  /-- How often the pool has the task and has not begun to execute it. -/
  scheduled : Nat
  exec : Thread → ExecPc
  rises : Nat
  handed : Nat
  followed : Call → Bool

namespace Task

set_option linter.unusedSectionVars false

variable {Call Thread : Type} [DecidableEq Call] [DecidableEq Thread]

/-- The arithmetic of an `atomic_int`. -/
def wrap (n : Int) : Int := Int.bmod n (2 ^ 32)

def setExec (task : Task Call Thread) (thread : Thread) (pc : ExecPc) : Task Call Thread :=
  { task with exec := update task.exec thread pc }

/-- `task_submit` up to the call of `schedule`. -/
def taskSubmit (task : Task Call Thread) (call : Call) : Task Call Thread :=
  if task.tskPend = 0 then
    { task with
      tskPend := wrap (task.tskPend + 1)
      call := update task.call call .schedule
      rises := task.rises + 1 }
  else
    { task with
      tskPend := wrap (task.tskPend + 1)
      call := update task.call call .returned }

/-- The task is handed to the pool. -/
def schedule (task : Task Call Thread) (call : Call) : Task Call Thread :=
  { task with
    call := update task.call call .returned
    scheduled := task.scheduled + 1
    handed := task.handed + 1 }

/-- A thread of the pool, or a submitter in its place, executes the task. -/
def execute (task : Task Call Thread) (thread : Thread) : Task Call Thread :=
  { task with scheduled := task.scheduled - 1 }.setExec thread (.load 0)

def load (task : Task Call Thread) (thread : Thread) (loop : Nat) : Task Call Thread :=
  if 0 < task.tskPend then task.setExec thread (.enter task.tskPend loop)
  else task.setExec thread .failed

/-- A handler follows all submissions up to now. -/
def follow (task : Task Call Thread) : Task Call Thread :=
  { task with followed := fun call => task.followed call || decide (task.call call ≠ SubmitPc.fresh) }

/-- `task_handler` begins. -/
def enter (task : Task Call Thread) (thread : Thread) (pending : Int) (loop : Nat) :
    Task Call Thread :=
  task.follow.setExec thread (.handler pending loop)

/-- `task_handler` ends. -/
def leave (task : Task Call Thread) (thread : Thread) (pending : Int) (loop : Nat) :
    Task Call Thread :=
  if loop + 1 < 1000 then task.setExec thread (.subtract pending (loop + 1))
  else task.setExec thread .failed

/-- The condition of the loop. -/
def subtract (task : Task Call Thread) (thread : Thread) (pending : Int) (loop : Nat) :
    Task Call Thread :=
  let next := { task with tskPend := wrap (task.tskPend - pending) }
  if task.tskPend ≠ pending then next.setExec thread (.load loop) else next.setExec thread .out

/-- The steps of submitters and handlers. -/
inductive Act (Call Thread : Type) where
  | submit (call : Call)
  | schedule (call : Call)
  | execute (thread : Thread)
  | load (thread : Thread)
  | enter (thread : Thread)
  | leave (thread : Thread)
  | subtract (thread : Thread)

def step (task : Task Call Thread) : Act Call Thread → Option (Task Call Thread)
  | .submit call => if task.call call = .fresh then some (task.taskSubmit call) else none
  | .schedule call => if task.call call = .schedule then some (task.schedule call) else none
  | .execute thread =>
      if task.exec thread = .out ∧ 0 < task.scheduled then some (task.execute thread) else none
  | .load thread =>
      match task.exec thread with
      | .load loop => some (task.load thread loop)
      | _ => none
  | .enter thread =>
      match task.exec thread with
      | .enter pending loop => some (task.enter thread pending loop)
      | _ => none
  | .leave thread =>
      match task.exec thread with
      | .handler pending loop => some (task.leave thread pending loop)
      | _ => none
  | .subtract thread =>
      match task.exec thread with
      | .subtract pending loop => some (task.subtract thread pending loop)
      | _ => none

def machine (Call Thread : Type) [DecidableEq Call] [DecidableEq Thread] :
    Machine (Task Call Thread) (Act Call Thread) Unit :=
  ⟨fun task act => (task.step act).map (·, ())⟩

/-- The constructor. -/
def new : Task Call Thread :=
  ⟨0, fun _ => .fresh, 0, fun _ => .out, 0, 0, fun _ => false⟩

/-- The guard of the loop is not reached. -/
def Turning (task : Task Call Thread) : Act Call Thread → Prop
  | .leave thread =>
      match task.exec thread with
      | .handler _ loop => loop + 1 < 1000
      | _ => True
  | _ => True

/-- The counter does not overflow. -/
def Counts (task : Task Call Thread) : Act Call Thread → Prop
  | .submit _ => task.tskPend < 2 ^ 31 - 1
  | _ => True

/-- Neither of the guards of a run is reached. -/
def Guarded (task : Task Call Thread) (act : Act Call Thread) : Prop :=
    Turning task act ∧ Counts task act

instance (task : Task Call Thread) : DecidablePred task.Turning := fun act => by
  unfold Turning
  split
  · split
    all_goals infer_instance
  · infer_instance

instance (task : Task Call Thread) : DecidablePred task.Counts := fun act => by
  unfold Counts
  split
  all_goals infer_instance

instance (task : Task Call Thread) : DecidablePred task.Guarded := fun _ =>
  inferInstanceAs (Decidable (_ ∧ _))

/-- A step of the submissions and the executions that are under way. -/
def Act.Progress : Act Call Thread → Prop
  | .submit _ => False
  | _ => True

instance : DecidablePred (Act.Progress : Act Call Thread → Prop)
  | .submit _ => isFalse id
  | .schedule _ | .execute _ | .load _ | .enter _ | .leave _ | .subtract _ => isTrue trivial

/-- What `task_submit` promises. A submission that no handler has followed yet is never left alone:
something is under way, and after four steps of it a handler has begun. -/
structure Sound (task : Task Call Thread) : Prop where
  exclusive : ∀ first second pending loop other turn, task.exec first = .handler pending loop →
    task.exec second = .handler other turn → first = second
  awake : ∀ call, task.call call ≠ .fresh → task.followed call = false →
    ∃ act : Act Call Thread, act.Progress ∧ (task.step act).isSome
  followed : ∀ call, task.call call ≠ .fresh → ∀ labels final outputs,
    (machine Call Thread).Meets Guarded task labels →
      (machine Call Thread).run task labels = some (final, outputs) → final.followed call = false →
        labels.countP (fun act => act.Progress) ≤ 4
  handing : ∀ call, task.call call = .schedule → task.scheduled = 0 ∧ ∀ thread,
    task.exec thread = .out
  handed : task.handed = task.rises ∨
    task.handed + 1 = task.rises ∧ ∃ call, task.call call = .schedule
  nonneg : 0 ≤ task.tskPend
  asserted : ∀ thread, task.exec thread ≠ .failed

/-! ## The owner -/

/-- Who owns the task. -/
inductive Phase (Call Thread : Type) where
  | idle
  | handing (call : Call)
  | queued
  | executing (thread : Thread)

/-- How often the pool has the task. -/
def Phase.scheduled : Phase Call Thread → Nat
  | .queued => 1
  | _ => 0

/-- How often the task is still to be handed to the pool. -/
def Phase.unhanded : Phase Call Thread → Nat
  | .handing _ => 1
  | _ => 0

/-- How far a task is from the next call of its handler. -/
def Phase.distance (task : Task Call Thread) : Phase Call Thread → Nat
  | .idle => 0
  | .handing _ => 4
  | .queued => 3
  | .executing thread =>
      match task.exec thread with
      | .handler _ _ => 4
      | .subtract _ _ => 3
      | .load _ => 2
      | .enter _ _ => 1
      | _ => 0

/-- What an execution relies on. Behind the beginning of a handler the submissions that came later
are not in `pending`. -/
def Turn (task : Task Call Thread) : ExecPc → Prop
  | .load _ => True
  | .enter pending _ => 0 < pending ∧ pending ≤ task.tskPend
  | .handler pending _ | .subtract pending _ => 0 < pending ∧ pending ≤ task.tskPend ∧
      ∀ call, task.call call ≠ .fresh → task.followed call = false → pending < task.tskPend
  | .out | .failed => False

/-- The owner, and nobody else, has the task. -/
structure Owned (task : Task Call Thread) (phase : Phase Call Thread) : Prop where
  nonneg : 0 ≤ task.tskPend
  below : task.tskPend < 2 ^ 31
  idle : task.tskPend = 0 ↔ phase = .idle
  call : ∀ call, task.call call = .schedule ↔ phase = .handing call
  scheduled : task.scheduled = phase.scheduled
  exec : ∀ thread, task.exec thread ≠ .out → phase = .executing thread
  turn : ∀ thread, phase = .executing thread → Turn task (task.exec thread)
  settled : phase = .idle → ∀ call, task.call call ≠ .fresh → task.followed call = true
  recorded : task.rises = task.handed + phase.unhanded

variable {task next : Task Call Thread} {phase : Phase Call Thread}

private theorem wrap_of_range {n : Int} (nonneg : 0 ≤ n) (below : n < 2 ^ 31) : wrap n = n := by
  unfold wrap
  rw [Int.bmod_def]
  omega

theorem Owned.out (owned : Owned task phase) {thread : Thread} (away : phase ≠ .executing thread) :
    task.exec thread = .out := by
  by_cases out : task.exec thread = .out
  · exact out
  · exact (away (owned.exec thread out)).elim

/-- An owner that executes is where the threads say. -/
theorem Owned.executing (owned : Owned task phase) {thread : Thread} {pc : ExecPc}
    (here : task.exec thread = pc) (up : pc ≠ .out) : phase = .executing thread :=
  owned.exec thread (here ▸ up)

/-- What a step does for the submissions that wait for a handler. -/
structure Advances (task next : Task Call Thread) (phase after : Phase Call Thread)
    (act : Act Call Thread) : Prop where
  progress : act.Progress → (∀ call, task.call call ≠ .fresh → next.followed call = true) ∨
    after.distance next < phase.distance task
  submit : ¬ act.Progress → phase ≠ .idle → after.distance next = phase.distance task

theorem Owned.taskSubmit (owned : Owned task phase) {call : Call} (fresh : task.call call = .fresh)
    (counts : task.tskPend < 2 ^ 31 - 1) : ∃ after, Owned (task.taskSubmit call) after ∧
      Advances task (task.taskSubmit call) phase after (.submit call) := by
  obtain ⟨nonneg, below, idle, called, scheduled, exec, turn, settled, recorded⟩ := owned
  have wrapped : wrap (task.tskPend + 1) = task.tskPend + 1 := wrap_of_range (by omega) (by omega)
  have unowned : phase ≠ .handing call := by
    intro hands
    rw [(called call).mpr hands] at fresh
    cases fresh
  unfold Task.taskSubmit
  by_cases zero : task.tskPend = 0
  · obtain rfl := idle.mp zero
    rw [if_pos zero]
    refine ⟨.handing call, ⟨?_, ?_, ?_, ?_, scheduled, ?_, nofun, nofun, ?_⟩, fun none => none.elim,
      fun _ some_ => (some_ rfl).elim⟩
    · dsimp only
      omega
    · dsimp only
      omega
    · refine iff_of_false ?_ nofun
      dsimp only
      omega
    · intro other
      by_cases same : other = call
      · subst same
        exact iff_of_true (update_self ..) rfl
      · refine iff_of_false ?_ fun hands => same (Phase.handing.inj hands).symm
        dsimp only
        rw [update_of_ne same, called other]
        nofun
    · exact fun thread up => nomatch exec thread up
    · dsimp only [Phase.unhanded] at recorded ⊢
      omega
  · have some_ : phase ≠ .idle := fun idles => zero (idle.mpr idles)
    rw [if_neg zero]
    refine ⟨phase, ⟨?_, ?_, ?_, ?_, scheduled, exec, ?_, fun idles => (some_ idles).elim, recorded⟩,
      fun none => none.elim, fun _ _ => rfl⟩
    · dsimp only
      omega
    · dsimp only
      omega
    · refine iff_of_false ?_ some_
      dsimp only
      omega
    · intro other
      dsimp only
      by_cases same : other = call
      · subst same
        rw [update_self]
        exact iff_of_false nofun unowned
      · rw [update_of_ne same]
        exact called other
    · intro thread executes
      have before := turn thread executes
      change Turn _ (task.exec thread)
      generalize task.exec thread = pc at before ⊢
      -- The new submission is not in `pending`, and the counter is above it now.
      cases pc with
      | out | failed => exact before
      | load => trivial
      | enter pending loop =>
          obtain ⟨positive, taken⟩ := before
          refine ⟨positive, ?_⟩
          dsimp only
          omega
      | handler pending loop | subtract pending loop =>
          obtain ⟨positive, taken, -⟩ := before
          refine ⟨positive, ?_, fun _ _ _ => ?_⟩
          · dsimp only
            omega
          · dsimp only
            omega

theorem Owned.schedule (owned : Owned task phase) {call : Call}
    (here : task.call call = .schedule) :
    ∃ after, Owned (task.schedule call) after ∧
      Advances task (task.schedule call) phase after (.schedule call) := by
  obtain ⟨nonneg, below, idle, called, scheduled, exec, turn, settled, recorded⟩ := owned
  obtain rfl := (called call).mp here
  unfold Task.schedule
  refine ⟨.queued, ⟨nonneg, below, ?_, ?_, ?_, ?_, nofun, nofun, ?_⟩, fun _ => .inr ?_, fun none => (none trivial).elim⟩
  · exact iff_of_false (fun zero => nomatch idle.mp zero) nofun
  · intro other
    refine iff_of_false ?_ nofun
    dsimp only
    by_cases same : other = call
    · subst same
      rw [update_self]
      nofun
    · rw [update_of_ne same, called other]
      exact fun hands => same (Phase.handing.inj hands).symm
  · dsimp only [Phase.scheduled] at scheduled ⊢
    omega
  · exact fun thread up => nomatch exec thread up
  · dsimp only [Phase.unhanded] at recorded ⊢
    omega
  · exact Nat.lt_succ_self 3

theorem Owned.execute (owned : Owned task phase) {thread : Thread} (some_ : 0 < task.scheduled) :
    ∃ after, Owned (task.execute thread) after ∧
      Advances task (task.execute thread) phase after (.execute thread) := by
  obtain ⟨nonneg, below, idle, called, scheduled, exec, turn, settled, recorded⟩ := owned
  obtain rfl : phase = .queued := by
    cases phase with
    | queued => rfl
    | _ =>
        dsimp only [Phase.scheduled] at scheduled
        omega
  refine ⟨.executing thread, ⟨nonneg, below, ?_, ?_, ?_, ?_, ?_, nofun, recorded⟩, fun _ => .inr ?_,
    fun none => (none trivial).elim⟩
  · exact iff_of_false (fun zero => nomatch idle.mp zero) nofun
  · exact fun other => iff_of_false (fun here => nomatch (called other).mp here) nofun
  · dsimp only [Phase.scheduled] at scheduled
    change task.scheduled - 1 = 0
    omega
  · intro other up
    by_cases same : other = thread
    · rw [same]
    · simp only [Task.execute, setExec, update_of_ne same] at up
      exact nomatch exec other up
  · intro other executes
    obtain rfl := Phase.executing.inj executes
    simp only [Task.execute, setExec, update_self, Turn]
  · simp only [Phase.distance, Task.execute, setExec, update_self]
    omega

/-- An execution goes on, with the counter above 0. -/
theorem Owned.goOnWith (owned : Owned task (.executing (thread : Thread))) {pend : Int}
    (positive : 0 < pend) (below : pend < 2 ^ 31) {pc : ExecPc}
    (turn : Turn { task with tskPend := pend } pc) :
    Owned ({ task with tskPend := pend }.setExec thread pc) (.executing thread) := by
  obtain ⟨-, -, -, called, scheduled, exec, -, -, recorded⟩ := owned
  refine ⟨Int.le_of_lt positive, below, iff_of_false (Int.ne_of_gt positive) nofun, called, scheduled,
    ?_, ?_, nofun, recorded⟩
  · intro other up
    by_cases same : other = thread
    · rw [same]
    · simp only [setExec, update_of_ne same] at up
      exact exec other up
  · intro other executes
    obtain rfl := Phase.executing.inj executes
    simp only [setExec, update_self]
    cases pc with
    | _ => exact turn

theorem Owned.positive (owned : Owned task phase) (some_ : phase ≠ .idle) : 0 < task.tskPend := by
  have nonneg := owned.nonneg
  have nonzero : task.tskPend ≠ 0 := fun zero => some_ (owned.idle.mp zero)
  omega

theorem Owned.goOn (owned : Owned task (.executing (thread : Thread))) {pc : ExecPc}
    (turn : Turn task pc) : Owned (task.setExec thread pc) (.executing thread) :=
  owned.goOnWith (owned.positive nofun) owned.below turn

theorem Owned.load (owned : Owned task phase) {thread : Thread} {loop : Nat}
    (here : task.exec thread = .load loop) : ∃ after, Owned (task.load thread loop) after ∧
      Advances task (task.load thread loop) phase after (.load thread) := by
  obtain rfl := owned.executing here nofun
  have positive := owned.positive nofun
  unfold Task.load
  rw [if_pos positive]
  refine ⟨_, owned.goOn ⟨positive, Int.le_refl _⟩, fun _ => .inr ?_, fun none => (none trivial).elim⟩
  simp only [Phase.distance, setExec, update_self, here]
  omega

theorem Owned.enter (owned : Owned task phase) {thread : Thread} {pending : Int} {loop : Nat}
    (here : task.exec thread = .enter pending loop) : ∃ after,
      Owned (task.enter thread pending loop) after ∧
        Advances task (task.enter thread pending loop) phase after (.enter thread) := by
  obtain rfl := owned.executing here nofun
  have turn := owned.turn thread rfl
  rw [here] at turn
  obtain ⟨nonneg, below, idle, called, scheduled, exec, turns, -, recorded⟩ := owned
  -- All submissions are followed from here on.
  have followed : Owned task.follow (.executing thread) := by
    refine ⟨nonneg, below, idle, called, scheduled, exec, fun other executes => ?_, nofun, recorded⟩
    obtain rfl := Phase.executing.inj executes
    change Turn _ (task.exec thread)
    rw [here]
    exact turn
  have all : ∀ call, task.call call ≠ .fresh → task.follow.followed call = true := by
    intro call submitted
    unfold follow
    dsimp only
    rw [decide_eq_true submitted, Bool.or_true]
  refine ⟨_, followed.goOn ⟨turn.1, turn.2, fun call submitted behind => ?_⟩, fun _ => .inl all,
    fun none => (none trivial).elim⟩
  rw [all call submitted] at behind
  cases behind

theorem Owned.leave (owned : Owned task phase) {thread : Thread} {pending : Int} {loop : Nat}
    (here : task.exec thread = .handler pending loop) (below : loop + 1 < 1000) : ∃ after,
      Owned (task.leave thread pending loop) after ∧
        Advances task (task.leave thread pending loop) phase after (.leave thread) := by
  obtain rfl := owned.executing here nofun
  have turn := owned.turn thread rfl
  rw [here] at turn
  unfold Task.leave
  rw [if_pos below]
  refine ⟨_, owned.goOn turn, fun _ => .inr ?_, fun none => (none trivial).elim⟩
  simp only [Phase.distance, setExec, update_self, here]
  omega

theorem Owned.subtract (owned : Owned task phase) {thread : Thread} {pending : Int} {loop : Nat}
    (here : task.exec thread = .subtract pending loop) : ∃ after,
      Owned (task.subtract thread pending loop) after ∧
        Advances task (task.subtract thread pending loop) phase after (.subtract thread) := by
  obtain rfl := owned.executing here nofun
  have turn := owned.turn thread rfl
  rw [here] at turn
  obtain ⟨positive, taken, later⟩ := turn
  have ⟨nonneg, below, idle, called, scheduled, exec, _, _, recorded⟩ := owned
  have wrapped : wrap (task.tskPend - pending) = task.tskPend - pending :=
    wrap_of_range (by omega) (by omega)
  unfold Task.subtract
  dsimp only
  rw [wrapped]
  by_cases last : task.tskPend = pending
  · rw [if_neg (not_not.mpr last)]
    refine ⟨.idle, ⟨?_, ?_, ?_, ?_, scheduled, ?_, nofun, ?_, recorded⟩, fun _ => .inr ?_,
      fun none => (none trivial).elim⟩
    · change 0 ≤ task.tskPend - pending
      omega
    · change task.tskPend - pending < 2 ^ 31
      omega
    · refine iff_of_true ?_ rfl
      change task.tskPend - pending = 0
      omega
    · exact fun call => iff_of_false (fun hands => nomatch (called call).mp hands) nofun
    · intro other up
      by_cases same : other = thread
      · subst same
        simp only [setExec, update_self] at up
        exact (up rfl).elim
      · simp only [setExec, update_of_ne same] at up
        exact (same (Phase.executing.inj (exec other up)).symm).elim
    · intro _ call submitted
      change task.followed call = true
      by_contra behind
      have above := later call submitted (Bool.not_eq_true _ ▸ behind)
      omega
    · simp only [Phase.distance, here]
      omega
  · rw [if_pos last]
    refine ⟨_, owned.goOnWith (by omega) (by omega) trivial, fun _ => .inr ?_, fun none => (none trivial).elim⟩
    simp only [Phase.distance, setExec, update_self, here]
    omega

/-! ## Runs -/

/-- **Every step keeps an owner, and the owner goes on.** -/
theorem Owned.step (owned : Owned task phase) {act : Act Call Thread} (guarded : Guarded task act)
    (stepped : task.step act = some next) :
    ∃ after, Owned next after ∧ Advances task next phase after act := by
  cases act with
  | submit call =>
      obtain ⟨fresh, same⟩ := Option.ite_none_right_eq_some.mp stepped
      cases same
      exact owned.taskSubmit fresh guarded.2
  | schedule call =>
      obtain ⟨here, same⟩ := Option.ite_none_right_eq_some.mp stepped
      cases same
      exact owned.schedule here
  | execute thread =>
      obtain ⟨here, same⟩ := Option.ite_none_right_eq_some.mp stepped
      cases same
      exact owned.execute here.2
  | load thread =>
      cases here : task.exec thread with
      | load loop =>
          simp only [Task.step, here, Option.some.injEq] at stepped
          exact stepped ▸ owned.load here
      | _ => simp [Task.step, here] at stepped
  | enter thread =>
      cases here : task.exec thread with
      | enter pending loop =>
          simp only [Task.step, here, Option.some.injEq] at stepped
          exact stepped ▸ owned.enter here
      | _ => simp [Task.step, here] at stepped
  | leave thread =>
      cases here : task.exec thread with
      | handler pending loop =>
          simp only [Task.step, here, Option.some.injEq] at stepped
          have turning : match task.exec thread with | .handler _ loop => loop + 1 < 1000 | _ => True :=
            guarded.1
          rw [here] at turning
          exact stepped ▸ owned.leave here turning
      | _ => simp [Task.step, here] at stepped
  | subtract thread =>
      cases here : task.exec thread with
      | subtract pending loop =>
          simp only [Task.step, here, Option.some.injEq] at stepped
          exact stepped ▸ owned.subtract here
      | _ => simp [Task.step, here] at stepped

theorem step_of_machine {act : Act Call Thread} {output : Unit}
    (stepped : (machine Call Thread).step task act = some (next, output)) :
    task.step act = some next := by
  obtain ⟨after, took, same⟩ := Option.map_eq_some_iff.mp stepped
  cases same
  exact took

private theorem preserves_owned :
    (machine Call Thread).Preserves Guarded fun task => ∃ phase, Owned task phase := by
  rintro task act next output ⟨phase, owned⟩ guarded stepped
  obtain ⟨after, still, -⟩ := owned.step guarded (step_of_machine stepped)
  exact ⟨after, still⟩

/-- A submission stays one, and stays followed. -/
theorem kept_of_step {act : Act Call Thread} (stepped : task.step act = some next) (call : Call) :
    (task.call call ≠ .fresh → next.call call ≠ .fresh) ∧
      (task.followed call = true → next.followed call = true) := by
  have updated : ∀ other {pc : SubmitPc}, pc ≠ .fresh →
      task.call call ≠ .fresh → update task.call other pc call ≠ .fresh := by
    intro other pc behind before
    by_cases same : call = other
    · subst same
      rw [update_self]
      exact behind
    · rw [update_of_ne same]
      exact before
  cases act with
  | submit other =>
      obtain ⟨-, same⟩ := Option.ite_none_right_eq_some.mp stepped
      cases same
      unfold Task.taskSubmit
      split
      · exact ⟨updated other nofun, id⟩
      · exact ⟨updated other nofun, id⟩
  | schedule other =>
      obtain ⟨-, same⟩ := Option.ite_none_right_eq_some.mp stepped
      cases same
      exact ⟨updated other nofun, id⟩
  | execute thread =>
      obtain ⟨-, same⟩ := Option.ite_none_right_eq_some.mp stepped
      cases same
      exact ⟨id, id⟩
  | load thread =>
      cases here : task.exec thread with
      | load loop =>
          simp only [Task.step, here, Option.some.injEq] at stepped
          subst stepped
          unfold Task.load
          split
          · exact ⟨id, id⟩
          · exact ⟨id, id⟩
      | _ => simp [Task.step, here] at stepped
  | enter thread =>
      cases here : task.exec thread with
      | enter pending loop =>
          simp only [Task.step, here, Option.some.injEq] at stepped
          subst stepped
          refine ⟨id, fun followed => ?_⟩
          change (task.followed call || _) = true
          rw [followed, Bool.true_or]
      | _ => simp [Task.step, here] at stepped
  | leave thread =>
      cases here : task.exec thread with
      | handler pending loop =>
          simp only [Task.step, here, Option.some.injEq] at stepped
          subst stepped
          unfold Task.leave
          split
          · exact ⟨id, id⟩
          · exact ⟨id, id⟩
      | _ => simp [Task.step, here] at stepped
  | subtract thread =>
      cases here : task.exec thread with
      | subtract pending loop =>
          simp only [Task.step, here, Option.some.injEq] at stepped
          subst stepped
          unfold Task.subtract
          dsimp only
          split
          · exact ⟨id, id⟩
          · exact ⟨id, id⟩
      | _ => simp [Task.step, here] at stepped

/-- Only its own step makes a call a submission. -/
theorem submit_of_step {act : Act Call Thread} (stepped : task.step act = some next) {call : Call}
    (fresh : task.call call = .fresh) (late : next.call call ≠ .fresh) : act = .submit call := by
  by_contra other
  apply late
  rw [← fresh]
  cases act with
  | submit own =>
      obtain ⟨-, same⟩ := Option.ite_none_right_eq_some.mp stepped
      have apart : call ≠ own := fun same => other (same ▸ rfl)
      cases same
      unfold Task.taskSubmit
      split
      · exact update_of_ne apart ..
      · exact update_of_ne apart ..
  | schedule own =>
      obtain ⟨here, same⟩ := Option.ite_none_right_eq_some.mp stepped
      have apart : call ≠ own := by
        rintro rfl
        rw [fresh] at here
        cases here
      cases same
      exact update_of_ne apart ..
  | execute thread =>
      obtain ⟨-, same⟩ := Option.ite_none_right_eq_some.mp stepped
      cases same
      rfl
  | load thread =>
      simp only [Task.step] at stepped
      split at stepped
      · rw [← Option.some.inj stepped]
        unfold Task.load
        split <;> rfl
      · cases stepped
  | enter thread | leave thread | subtract thread =>
      simp only [Task.step] at stepped
      split at stepped
      · rw [← Option.some.inj stepped]
        first
          | rfl
          | (unfold Task.leave; split <;> rfl)
          | (unfold Task.subtract; dsimp only; split <;> rfl)
      · cases stepped

/-- A step that neither begins nor ends a handler. -/
def Act.Plain : Act Call Thread → Prop
  | .enter _ | .leave _ => False
  | _ => True

/-- Only the beginning of a handler is recorded. -/
theorem followed_of_step {act : Act Call Thread} (plain : act.Plain)
    (stepped : task.step act = some next) : next.followed = task.followed := by
  cases act with
  | enter | leave => exact plain.elim
  | submit call =>
      obtain ⟨-, same⟩ := Option.ite_none_right_eq_some.mp stepped
      cases same
      unfold Task.taskSubmit
      split <;> rfl
  | schedule call | execute call =>
      obtain ⟨-, same⟩ := Option.ite_none_right_eq_some.mp stepped
      cases same
      rfl
  | load thread | subtract thread =>
      simp only [Task.step] at stepped
      split at stepped
      · rw [← Option.some.inj stepped]
        first
          | (unfold Task.load; split <;> rfl)
          | (unfold Task.subtract; dsimp only; split <;> rfl)
      · cases stepped

/-- A thread that does not run the handler is moved to a place outside the handler. -/
theorem inHandler_setExec (task : Task Call Thread) {thread : Thread} {pc : ExecPc}
    (before : (task.exec thread).inHandler = false) (after : pc.inHandler = false)
    (other : Thread) :
    ((task.setExec thread pc).exec other).inHandler = (task.exec other).inHandler := by
  unfold setExec
  dsimp only
  by_cases same : other = thread
  · subst same
    rw [update_self, before, after]
  · rw [update_of_ne same]

theorem inHandler_of_step {act : Act Call Thread} (plain : act.Plain)
    (stepped : task.step act = some next) (other : Thread) :
    (next.exec other).inHandler = (task.exec other).inHandler := by
  cases act with
  | enter | leave => exact plain.elim
  | submit call =>
      obtain ⟨-, same⟩ := Option.ite_none_right_eq_some.mp stepped
      cases same
      unfold Task.taskSubmit
      split <;> rfl
  | schedule call =>
      obtain ⟨-, same⟩ := Option.ite_none_right_eq_some.mp stepped
      cases same
      rfl
  | execute thread =>
      obtain ⟨here, same⟩ := Option.ite_none_right_eq_some.mp stepped
      cases same
      exact inHandler_setExec { task with scheduled := task.scheduled - 1 }
        (congrArg ExecPc.inHandler here.1) rfl other
  | load thread =>
      cases here : task.exec thread with
      | load loop =>
          simp only [Task.step, here, Option.some.injEq] at stepped
          have out := congrArg ExecPc.inHandler here
          rw [← stepped]
          unfold Task.load
          split
          · exact inHandler_setExec task out rfl other
          · exact inHandler_setExec task out rfl other
      | _ => simp [Task.step, here] at stepped
  | subtract thread =>
      cases here : task.exec thread with
      | subtract pending loop =>
          simp only [Task.step, here, Option.some.injEq] at stepped
          have out := congrArg ExecPc.inHandler here
          rw [← stepped]
          unfold Task.subtract
          dsimp only
          split
          · exact inHandler_setExec { task with tskPend := wrap (task.tskPend - pending) } out rfl other
          · exact inHandler_setExec { task with tskPend := wrap (task.tskPend - pending) } out rfl other
      | _ => simp [Task.step, here] at stepped

private theorem followed_of_run {labels : List (Act Call Thread)} {final : Task Call Thread}
    {outputs : List Unit}
    {call : Call} (followed : task.followed call = true)
    (ran : (machine Call Thread).run task labels = some (final, outputs)) :
    final.followed call = true := by
  have preserves : (machine Call Thread).Preserves (fun _ _ => True) (·.followed call = true) :=
    fun _ _ _ _ followed _ stepped => (kept_of_step (step_of_machine stepped) call).2 followed
  exact preserves.run followed (Machine.meets_of_forall (fun _ _ => trivial) _ _) ran

/-- As long as a submission is not followed, the owner comes closer to the next handler with every
step. -/
theorem Owned.countP_le {labels : List (Act Call Thread)} {call : Call} :
    ∀ {task final : Task Call Thread} {phase : Phase Call Thread} {outputs : List Unit},
      Owned task phase → task.call call ≠ .fresh → (machine Call Thread).Meets Guarded task labels →
        (machine Call Thread).run task labels = some (final, outputs) →
          final.followed call = false →
          labels.countP (fun act => act.Progress) ≤ phase.distance task := by
  induction labels with
  | nil => exact fun _ _ _ _ _ => Nat.zero_le _
  | cons act rest ih =>
      intro task final phase outputs owned submitted guarded ran behind
      obtain ⟨next, output, later, stepped, tail, -⟩ := Machine.run_cons_eq_some ran
      have took := step_of_machine stepped
      obtain ⟨after, still, advances⟩ := owned.step guarded.1 took
      have least := ih still ((kept_of_step took call).1 submitted)
        (guarded.tail stepped) tail behind
      rw [List.countP_cons]
      by_cases progress : act.Progress
      · rcases advances.progress progress with followed | closer
        · rw [followed_of_run (followed call submitted) tail] at behind
          cases behind
        · rw [if_pos (decide_eq_true progress)]
          omega
      · have waits : phase ≠ .idle := by
          intro idle
          rw [followed_of_run (owned.settled idle call submitted) ran] at behind
          cases behind
        rw [if_neg (by simpa using progress), ← advances.submit progress waits]
        exact least

private theorem Phase.distance_le (task : Task Call Thread) (phase : Phase Call Thread) :
    phase.distance task ≤ 4 := by
  unfold Phase.distance
  split
  · omega
  · omega
  · omega
  · split
    all_goals omega

/-- An owner can go on. -/
theorem Owned.awake [Nonempty Thread] (owned : Owned task phase) (some_ : phase ≠ .idle) :
    ∃ act : Act Call Thread, act.Progress ∧ (task.step act).isSome := by
  cases phase with
  | idle => exact (some_ rfl).elim
  | handing call =>
      refine ⟨.schedule call, trivial, ?_⟩
      simp only [Task.step, (owned.call call).mpr rfl, if_true, Option.isSome_some]
  | queued =>
      have ⟨thread⟩ := ‹Nonempty Thread›
      have out : task.exec thread = .out := owned.out nofun
      have scheduled : task.scheduled = 1 := owned.scheduled
      refine ⟨.execute thread, trivial, ?_⟩
      simp [Task.step, out, scheduled]
  | executing thread =>
      have turn := owned.turn thread rfl
      cases here : task.exec thread with
      | out | failed =>
          rw [here] at turn
          exact turn.elim
      | load loop =>
          exact ⟨.load thread, trivial, by simp only [Task.step, here, Option.isSome_some]⟩
      | enter pending loop =>
          exact ⟨.enter thread, trivial, by simp only [Task.step, here, Option.isSome_some]⟩
      | handler pending loop =>
          exact ⟨.leave thread, trivial, by simp only [Task.step, here, Option.isSome_some]⟩
      | subtract pending loop =>
          exact ⟨.subtract thread, trivial, by simp only [Task.step, here, Option.isSome_some]⟩

theorem Owned.sound [Nonempty Thread] (owned : Owned task phase) : Sound task where
  exclusive := by
    intro first second pending loop other turn here there
    have same := (owned.executing here nofun).symm.trans (owned.executing there nofun)
    exact Phase.executing.inj same
  awake := by
    intro call submitted behind
    refine owned.awake fun idle => ?_
    rw [owned.settled idle call submitted] at behind
    cases behind
  followed := fun call submitted labels final outputs guarded ran behind =>
    Nat.le_trans (owned.countP_le submitted guarded ran behind) (phase.distance_le task)
  handing := by
    intro call here
    obtain rfl := (owned.call call).mp here
    exact ⟨owned.scheduled, fun thread => owned.out nofun⟩
  handed := by
    have recorded := owned.recorded
    cases phase with
    | handing call => exact .inr ⟨recorded.symm, call, (owned.call call).mpr rfl⟩
    | _ => exact .inl recorded.symm
  nonneg := owned.nonneg
  asserted := by
    intro thread failed
    have turn := owned.turn thread (owned.executing failed nofun)
    rw [failed] at turn
    exact turn

theorem new_owned : Owned (new : Task Call Thread) .idle where
  nonneg := Int.le_refl 0
  below := by
    change (0 : Int) < 2 ^ 31
    decide
  idle := iff_of_true rfl rfl
  call := fun _ => iff_of_false nofun nofun
  scheduled := rfl
  exec := fun _ up => (up rfl).elim
  turn := nofun
  settled := fun _ _ submitted => (submitted rfl).elim
  recorded := rfl

/-- **Every task is sound, as long as its counter does not overflow.** -/
theorem sound_of_reached [Nonempty Thread]
    (reached : (machine Call Thread).Reached (· = new) Guarded task) : Sound task := by
  obtain ⟨phase, owned⟩ := preserves_owned.reached
    (fun _ start => ⟨.idle, start ▸ new_owned⟩) reached
  exact owned.sound

section Submits

/-- A submission, and another one while the handler runs. -/
def twice : List (Act Nat Unit) :=
  [.submit 0, .schedule 0, .execute (), .load (), .enter (), .submit 1, .leave (), .subtract (), .load (),
    .enter (), .leave (), .subtract ()]

private theorem twice_runs : ((machine Nat Unit).run new twice).isSome = true := by
  decide +kernel

theorem sound_of_reached_twice : Sound ((machine Nat Unit).final new twice twice_runs) := by
  have guarded : (machine Nat Unit).Meets Guarded new twice := by decide +kernel
  have reached : (machine Nat Unit).Reached (· = new) Guarded
    ((machine Nat Unit).final new twice twice_runs) :=
    ⟨new, twice, _, rfl, guarded, (Option.some_get twice_runs).symm⟩
  exact sound_of_reached reached

/-- Many submissions, before anything else happens. -/
def submits (count : Nat) : List (Act Nat Unit) := (List.range count).map .submit

theorem step_submit {before : Task Nat Unit} {call : Nat} (fresh : before.call call = .fresh) :
    (machine Nat Unit).step before (.submit call) = some (before.taskSubmit call, ()) := by
  change (before.step (.submit call)).map (·, ()) = _
  rw [Task.step, if_pos fresh, Option.map_some]

theorem tskPend_taskSubmit (before : Task Nat Unit) (call : Nat) :
    (before.taskSubmit call).tskPend = wrap (before.tskPend + 1) := by
  unfold taskSubmit
  split
  · rfl
  · rfl

private theorem run_submits (count : Nat) (below : count < 2 ^ 31) : ∃ final outputs,
    (machine Nat Unit).run new (submits count) = some (final, outputs) ∧
      final.tskPend = (count : Int) ∧
      ∀ call, count ≤ call → final.call call = .fresh := by
  induction count with
  | zero => exact ⟨new, [], rfl, rfl, fun _ _ => rfl⟩
  | succ count ih =>
      obtain ⟨before, outputs, ran, pend, fresh⟩ := ih (by omega)
      have calls : ∀ call, count + 1 ≤ call → (before.taskSubmit count).call call = .fresh := by
        intro call later
        have apart : call ≠ count := by omega
        unfold taskSubmit
        split
        · exact (update_of_ne apart ..).trans (fresh call (by omega))
        · exact (update_of_ne apart ..).trans (fresh call (by omega))
      refine ⟨before.taskSubmit count, outputs ++ [()], ?_, ?_, calls⟩
      · unfold submits at ran ⊢
        rw [List.range_succ, List.map_append, List.map_singleton, Machine.run_concat, ran,
          Option.bind_some, step_submit (fresh count (Nat.le_refl count)), Option.map_some]
      · rw [tskPend_taskSubmit, pend, wrap_of_range (by omega) (by omega)]
        omega

/-- The counter of 2 ^ 31 submissions is negative. -/
theorem exists_turning_not_sound : ∃ task : Task Nat Unit,
    (machine Nat Unit).Reached (· = new) Turning task ∧ ¬ Sound task := by
  generalize last : 2 ^ 31 - 1 = count
  have positive : 0 < count := by omega
  obtain ⟨before, outputs, ran, pend, fresh⟩ := run_submits count (by omega)
  have all : ∀ act ∈ submits count ++ [.submit count], ∃ call, act = Act.submit call := by
    intro act inside
    rcases List.mem_append.mp inside with early | late
    · obtain ⟨call, -, rfl⟩ := List.mem_map.mp early
      exact ⟨call, rfl⟩
    · exact ⟨count, List.mem_singleton.mp late⟩
  have turning : (machine Nat Unit).Meets Turning new (submits count ++ [.submit count]) := by
    refine (Machine.meets_of_labels all new).mono ?_
    rintro task act ⟨call, rfl⟩
    trivial
  refine ⟨before.taskSubmit count, ⟨new, _, outputs ++ [()], rfl, turning, ?_⟩, fun sound => ?_⟩
  · rw [Machine.run_concat, ran, Option.bind_some, step_submit (fresh count (Nat.le_refl count)),
      Option.map_some]
  · have nonneg := sound.nonneg
    rw [tskPend_taskSubmit, pend, wrap, Int.bmod_def] at nonneg
    omega

end Submits

end Task

end Tvntd
