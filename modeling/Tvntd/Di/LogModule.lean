import Tvntd.Di.Task
import Tvntd.Lib.Placement

/-! # The log module

`get_buffer`, `log_buffer` and `flush_logs` of `common/di/logger.cpp`, with the task of the module.
A critical section under `l_mtx` is one step, and so is every call of `flush_buffer`; the steps of
the task are those of `Task`, whose handler is `flush_logs`.

A call takes a buffer, keeps it, and gives it to `log_buffer` once. The buffers are numbered in the
order of their allocation. An entry of `l_pending` is the buffer pushed; the call that pushed it is
not in the source, nor are the records of all pushes and all flushes.
-/

namespace Tvntd

open Function

/-- Where a call is with its buffer. -/
inductive LogCallPc where
  | fresh
  /-- `l_freebuf` was empty. -/
  | alloc
  | holds (buf : Nat)
  /-- Behind the push of `log_buffer`. -/
  | pushed
  deriving DecidableEq

/-- A buffer pushed, and the call. -/
structure LogEntry (Call : Type) where
  call : Call
  buf : Nat

/-- Where a thread is in `flush_logs`, with its local queues. -/
inductive FlushPc (Call : Type) where
  | out
  /-- Before the swap. -/
  | swap
  | flushing (locl : List (LogEntry Call)) (frbuf : List Nat)
  | done

def LogCallPc.bufs : LogCallPc → List Nat
  | .holds buf => [buf]
  | _ => []

namespace FlushPc

variable {Call : Type}

def isOut : FlushPc Call → Bool
  | .out => true
  | _ => false

/-- What is still to be flushed. -/
def locl : FlushPc Call → List (LogEntry Call)
  | .flushing locl _ => locl
  | _ => []

def frbuf : FlushPc Call → List Nat
  | .flushing _ frbuf => frbuf
  | _ => []

end FlushPc

structure LogModule (Call Thread : Type) where
  lFreebuf : List Nat
  lPending : List (LogEntry Call)
  lTask : Task Call Thread
  caller : Call → LogCallPc
  flush : Thread → FlushPc Call
  allocated : Nat
  pushed : List (LogEntry Call)
  flushed : List (LogEntry Call)

namespace LogModule

set_option linter.unusedSectionVars false

variable {Call Thread : Type} [DecidableEq Call] [DecidableEq Thread]

def setCaller (log : LogModule Call Thread) (call : Call) (pc : LogCallPc) :
    LogModule Call Thread :=
  { log with caller := update log.caller call pc }

def setFlush (log : LogModule Call Thread) (thread : Thread) (pc : FlushPc Call) :
    LogModule Call Thread :=
  { log with flush := update log.flush thread pc }

/-- The critical section of `get_buffer`. -/
def getBuffer (log : LogModule Call Thread) (call : Call) : LogModule Call Thread :=
  match log.lFreebuf with
  | [] => log.setCaller call .alloc
  | buf :: rest => { log with lFreebuf := rest }.setCaller call (.holds buf)

/-- The end of `get_buffer` with `new`. -/
def alloc (log : LogModule Call Thread) (call : Call) : LogModule Call Thread :=
  { log with allocated := log.allocated + 1 }.setCaller call (.holds log.allocated)

/-- The critical section of `log_buffer`. -/
def logBuffer (log : LogModule Call Thread) (call : Call) (buf : Nat) : LogModule Call Thread :=
  { log with
    lPending := log.lPending ++ [LogEntry.mk call buf]
    pushed := log.pushed ++ [LogEntry.mk call buf] }.setCaller call .pushed

/-- The first critical section of `flush_logs`. -/
def swap (log : LogModule Call Thread) (thread : Thread) : LogModule Call Thread :=
  { log with lPending := [] }.setFlush thread (.flushing log.lPending [])

/-- A turn of the loop of `flush_logs`. -/
def flushBuffer (log : LogModule Call Thread) (thread : Thread) (entry : LogEntry Call)
    (locl : List (LogEntry Call)) (frbuf : List Nat) : LogModule Call Thread :=
  { log with flushed := log.flushed ++ [entry] }.setFlush thread
    (.flushing locl (frbuf ++ [entry.buf]))

/-- The second critical section of `flush_logs`. -/
def giveBack (log : LogModule Call Thread) (thread : Thread) (frbuf : List Nat) :
    LogModule Call Thread :=
  { log with lFreebuf := log.lFreebuf ++ frbuf }.setFlush thread .done

/-- The steps of callers and of the writer. -/
inductive Act (Call Thread : Type) where
  | getBuffer (call : Call)
  | alloc (call : Call)
  | logBuffer (call : Call)
  | task (act : Task.Act Call Thread)
  | swap (thread : Thread)
  | flushBuffer (thread : Thread)
  | giveBack (thread : Thread)

/-- `log_buffer` submits the task behind its push, and the handler ends where `flush_logs` does. -/
def Admits (log : LogModule Call Thread) : Task.Act Call Thread → Bool
  | .submit call => log.caller call = .pushed
  | .leave thread => match log.flush thread with | .done => true | _ => false
  | _ => true

/-- `task_handler` is one call of `flush_logs`. -/
def handle (log : LogModule Call Thread) (act : Task.Act Call Thread) (lTask : Task Call Thread) :
    LogModule Call Thread :=
  match act with
  | .enter thread => { log with lTask := lTask }.setFlush thread .swap
  | .leave thread => { log with lTask := lTask }.setFlush thread .out
  | _ => { log with lTask := lTask }

def step (log : LogModule Call Thread) : Act Call Thread → Option (LogModule Call Thread)
  | .getBuffer call => if log.caller call = .fresh then some (log.getBuffer call) else none
  | .alloc call => if log.caller call = .alloc then some (log.alloc call) else none
  | .logBuffer call =>
      match log.caller call with
      | .holds buf => some (log.logBuffer call buf)
      | _ => none
  | .task act => if log.Admits act then (log.lTask.step act).map (log.handle act) else none
  | .swap thread =>
      match log.flush thread with
      | .swap => some (log.swap thread)
      | _ => none
  | .flushBuffer thread =>
      match log.flush thread with
      | .flushing (entry :: locl) frbuf => some (log.flushBuffer thread entry locl frbuf)
      | _ => none
  | .giveBack thread =>
      match log.flush thread with
      | .flushing [] frbuf => some (log.giveBack thread frbuf)
      | _ => none

def machine (Call Thread : Type) [DecidableEq Call] [DecidableEq Thread] :
    Machine (LogModule Call Thread) (Act Call Thread) Unit :=
  ⟨fun log act => (log.step act).map (·, ())⟩

/-- The module behind `mod_init`. -/
def new : LogModule Call Thread :=
  ⟨[], [], Task.new, fun _ => .fresh, fun _ => .out, 0, [], []⟩

/-- The guard of the task's loop is not reached. -/
def Turning (log : LogModule Call Thread) : Act Call Thread → Prop
  | .task act => log.lTask.Turning act
  | _ => True

/-- The counter of the task does not overflow. -/
def Counts (log : LogModule Call Thread) : Act Call Thread → Prop
  | .task act => log.lTask.Counts act
  | _ => True

/-- The conditions of the run. -/
def Guarded (log : LogModule Call Thread) (act : Act Call Thread) : Prop :=
  log.Turning act ∧ log.Counts act

instance (log : LogModule Call Thread) : DecidablePred log.Turning := fun act => by
  unfold Turning
  split
  all_goals infer_instance

instance (log : LogModule Call Thread) : DecidablePred log.Counts := fun act => by
  unfold Counts
  split
  all_goals infer_instance

instance (log : LogModule Call Thread) : DecidablePred log.Guarded := fun _ =>
  inferInstanceAs (Decidable (_ ∧ _))

/-! ## Places -/

/-- Where a buffer can be. -/
inductive BufPlace (Call Thread : Type) where
  | caller (call : Call)
  | lPending
  | locl (thread : Thread)
  | lFreebuf
  deriving DecidableEq

def contents (log : LogModule Call Thread) : BufPlace Call Thread → List Nat
  | .caller call => (log.caller call).bufs
  | .lPending => log.lPending.map (·.buf)
  | .locl thread => (log.flush thread).locl.map (·.buf) ++ (log.flush thread).frbuf
  | .lFreebuf => log.lFreebuf

/-! ## What the module promises -/

/-- A step that the call and the executions under way take on the way to a flush. -/
def Act.Progress (call : Call) : Act Call Thread → Prop
  | .task (.submit other) => other = call
  | .task _ | .swap _ | .flushBuffer _ | .giveBack _ => True
  | _ => False

instance (call : Call) : DecidablePred (Act.Progress call : Act Call Thread → Prop) := fun act => by
  unfold Act.Progress
  split
  all_goals infer_instance

/-- What the module promises. Flushes are the pushes so far, in their order; a push that is not
flushed yet is never left alone, and is flushed after a bounded number of the steps it waits for.
Every buffer is in one place, and once there. The queue is empty when the task rests. -/
structure Sound (log : LogModule Call Thread) : Prop where
  ordered : log.flushed <+: log.pushed
  awake : ∀ ahead entry behind, log.pushed = ahead ++ entry :: behind →
    log.flushed.length ≤ ahead.length →
      ∃ act : Act Call Thread, act.Progress entry.call ∧ (log.step act).isSome
  flushes : ∀ ahead entry behind, log.pushed = ahead ++ entry :: behind →
    log.flushed.length ≤ ahead.length → ∀ labels final outputs,
      (machine Call Thread).Meets Guarded log labels →
        (machine Call Thread).run log labels = some (final, outputs) →
          final.flushed.length ≤ ahead.length →
            labels.countP (fun act => act.Progress entry.call) ≤
              ahead.length - log.flushed.length + 11
  somewhere : ∀ buf < log.allocated, ∃ place, buf ∈ log.contents place ∧
    ∀ other, buf ∈ log.contents other → other = place
  once : ∀ place, (log.contents place).Nodup
  drained : log.lTask.tskPend = 0 →
    (∀ call, log.caller call = .pushed → log.lTask.call call = .returned) → log.lPending = []

/-! ## The invariant -/

/-- The owner of the task, and the entries a call of `flush_logs` has in its hands. -/
structure Kept (log : LogModule Call Thread) (phase : Task.Phase Call Thread)
    (inFlight : List (LogEntry Call)) : Prop where
  owned : Task.Owned log.lTask phase
  submitted : ∀ call, log.lTask.call call ≠ .fresh → log.caller call = .pushed
  unfollowed : ∀ call, log.lTask.call call = .fresh → log.lTask.followed call = false
  handler : ∀ thread, (log.lTask.exec thread).inHandler = !(log.flush thread).isOut
  flight : ∀ thread, (log.flush thread).isOut = false → (log.flush thread).locl = inFlight
  landed : (∀ thread, (log.flush thread).isOut = true) → inFlight = []
  queue : log.pushed = log.flushed ++ (inFlight ++ log.lPending)
  pushers : ∀ entry ∈ log.pushed, log.caller entry.call = .pushed
  waiting : ∀ entry ∈ log.lPending, log.lTask.call entry.call ≠ .fresh →
    log.lTask.followed entry.call = false ∨ ∃ thread, log.flush thread = .swap
  placed : Placement.Ledger (List.range log.allocated) (fun _ => false) log.contents

variable {log next : LogModule Call Thread} {phase after : Task.Phase Call Thread}
  {inFlight : List (LogEntry Call)}

/-- The one thread in `flush_logs`. -/
theorem Kept.executing (kept : Kept log phase inFlight) {thread : Thread}
    (inside : (log.flush thread).isOut = false) : phase = .executing thread := by
  apply kept.owned.exec
  intro out
  have handler := kept.handler thread
  rw [out, inside] at handler
  cases handler

theorem Kept.out (kept : Kept log phase inFlight) {thread : Thread}
    (away : phase ≠ .executing thread) : (log.flush thread).isOut = true := by
  cases inside : (log.flush thread).isOut with
  | true => rfl
  | false => exact (away (kept.executing inside)).elim

private theorem Kept.inFlight_eq (kept : Kept log phase inFlight)
    (outside : ∀ thread, (log.lTask.exec thread).inHandler = false) : inFlight = [] := by
  apply kept.landed
  intro thread
  have handler := kept.handler thread
  rw [outside thread] at handler
  simpa using handler.symm

/-- How far an execution is from the next swap. -/
def waitAt : ExecPc → FlushPc Call → Nat
  | .load _, _ => 3
  | .enter _ _, _ => 2
  | .handler _ _, .swap => 1
  | .handler _ _, .flushing _ _ => 9
  | .handler _ _, .done => 8
  | .subtract _ _, _ => 7
  | _, _ => 0

/-- How far the task is from the next swap. -/
def wait (log : LogModule Call Thread) : Task.Phase Call Thread → Nat
  | .idle => 6
  | .handing _ => 5
  | .queued => 4
  | .executing thread => waitAt (log.lTask.exec thread) (log.flush thread)

/-- How far the push at a position is from its flush. -/
def toGo (log : LogModule Call Thread) (phase : Task.Phase Call Thread)
    (inFlight : List (LogEntry Call)) (position : Nat) (call : Call) : Nat :=
  position + 1 - log.flushed.length +
    (if position < log.flushed.length + inFlight.length then 0 else log.wait phase) +
    if log.lTask.call call = .fresh then 1 else 0

/-- What a step does for a push that is not flushed. -/
def Closer (log next : LogModule Call Thread) (phase after : Task.Phase Call Thread)
    (inFlight later : List (LogEntry Call)) (act : Act Call Thread) : Prop :=
  ∀ position call, log.flushed.length ≤ position → position < log.pushed.length →
    position < next.flushed.length ∨
      next.toGo after later position call + (if act.Progress call then 1 else 0) ≤
        log.toGo phase inFlight position call

/-! ### Steps of the task outside the handler -/

private theorem Kept.ofTask (kept : Kept log phase inFlight) {act : Task.Act Call Thread}
    (plain : act.Plain) (admits : log.Admits act) {lTask : Task Call Thread}
    (stepped : log.lTask.step act = some lTask) (owned : Task.Owned lTask after) :
    Kept { log with lTask := lTask } after inFlight where
  owned := owned
  submitted := by
    intro call late
    by_cases fresh : log.lTask.call call = .fresh
    · obtain rfl := Task.submit_of_step stepped fresh late
      exact of_decide_eq_true admits
    · exact kept.submitted call fresh
  unfollowed := by
    intro call fresh
    rw [Task.followed_of_step plain stepped]
    apply kept.unfollowed
    by_contra late
    exact (Task.kept_of_step stepped call).1 late fresh
  handler := fun thread =>
    (Task.inHandler_of_step plain stepped thread).trans (kept.handler thread)
  flight := kept.flight
  landed := kept.landed
  queue := kept.queue
  pushers := kept.pushers
  waiting := by
    intro entry inside late
    rw [Task.followed_of_step plain stepped]
    by_cases fresh : log.lTask.call entry.call = .fresh
    · exact .inl (kept.unfollowed _ fresh)
    · exact kept.waiting entry inside fresh
  placed := kept.placed

/-- Before the handler and behind it nothing is in flight. -/
theorem Kept.inFlight_eq_of_executing (kept : Kept log (.executing thread) inFlight)
    (outside : (log.lTask.exec thread).inHandler = false) : inFlight = [] := by
  apply kept.inFlight_eq
  intro other
  by_cases same : other = thread
  · rw [same, outside]
  · rw [kept.owned.out fun executes => same (Task.Phase.executing.inj executes).symm]
    rfl

private theorem Kept.inFlight_eq_of_resting (kept : Kept log phase inFlight)
    (resting : ∀ thread, phase ≠ .executing thread) : inFlight = [] := by
  apply kept.inFlight_eq
  intro thread
  rw [kept.owned.out (resting thread)]
  rfl

/-- A step outside `flush_logs` that brings the next swap closer. -/
theorem closer_of_wait {act : Act Call Thread} (flushed : next.flushed = log.flushed)
    (calls : ∀ call, next.lTask.call call = .fresh → log.lTask.call call = .fresh)
    (wait : next.wait after + 1 ≤ log.wait phase) : Closer log next phase after [] [] act := by
  intro position call ahead _
  refine .inr ?_
  have flag : (if next.lTask.call call = .fresh then 1 else 0) ≤
      if log.lTask.call call = .fresh then 1 else 0 := by
    by_cases fresh : next.lTask.call call = .fresh
    · exact Nat.le_of_eq (by rw [if_pos fresh, if_pos (calls call fresh)])
    · rw [if_neg fresh]
      exact Nat.zero_le _
  have once : (if act.Progress call then 1 else 0) ≤ 1 := by
    split <;> omega
  have behind : ¬ position < log.flushed.length + ([] : List (LogEntry Call)).length :=
    Nat.not_lt.mpr ahead
  unfold toGo
  rw [flushed, if_neg behind, if_neg behind]
  omega

/-- A step that does not move the owner. -/
theorem closer_of_flag {act : Act Call Thread} (flushed : next.flushed = log.flushed)
    (wait : next.wait after ≤ log.wait phase)
    (flag : ∀ call, (if next.lTask.call call = .fresh then 1 else 0) +
        (if act.Progress call then 1 else 0) ≤ if log.lTask.call call = .fresh then 1 else 0) :
    Closer log next phase after inFlight inFlight act := by
  intro position call _ _
  refine .inr ?_
  have own := flag call
  unfold toGo
  rw [flushed]
  split
  · omega
  · omega

/-- A step of a call leaves the owner where it is. -/
theorem closer_of_call {act : Act Call Thread} (flushed : next.flushed = log.flushed)
    (lTask : next.lTask = log.lTask) (flush : next.flush = log.flush)
    (idle : ∀ call, ¬ act.Progress call) : Closer log next phase phase inFlight inFlight act := by
  apply closer_of_flag flushed
  · refine Nat.le_of_eq ?_
    unfold wait
    rw [lTask, flush]
  · intro call
    rw [lTask, if_neg (idle call)]
    exact Nat.le_refl _

private theorem Phase.eq_queued {lTask : Task Call Thread} (owned : Task.Owned lTask after)
    (some_ : 0 < lTask.scheduled) : after = .queued := by
  have scheduled := owned.scheduled
  cases after with
  | queued => rfl
  | idle | handing | executing =>
      dsimp only [Task.Phase.scheduled] at scheduled
      omega

/-- A submission hands an idle task over, and leaves another one to its owner. -/
theorem wait_submit (kept : Kept log phase inFlight) {call : Call}
    (fresh : log.lTask.call call = .fresh)
    (owned : Task.Owned (log.lTask.taskSubmit call) after) :
    wait { log with lTask := log.lTask.taskSubmit call } after ≤ log.wait phase := by
  have exec : (log.lTask.taskSubmit call).exec = log.lTask.exec := by
    unfold Task.taskSubmit
    split <;> rfl
  have scheduled : (log.lTask.taskSubmit call).scheduled = log.lTask.scheduled := by
    unfold Task.taskSubmit
    split <;> rfl
  cases phase with
  | idle =>
      have zero := kept.owned.idle.mpr rfl
      have hands : (log.lTask.taskSubmit call).call call = .schedule := by
        unfold Task.taskSubmit
        rw [if_pos zero]
        exact update_self ..
      obtain rfl := (owned.call call).mp hands
      exact Nat.le_succ 5
  | handing other =>
      have hands := (kept.owned.call other).mpr rfl
      have apart : other ≠ call := by
        rintro rfl
        rw [fresh] at hands
        cases hands
      have still : (log.lTask.taskSubmit call).call other = .schedule := by
        unfold Task.taskSubmit
        split
        · exact (update_of_ne apart ..).trans hands
        · exact (update_of_ne apart ..).trans hands
      obtain rfl := (owned.call other).mp still
      exact Nat.le_refl 5
  | queued =>
      have one : log.lTask.scheduled = 1 := kept.owned.scheduled
      obtain rfl := Phase.eq_queued owned (by omega)
      exact Nat.le_refl 4
  | executing thread =>
      have turn := kept.owned.turn thread rfl
      have up : (log.lTask.taskSubmit call).exec thread ≠ .out := by
        rw [exec]
        intro out
        rw [out] at turn
        exact turn
      obtain rfl := owned.exec thread up
      refine Nat.le_of_eq ?_
      unfold wait
      rw [exec]

/-- What a step makes of the owner and of the pushes that are not flushed. -/
def Advances (log next : LogModule Call Thread) (phase : Task.Phase Call Thread)
    (inFlight : List (LogEntry Call)) (act : Act Call Thread) : Prop :=
  ∃ after later, Kept next after later ∧ Closer log next phase after inFlight later act

theorem Kept.submit (kept : Kept log phase inFlight) {call : Call}
    (admits : log.Admits (.submit call)) {lTask : Task Call Thread}
    (stepped : log.lTask.step (.submit call) = some lTask) (owned : Task.Owned lTask after) :
    Advances log { log with lTask := lTask } phase inFlight (.task (.submit call)) := by
  refine ⟨after, inFlight, kept.ofTask (by trivial) admits stepped owned, ?_⟩
  obtain ⟨fresh, same⟩ := Option.ite_none_right_eq_some.mp stepped
  cases same
  refine closer_of_flag rfl (wait_submit kept fresh owned) fun other => ?_
  have late : (log.lTask.taskSubmit call).call call ≠ .fresh := by
    unfold Task.taskSubmit
    split
    · exact fun same => nomatch (update_self ..).symm.trans same
    · exact fun same => nomatch (update_self ..).symm.trans same
  by_cases own : call = other
  · subst own
    rw [if_neg late, if_pos fresh]
    split <;> omega
  · rw [if_neg (show ¬ Act.Progress other (.task (.submit call)) from own)]
    by_cases still : (log.lTask.taskSubmit call).call other = .fresh
    · have before : log.lTask.call other = .fresh := by
        by_contra before
        exact (Task.kept_of_step stepped other).1 before still
      rw [if_pos before]
      split <;> omega
    · rw [if_neg still]
      exact Nat.zero_le _

theorem Kept.schedule (kept : Kept log phase inFlight) {call : Call} {lTask : Task Call Thread}
    (stepped : log.lTask.step (.schedule call) = some lTask) (owned : Task.Owned lTask after) :
    Advances log { log with lTask := lTask } phase inFlight (.task (.schedule call)) := by
  have still := kept.ofTask (by trivial) rfl stepped owned
  obtain ⟨here, same⟩ := Option.ite_none_right_eq_some.mp stepped
  cases same
  obtain rfl := (kept.owned.call call).mp here
  obtain rfl := Phase.eq_queued owned (Nat.succ_pos _)
  obtain rfl := kept.inFlight_eq_of_resting nofun
  refine ⟨_, _, still, closer_of_wait rfl (fun other fresh => ?_) (Nat.le_refl 5)⟩
  by_contra before
  exact (Task.kept_of_step stepped other).1 before fresh

theorem Kept.execute (kept : Kept log phase inFlight) {thread : Thread} {lTask : Task Call Thread}
    (stepped : log.lTask.step (.execute thread) = some lTask) (owned : Task.Owned lTask after) :
    Advances log { log with lTask := lTask } phase inFlight (.task (.execute thread)) := by
  have still := kept.ofTask (by trivial) rfl stepped owned
  obtain ⟨here, same⟩ := Option.ite_none_right_eq_some.mp stepped
  cases same
  obtain rfl := Phase.eq_queued kept.owned here.2
  have loads : (log.lTask.execute thread).exec thread = .load 0 := update_self ..
  obtain rfl := owned.executing loads nofun
  obtain rfl := kept.inFlight_eq_of_resting nofun
  refine ⟨_, _, still, closer_of_wait rfl (fun _ => id) ?_⟩
  dsimp only [wait]
  rw [loads]
  exact Nat.le_refl 4

theorem Kept.load (kept : Kept log phase inFlight) {thread : Thread} {lTask : Task Call Thread}
    (stepped : log.lTask.step (.load thread) = some lTask) (owned : Task.Owned lTask after) :
    Advances log { log with lTask := lTask } phase inFlight (.task (.load thread)) := by
  have still := kept.ofTask (by trivial) rfl stepped owned
  cases here : log.lTask.exec thread with
  | load loop =>
      simp only [Task.step, here, Option.some.injEq] at stepped
      obtain rfl := kept.owned.executing here (by simp)
      obtain rfl := kept.inFlight_eq_of_executing (congrArg ExecPc.inHandler here)
      have positive := kept.owned.positive (by simp)
      rw [Task.load, if_pos positive] at stepped
      cases stepped
      have enters : (log.lTask.setExec thread (.enter log.lTask.tskPend loop)).exec thread =
          .enter log.lTask.tskPend loop := update_self ..
      obtain rfl := owned.executing enters (by simp)
      refine ⟨_, _, still, closer_of_wait rfl (fun _ => id) ?_⟩
      dsimp only [wait]
      rw [enters, here]
      exact Nat.le_refl 3
  | _ => simp [Task.step, here] at stepped

theorem Kept.subtract (kept : Kept log phase inFlight) {thread : Thread}
    {lTask : Task Call Thread} (stepped : log.lTask.step (.subtract thread) = some lTask)
    (owned : Task.Owned lTask after) :
    Advances log { log with lTask := lTask } phase inFlight (.task (.subtract thread)) := by
  have still := kept.ofTask (by trivial) rfl stepped owned
  cases here : log.lTask.exec thread with
  | subtract pending loop =>
      simp only [Task.step, here, Option.some.injEq] at stepped
      obtain rfl := kept.owned.executing here (by simp)
      obtain rfl := kept.inFlight_eq_of_executing (congrArg ExecPc.inHandler here)
      have before : log.wait (.executing thread) = 7 := by
        dsimp only [wait]
        rw [here]
        rfl
      have calls : lTask.call = log.lTask.call := by
        rw [← stepped]
        unfold Task.subtract
        dsimp only
        split <;> rfl
      refine ⟨_, _, still, closer_of_wait rfl (fun _ => by dsimp only; rw [calls]; exact id) ?_⟩
      rw [before]
      by_cases last : log.lTask.tskPend = pending
      · have zero : lTask.tskPend = 0 := by
          rw [← stepped, Task.subtract, if_neg (not_not.mpr last), last, Int.sub_self]
          rfl
        obtain rfl := owned.idle.mp zero
        exact Nat.le_refl 7
      · have loads : lTask.exec thread = .load loop := by
          rw [← stepped, Task.subtract, if_pos last]
          exact update_self ..
        obtain rfl := owned.executing loads (by simp)
        dsimp only [wait]
        rw [loads]
        change 3 + 1 ≤ 7
        omega
  | _ => simp [Task.step, here] at stepped

/-! ### The handler -/

variable {thread : Thread}

/-- The thread at the beginning of the handler, in it and at its end. -/
theorem Kept.others_out (kept : Kept log (.executing thread) inFlight) {other : Thread}
    (apart : other ≠ thread) : (log.flush other).isOut = true :=
  kept.out fun executes => apart (Task.Phase.executing.inj executes).symm

/-- One thread goes on in `flush_logs`, and the others stay outside. -/
theorem Kept.goOn (kept : Kept log (.executing thread) inFlight) {pc : FlushPc Call}
    {later : List (LogEntry Call)} (flush : next.flush = update log.flush thread pc)
    (exec : ∀ other, other ≠ thread → next.lTask.exec other = log.lTask.exec other)
    (own : (next.lTask.exec thread).inHandler = !pc.isOut)
    (locl : pc.locl = later) :
    (∀ other, (next.lTask.exec other).inHandler = !(next.flush other).isOut) ∧
      (∀ other, (next.flush other).isOut = false → (next.flush other).locl = later) ∧
        ((∀ other, (next.flush other).isOut = true) → later = []) := by
  rw [flush]
  refine ⟨fun other => ?_, fun other inside => ?_, fun outside => ?_⟩
  · by_cases same : other = thread
    · rw [same, update_self, own]
    · rw [update_of_ne same, exec other same, kept.handler other]
  · by_cases same : other = thread
    · rw [same, update_self, locl]
    · rw [update_of_ne same, kept.others_out same] at inside
      cases inside
  · have out := outside thread
    rw [update_self] at out
    cases pc with
    | out => exact locl.symm
    | _ => cases out

/-- The places of the buffers when a thread goes on with the same buffers. -/
theorem contents_goOn {pc : FlushPc Call} (flush : next.flush = update log.flush thread pc)
    (queues : pc.locl.map (·.buf) ++ pc.frbuf =
      (log.flush thread).locl.map (·.buf) ++ (log.flush thread).frbuf)
    (caller : next.caller = log.caller) (lPending : next.lPending = log.lPending)
    (lFreebuf : next.lFreebuf = log.lFreebuf) : next.contents = log.contents := by
  funext place
  cases place with
  | caller call => rw [contents, contents, caller]
  | lPending => rw [contents, contents, lPending]
  | lFreebuf => exact lFreebuf
  | locl other =>
      rw [contents, contents, flush]
      by_cases same : other = thread
      · rw [same, update_self, queues]
      · rw [update_of_ne same]

private theorem queues_of_isOut {pc : FlushPc Call} (out : pc.isOut = true) :
    pc.locl.map (·.buf) ++ pc.frbuf = [] := by
  cases pc with
  | out => rfl
  | _ => cases out

theorem Kept.enter (kept : Kept log phase inFlight) {lTask : Task Call Thread}
    (stepped : log.lTask.step (.enter thread) = some lTask) (owned : Task.Owned lTask after) :
    Advances log (log.handle (.enter thread) lTask) phase inFlight (.task (.enter thread)) := by
  cases here : log.lTask.exec thread with
  | enter pending loop =>
      simp only [Task.step, here, Option.some.injEq] at stepped
      subst stepped
      obtain rfl := kept.owned.executing here (by simp)
      have enters : (log.lTask.enter thread pending loop).exec thread = .handler pending loop :=
        update_self ..
      obtain rfl := owned.executing enters (by simp)
      obtain rfl := kept.inFlight_eq_of_executing (congrArg ExecPc.inHandler here)
      have wasOut : (log.flush thread).isOut = true := by
        have handler := kept.handler thread
        rw [here] at handler
        simpa [ExecPc.inHandler] using handler.symm
      generalize entered : log.handle (.enter thread) (log.lTask.enter thread pending loop) = next
      have flush : next.flush = update log.flush thread .swap := by rw [← entered]; rfl
      have lTask : next.lTask = log.lTask.enter thread pending loop := by rw [← entered]; rfl
      have exec : ∀ other, other ≠ thread → next.lTask.exec other = log.lTask.exec other := by
        intro other apart
        rw [lTask]
        exact update_of_ne apart ..
      obtain ⟨handler, flight, landed⟩ := kept.goOn flush exec (by rw [lTask, enters]; rfl) rfl
      refine ⟨_, [], ⟨lTask ▸ owned, ?_, ?_, handler, flight, landed, ?_, ?_, ?_, ?_⟩, ?_⟩
      · rw [← entered]
        exact kept.submitted
      · intro call fresh
        rw [← entered] at fresh ⊢
        change (log.lTask.followed call || decide (log.lTask.call call ≠ .fresh)) = false
        have still : log.lTask.call call = .fresh := fresh
        rw [kept.unfollowed call still, Bool.false_or, decide_eq_false (not_not.mpr still)]
      · rw [← entered]
        exact kept.queue
      · rw [← entered]
        exact kept.pushers
      · refine fun entry _ _ => .inr ⟨thread, ?_⟩
        rw [flush, update_self]
      · have places : next.contents = log.contents := by
          refine contents_goOn flush (queues_of_isOut wasOut).symm ?_ ?_ ?_
          all_goals rw [← entered]; rfl
        rw [places, ← entered]
        exact kept.placed
      · refine closer_of_wait (by rw [← entered]; rfl) (fun call => by rw [← entered]; exact id) ?_
        dsimp only [wait]
        rw [lTask, enters, flush, update_self, here]
        exact Nat.le_refl 2
  | _ => simp [Task.step, here] at stepped

/-- Behind the swap the submissions of the entries pending are still to be followed. -/
theorem Kept.unfollowed_of_pending (kept : Kept log (.executing thread) inFlight)
    (swapped : log.flush thread ≠ .swap) : ∀ entry ∈ log.lPending,
      log.lTask.call entry.call ≠ .fresh → log.lTask.followed entry.call = false := by
  intro entry inside late
  rcases kept.waiting entry inside late with behind | ⟨other, swaps⟩
  · exact behind
  · by_cases same : other = thread
    · exact (swapped (same ▸ swaps)).elim
    · have out := kept.others_out same
      rw [swaps] at out
      cases out

theorem Kept.inHandler (kept : Kept log phase inFlight)
    (inside : (log.flush thread).isOut = false) :
    ∃ pending loop, log.lTask.exec thread = .handler pending loop := by
  have handler := kept.handler thread
  rw [inside] at handler
  cases here : log.lTask.exec thread with
  | handler pending loop => exact ⟨pending, loop, rfl⟩
  | _ =>
      rw [here] at handler
      cases handler

theorem Kept.leave (kept : Kept log phase inFlight) {lTask : Task Call Thread}
    (admits : log.Admits (.leave thread)) (turning : log.lTask.Turning (.leave thread))
    (stepped : log.lTask.step (.leave thread) = some lTask) (owned : Task.Owned lTask after) :
    Advances log (log.handle (.leave thread) lTask) phase inFlight (.task (.leave thread)) := by
  have finished : log.flush thread = .done := by
    cases here : log.flush thread with
    | done => rfl
    | _ => simp [Admits, here] at admits
  have inside : (log.flush thread).isOut = false := by rw [finished]; rfl
  obtain rfl := kept.executing inside
  obtain ⟨pending, loop, here⟩ := kept.inHandler inside
  have nothing : inFlight = [] := by rw [← kept.flight thread inside, finished]; rfl
  subst nothing
  simp only [Task.Turning, here] at turning
  simp only [Task.step, here, Option.some.injEq, Task.leave, if_pos turning] at stepped
  subst stepped
  have subtracts : (log.lTask.setExec thread (.subtract pending (loop + 1))).exec thread =
      .subtract pending (loop + 1) := update_self ..
  obtain rfl := owned.executing subtracts (by simp)
  have unfollowed := kept.unfollowed_of_pending (by rw [finished]; simp)
  generalize left : log.handle (.leave thread)
    (log.lTask.setExec thread (.subtract pending (loop + 1))) = next
  have flush : next.flush = update log.flush thread .out := by rw [← left]; rfl
  have lTask : next.lTask = log.lTask.setExec thread (.subtract pending (loop + 1)) := by
    rw [← left]
    rfl
  have exec : ∀ other, other ≠ thread → next.lTask.exec other = log.lTask.exec other := by
    intro other apart
    rw [lTask]
    exact update_of_ne apart ..
  obtain ⟨handler, flight, landed⟩ := kept.goOn flush exec (by rw [lTask, subtracts]; rfl) rfl
  refine ⟨_, [], ⟨lTask ▸ owned, ?_, ?_, handler, flight, landed, ?_, ?_, ?_, ?_⟩, ?_⟩
  · rw [← left]
    exact kept.submitted
  · rw [← left]
    exact kept.unfollowed
  · rw [← left]
    exact kept.queue
  · rw [← left]
    exact kept.pushers
  · rw [← left]
    exact fun entry pending late => .inl (unfollowed entry pending late)
  · have places : next.contents = log.contents := by
      refine contents_goOn flush (by rw [finished]; rfl) ?_ ?_ ?_
      all_goals rw [← left]; rfl
    rw [places, ← left]
    exact kept.placed
  · refine closer_of_wait (by rw [← left]; rfl) (fun call => by rw [← left]; exact id) ?_
    dsimp only [wait]
    rw [lTask, subtracts, here, finished]
    exact Nat.le_refl 8

/-! ### `flush_logs` -/

theorem Kept.swap (kept : Kept log phase inFlight) (here : log.flush thread = .swap) :
    Advances log (log.swap thread) phase inFlight (.swap thread) := by
  have inside : (log.flush thread).isOut = false := by rw [here]; rfl
  obtain rfl := kept.executing inside
  obtain ⟨pending, loop, handles⟩ := kept.inHandler inside
  have nothing : inFlight = [] := by rw [← kept.flight thread inside, here]; rfl
  subst nothing
  have flush : (log.swap thread).flush =
      update log.flush thread (.flushing log.lPending []) := rfl
  have own : (log.lTask.exec thread).inHandler = true := by rw [handles]; rfl
  obtain ⟨handler, flight, landed⟩ := kept.goOn flush (fun _ _ => rfl) own rfl
  have queue := kept.queue
  rw [List.nil_append] at queue
  refine ⟨_, log.lPending, ⟨kept.owned, kept.submitted, kept.unfollowed, handler, flight, landed,
    ?_, kept.pushers, fun _ none => absurd none List.not_mem_nil, ?_⟩, ?_⟩
  · change log.pushed = log.flushed ++ (log.lPending ++ [])
    rw [List.append_nil, queue]
  · have places : (log.swap thread).contents =
        update (update log.contents .lPending []) (.locl thread)
          (log.lPending.map (·.buf)) := by
      funext place
      cases place with
      | locl other =>
          by_cases same : other = thread
          · subst same
            rw [update_self, contents, flush, update_self]
            exact List.append_nil _
          · have apart : BufPlace.locl other ≠ (BufPlace.locl thread : BufPlace Call Thread) :=
              fun is => same (BufPlace.locl.inj is)
            have unlike : BufPlace.locl other ≠ (.lPending : BufPlace Call Thread) := nofun
            rw [update_of_ne apart, update_of_ne unlike, contents, flush,
              update_of_ne same]
            rfl
      | lPending => rfl
      | _ => rfl
    have emptied : log.contents (.locl thread) = [] := by
      rw [contents, here]
      rfl
    have unlike : BufPlace.locl thread ≠ (.lPending : BufPlace Call Thread) := nofun
    rw [places]
    refine kept.placed.pour unlike ?_
    rw [emptied, List.append_nil]
    exact .refl _
  · intro position call ahead before
    refine .inr ?_
    have length : log.pushed.length = log.flushed.length + log.lPending.length := by
      rw [queue, List.length_append]
    have waits : log.wait (.executing thread) = 1 := by
      dsimp only [wait]
      rw [handles, here]
      rfl
    have taken : position < (log.swap thread).flushed.length + log.lPending.length :=
      length ▸ before
    have away : ¬ position < log.flushed.length + ([] : List (LogEntry Call)).length :=
      Nat.not_lt.mpr ahead
    unfold toGo
    rw [if_pos taken, if_neg away, waits,
      if_pos (show Act.Progress call (.swap thread) from trivial)]
    change position + 1 - log.flushed.length + 0 +
      (if log.lTask.call call = .fresh then 1 else 0) + 1 ≤ _
    omega

private theorem Kept.flushBuffer (kept : Kept log phase inFlight) {entry : LogEntry Call}
    {locl : List (LogEntry Call)} {frbuf : List Nat}
    (here : log.flush thread = .flushing (entry :: locl) frbuf) :
    Advances log (log.flushBuffer thread entry locl frbuf) phase inFlight
      (.flushBuffer thread) := by
  have inside : (log.flush thread).isOut = false := by rw [here]; rfl
  obtain rfl := kept.executing inside
  obtain ⟨pending, loop, handles⟩ := kept.inHandler inside
  have some_ : inFlight = entry :: locl := by rw [← kept.flight thread inside, here]; rfl
  subst some_
  have flush : (log.flushBuffer thread entry locl frbuf).flush =
      update log.flush thread (.flushing locl (frbuf ++ [entry.buf])) := rfl
  have own : (log.lTask.exec thread).inHandler = true := by rw [handles]; rfl
  obtain ⟨handler, flight, landed⟩ := kept.goOn flush (fun _ _ => rfl) own rfl
  have unfollowed := kept.unfollowed_of_pending (by rw [here]; nofun)
  refine ⟨_, locl, ⟨kept.owned, kept.submitted, kept.unfollowed, handler, flight, landed, ?_,
    kept.pushers, fun other pends late => .inl (unfollowed other pends late), ?_⟩, ?_⟩
  · change log.pushed = log.flushed ++ [entry] ++ (locl ++ log.lPending)
    rw [kept.queue, List.append_assoc]
    rfl
  · refine kept.placed.rearrange fun place => ?_
    cases place with
    | locl other =>
        by_cases same : other = thread
        · subst same
          rw [contents, contents, flush, update_self, here]
          change (locl.map (·.buf) ++ (frbuf ++ [entry.buf])).Perm
            (entry.buf :: (locl.map (·.buf) ++ frbuf))
          rw [← List.append_assoc]
          exact List.perm_append_singleton _ _
        · rw [contents, contents, flush, update_of_ne same]
    | _ => exact .refl _
  · intro position call ahead _
    have grown : (log.flushBuffer thread entry locl frbuf).flushed.length =
        log.flushed.length + 1 := List.length_append
    by_cases own : position = log.flushed.length
    · exact .inl (by omega)
    · refine .inr ?_
      have before : log.wait (.executing thread) = 9 := by
        dsimp only [wait]
        rw [handles, here]
        rfl
      have after : (log.flushBuffer thread entry locl frbuf).wait (.executing thread) = 9 := by
        dsimp only [wait]
        rw [flush, update_self]
        change waitAt (log.lTask.exec thread) _ = 9
        rw [handles]
        rfl
      unfold toGo
      rw [grown, before, after, List.length_cons,
        if_pos (show Act.Progress call (.flushBuffer thread) from trivial)]
      change position + 1 - (log.flushed.length + 1) + _ +
        (if log.lTask.call call = .fresh then 1 else 0) + 1 ≤ _
      have same : (position < log.flushed.length + 1 + locl.length) =
          (position < log.flushed.length + (locl.length + 1)) := by
        rw [Nat.add_assoc, Nat.add_comm 1]
      simp only [same]
      omega

private theorem Kept.giveBack (kept : Kept log phase inFlight) {frbuf : List Nat}
    (here : log.flush thread = .flushing [] frbuf) :
    Advances log (log.giveBack thread frbuf) phase inFlight (.giveBack thread) := by
  have inside : (log.flush thread).isOut = false := by rw [here]; rfl
  obtain rfl := kept.executing inside
  obtain ⟨pending, loop, handles⟩ := kept.inHandler inside
  have nothing : inFlight = [] := by rw [← kept.flight thread inside, here]; rfl
  subst nothing
  have flush : (log.giveBack thread frbuf).flush = update log.flush thread .done := rfl
  have own : (log.lTask.exec thread).inHandler = true := by rw [handles]; rfl
  obtain ⟨handler, flight, landed⟩ := kept.goOn flush (fun _ _ => rfl) own rfl
  have unfollowed := kept.unfollowed_of_pending (by rw [here]; nofun)
  refine ⟨_, [], ⟨kept.owned, kept.submitted, kept.unfollowed, handler, flight, landed, kept.queue,
    kept.pushers, fun other pends late => .inl (unfollowed other pends late), ?_⟩, ?_⟩
  · have places : (log.giveBack thread frbuf).contents =
        update (update log.contents (.locl thread) []) .lFreebuf
          (log.lFreebuf ++ frbuf) := by
      funext place
      cases place with
      | locl other =>
          have unlike : BufPlace.locl other ≠ (.lFreebuf : BufPlace Call Thread) := nofun
          rw [update_of_ne unlike]
          by_cases same : other = thread
          · subst same
            rw [update_self, contents, flush, update_self]
            rfl
          · have apart : BufPlace.locl other ≠ (BufPlace.locl thread : BufPlace Call Thread) :=
              fun is => same (BufPlace.locl.inj is)
            rw [update_of_ne apart, contents, flush, update_of_ne same]
            rfl
      | _ => rfl
    have queue : log.contents (.locl thread) = frbuf := by
      rw [contents, here]
      rfl
    have unlike : .lFreebuf ≠ (BufPlace.locl thread : BufPlace Call Thread) := nofun
    rw [places]
    refine kept.placed.pour unlike ?_
    rw [queue]
    exact List.perm_append_comm
  · refine closer_of_wait rfl (fun _ => id) ?_
    have before : log.wait (.executing thread) = 9 := by
      dsimp only [wait]
      rw [handles, here]
      rfl
    rw [before]
    dsimp only [wait]
    rw [flush, update_self]
    change waitAt (log.lTask.exec thread) _ + 1 ≤ 9
    rw [handles]
    exact Nat.le_refl 9

/-! ### The callers -/

/-- A call that has not pushed goes on with the queues as they are. -/
theorem Kept.ofCaller (kept : Kept log phase inFlight) {call : Call} {pc : LogCallPc}
    (early : log.caller call ≠ .pushed) {lFreebuf : List Nat} {allocated : Nat}
    (placed : Placement.Ledger (List.range allocated) (fun _ => false)
      ({ log with lFreebuf := lFreebuf, allocated := allocated }.setCaller call pc).contents) :
    Kept ({ log with lFreebuf := lFreebuf, allocated := allocated }.setCaller call pc) phase
      inFlight where
  owned := kept.owned
  submitted := by
    intro other late
    have before := kept.submitted other late
    have apart : other ≠ call := fun same => early (same ▸ before)
    exact (update_of_ne apart ..).trans before
  unfollowed := kept.unfollowed
  handler := kept.handler
  flight := kept.flight
  landed := kept.landed
  queue := kept.queue
  pushers := by
    intro entry inside
    have before := kept.pushers entry inside
    have apart : entry.call ≠ call := fun same => early (same ▸ before)
    exact (update_of_ne apart ..).trans before
  waiting := kept.waiting
  placed := placed

/-- The places of the buffers when a call goes on. -/
theorem contents_setCaller (log : LogModule Call Thread) (call : Call) (pc : LogCallPc) :
    (log.setCaller call pc).contents =
      update log.contents (.caller call) pc.bufs := by
  funext place
  cases place with
  | caller other =>
      by_cases same : other = call
      · subst same
        rw [update_self, contents]
        exact congrArg LogCallPc.bufs (update_self ..)
      · have apart : BufPlace.caller other ≠ (BufPlace.caller call : BufPlace Call Thread) :=
          fun is => same (BufPlace.caller.inj is)
        rw [update_of_ne apart, contents]
        exact congrArg LogCallPc.bufs (update_of_ne same ..)
  | _ => rfl

private theorem Kept.getBuffer (kept : Kept log phase inFlight) {call : Call}
    (here : log.caller call = .fresh) :
    Advances log (log.getBuffer call) phase inFlight (.getBuffer call) := by
  have early : log.caller call ≠ .pushed := by rw [here]; nofun
  have empty : log.contents (.caller call) = [] := by
    rw [contents, here]
    rfl
  unfold LogModule.getBuffer
  cases free : log.lFreebuf with
  | nil =>
      have placed : Placement.Ledger (List.range log.allocated) (fun _ => false)
          (log.setCaller call .alloc).contents := by
        rw [contents_setCaller, ← show log.contents (.caller call) = LogCallPc.alloc.bufs from empty,
          update_eq_self]
        exact kept.placed
      exact ⟨phase, inFlight, kept.ofCaller early placed, closer_of_call rfl rfl rfl fun _ => id⟩
  | cons buf rest =>
      have taken : ({ log with lFreebuf := rest } : LogModule Call Thread).contents =
          update log.contents .lFreebuf rest := by
        funext place
        cases place with
        | _ => rfl
      have unlike : BufPlace.caller call ≠ (.lFreebuf : BufPlace Call Thread) := nofun
      have placed : Placement.Ledger (List.range log.allocated) (fun _ => false)
          ({ log with lFreebuf := rest }.setCaller call (.holds buf)).contents := by
        rw [contents_setCaller, taken]
        refine kept.placed.move unlike (.of_eq free) ?_
        rw [empty]
        exact .refl _
      exact ⟨phase, inFlight, kept.ofCaller early placed, closer_of_call rfl rfl rfl fun _ => id⟩

theorem Kept.alloc (kept : Kept log phase inFlight) {call : Call}
    (here : log.caller call = .alloc) :
    Advances log (log.alloc call) phase inFlight (.alloc call) := by
  have early : log.caller call ≠ .pushed := by rw [here]; nofun
  have empty : log.contents (.caller call) = [] := by
    rw [contents, here]
    rfl
  have same : ({ log with allocated := log.allocated + 1 } : LogModule Call Thread).contents =
      log.contents := by
    funext place
    cases place with
    | _ => rfl
  have placed : Placement.Ledger (List.range (log.allocated + 1)) (fun _ => false)
      (log.alloc call).contents := by
    rw [LogModule.alloc, contents_setCaller, same, List.range_succ]
    refine kept.placed.accept (by rw [List.mem_range]; exact Nat.lt_irrefl _) rfl ?_
    rw [empty]
    exact .refl _
  exact ⟨phase, inFlight, kept.ofCaller early placed, closer_of_call rfl rfl rfl fun _ => id⟩

private theorem Kept.logBuffer (kept : Kept log phase inFlight) {call : Call} {buf : Nat}
    (here : log.caller call = .holds buf) :
    Advances log (log.logBuffer call buf) phase inFlight (.logBuffer call) := by
  have early : log.caller call ≠ .pushed := by rw [here]; nofun
  have fresh : log.lTask.call call = .fresh := by
    by_contra late
    exact early (kept.submitted call late)
  have own : (log.logBuffer call buf).caller call = .pushed := update_self ..
  have others : ∀ other, log.caller other = .pushed →
      (log.logBuffer call buf).caller other = .pushed := by
    intro other before
    have apart : other ≠ call := fun same => early (same ▸ before)
    exact (update_of_ne apart ..).trans before
  refine ⟨phase, inFlight, ⟨kept.owned, fun other late => others other (kept.submitted other late),
    kept.unfollowed, kept.handler, kept.flight, kept.landed, ?_, ?_, ?_, ?_⟩,
    closer_of_call rfl rfl rfl fun _ => id⟩
  · change log.pushed ++ [_] = log.flushed ++ (inFlight ++ (log.lPending ++ [_]))
    rw [kept.queue, List.append_assoc, List.append_assoc]
  · intro entry inside
    rcases List.mem_append.mp inside with before | last
    · exact others entry.call (kept.pushers entry before)
    · obtain rfl := List.mem_singleton.mp last
      exact own
  · intro entry inside late
    rcases List.mem_append.mp inside with before | last
    · exact kept.waiting entry before late
    · obtain rfl := List.mem_singleton.mp last
      exact (late fresh).elim
  · have places : (log.logBuffer call buf).contents =
        update (update log.contents (.caller call) []) .lPending
          (log.lPending.map (·.buf) ++ [buf]) := by
      rw [LogModule.logBuffer, contents_setCaller]
      funext place
      cases place with
      | caller other =>
          have unlike : BufPlace.caller other ≠ (.lPending : BufPlace Call Thread) := nofun
          rw [update_of_ne unlike]
          rfl
      | lPending =>
          have unlike : .lPending ≠ (BufPlace.caller call : BufPlace Call Thread) := nofun
          rw [update_self, update_of_ne unlike]
          exact List.map_append
      | _ => rfl
    have held : log.contents (.caller call) = [buf] := by
      rw [contents, here]
      rfl
    have unlike : .lPending ≠ (BufPlace.caller call : BufPlace Call Thread) := nofun
    rw [places]
    refine kept.placed.move unlike (.of_eq held) ?_
    exact List.perm_append_singleton _ _

/-! ## Runs -/

/-- **One step.** It keeps the owner and the queues, and brings every push closer to its flush. -/
theorem Kept.step (kept : Kept log phase inFlight) {act : Act Call Thread}
    (guarded : Guarded log act) (stepped : log.step act = some next) :
    Advances log next phase inFlight act := by
  cases act with
  | getBuffer call =>
      obtain ⟨here, same⟩ := Option.ite_none_right_eq_some.mp stepped
      cases same
      exact kept.getBuffer here
  | alloc call =>
      obtain ⟨here, same⟩ := Option.ite_none_right_eq_some.mp stepped
      cases same
      exact kept.alloc here
  | logBuffer call =>
      cases here : log.caller call with
      | holds buf =>
          simp only [LogModule.step, here, Option.some.injEq] at stepped
          exact stepped ▸ kept.logBuffer here
      | _ => simp [LogModule.step, here] at stepped
  | task act =>
      obtain ⟨admits, stepped⟩ := Option.ite_none_right_eq_some.mp stepped
      obtain ⟨lTask, took, same⟩ := Option.map_eq_some_iff.mp stepped
      obtain ⟨after, owned, -⟩ := kept.owned.step ⟨guarded.1, guarded.2⟩ took
      subst same
      cases act with
      | submit call => exact kept.submit admits took owned
      | schedule call => exact kept.schedule took owned
      | execute thread => exact kept.execute took owned
      | load thread => exact kept.load took owned
      | enter thread => exact kept.enter took owned
      | leave thread => exact kept.leave admits guarded.1 took owned
      | subtract thread => exact kept.subtract took owned
  | swap thread =>
      cases here : log.flush thread with
      | swap =>
          simp only [LogModule.step, here, Option.some.injEq] at stepped
          exact stepped ▸ kept.swap here
      | _ => simp [LogModule.step, here] at stepped
  | flushBuffer thread =>
      cases here : log.flush thread with
      | flushing locl frbuf =>
          cases locl with
          | nil => simp [LogModule.step, here] at stepped
          | cons entry locl =>
              simp only [LogModule.step, here, Option.some.injEq] at stepped
              exact stepped ▸ kept.flushBuffer here
      | _ => simp [LogModule.step, here] at stepped
  | giveBack thread =>
      cases here : log.flush thread with
      | flushing locl frbuf =>
          cases locl with
          | nil =>
              simp only [LogModule.step, here, Option.some.injEq] at stepped
              exact stepped ▸ kept.giveBack here
          | cons entry locl => simp [LogModule.step, here] at stepped
      | _ => simp [LogModule.step, here] at stepped

theorem step_of_machine {act : Act Call Thread} {output : Unit}
    (stepped : (machine Call Thread).step log act = some (next, output)) :
    log.step act = some next := by
  obtain ⟨after, took, same⟩ := Option.map_eq_some_iff.mp stepped
  cases same
  exact took

private theorem preserves_kept :
    (machine Call Thread).Preserves Guarded fun log =>
      ∃ phase inFlight, Kept log phase inFlight := by
  rintro log act next output ⟨phase, inFlight, kept⟩ guarded stepped
  obtain ⟨after, later, still, -⟩ := kept.step guarded (step_of_machine stepped)
  exact ⟨after, later, still⟩

/-- Pushes and flushes are only added. -/
theorem grown_of_step {act : Act Call Thread} (stepped : log.step act = some next) :
    log.pushed.length ≤ next.pushed.length ∧ log.flushed.length ≤ next.flushed.length := by
  have same : ∀ {other : LogModule Call Thread}, other.pushed = log.pushed →
      other.flushed = log.flushed → some other = some next →
        log.pushed.length ≤ next.pushed.length ∧ log.flushed.length ≤ next.flushed.length := by
    intro other pushed flushed is
    rw [← Option.some.inj is, pushed, flushed]
    exact ⟨Nat.le_refl _, Nat.le_refl _⟩
  cases act with
  | getBuffer call =>
      obtain ⟨-, stepped⟩ := Option.ite_none_right_eq_some.mp stepped
      unfold LogModule.getBuffer at stepped
      split at stepped
      · exact same (by rfl) (by rfl) stepped
      · exact same (by rfl) (by rfl) stepped
  | alloc call =>
      obtain ⟨-, stepped⟩ := Option.ite_none_right_eq_some.mp stepped
      exact same (by rfl) (by rfl) stepped
  | logBuffer call =>
      simp only [LogModule.step] at stepped
      split at stepped
      · rw [← Option.some.inj stepped]
        exact ⟨(List.prefix_append _ _).length_le, Nat.le_refl _⟩
      · cases stepped
  | task act =>
      obtain ⟨-, stepped⟩ := Option.ite_none_right_eq_some.mp stepped
      obtain ⟨lTask, -, stepped⟩ := Option.map_eq_some_iff.mp stepped
      refine same ?_ ?_ (congrArg some stepped)
      · cases act with
        | _ => rfl
      · cases act with
        | _ => rfl
  | flushBuffer thread =>
      simp only [LogModule.step] at stepped
      split at stepped
      · rw [← Option.some.inj stepped]
        exact ⟨Nat.le_refl _, (List.prefix_append _ _).length_le⟩
      · cases stepped
  | swap thread | giveBack thread =>
      simp only [LogModule.step] at stepped
      split at stepped
      · exact same (by rfl) (by rfl) stepped
      · cases stepped

private theorem flushed_of_run {labels : List (Act Call Thread)} {final : LogModule Call Thread}
    {outputs : List Unit} (ran : (machine Call Thread).run log labels = some (final, outputs)) :
    log.flushed.length ≤ final.flushed.length := by
  have preserves : (machine Call Thread).Preserves (fun _ _ => True)
      (log.flushed.length ≤ ·.flushed.length) :=
    fun _ _ _ _ before _ stepped =>
      Nat.le_trans before (grown_of_step (step_of_machine stepped)).2
  exact preserves.run (Nat.le_refl _) (Machine.meets_of_forall (fun _ _ => trivial) _ _) ran

/-- As long as a push is not flushed, every step it waits for brings it closer. -/
theorem Kept.countP_le {labels : List (Act Call Thread)} {position : Nat} {call : Call} :
    ∀ {log final : LogModule Call Thread} {phase : Task.Phase Call Thread}
      {inFlight : List (LogEntry Call)} {outputs : List Unit},
      Kept log phase inFlight → position < log.pushed.length →
        (machine Call Thread).Meets Guarded log labels →
          (machine Call Thread).run log labels = some (final, outputs) →
            final.flushed.length ≤ position →
              labels.countP (fun act => act.Progress call) ≤
                log.toGo phase inFlight position call := by
  induction labels with
  | nil => exact fun _ _ _ _ _ => Nat.zero_le _
  | cons act rest ih =>
      intro log final phase inFlight outputs kept pushed guarded ran ahead
      have before := Nat.le_trans (flushed_of_run ran) ahead
      obtain ⟨next, output, later, stepped, tail, -⟩ := Machine.run_cons_eq_some ran
      have took := step_of_machine stepped
      obtain ⟨after, inNext, still, closer⟩ := kept.step guarded.1 took
      have grown := (grown_of_step took).1
      have least := ih still (Nat.lt_of_lt_of_le pushed grown) (guarded.tail stepped) tail ahead
      rcases closer position call before pushed with flushed | closer
      · have late := flushed_of_run tail
        omega
      · rw [List.countP_cons]
        simp only [decide_eq_true_eq]
        omega

private theorem waitAt_le (pc : ExecPc) (flush : FlushPc Call) : waitAt pc flush ≤ 9 := by
  unfold waitAt
  split
  all_goals omega

private theorem toGo_le (log : LogModule Call Thread) (phase : Task.Phase Call Thread)
    (inFlight : List (LogEntry Call)) {position : Nat} {call : Call}
    (ahead : log.flushed.length ≤ position) :
    log.toGo phase inFlight position call ≤ position - log.flushed.length + 11 := by
  have waits : log.wait phase ≤ 9 := by
    cases phase with
    | executing thread => exact waitAt_le _ _
    | idle | handing | queued => exact Nat.le_of_ble_eq_true rfl
  unfold toGo
  split
  · split
    all_goals omega
  · split
    all_goals omega

/-- While the task rests, the entries pending are those of calls that have not submitted it. -/
theorem Kept.fresh_of_idle (kept : Kept log .idle inFlight) {entry : LogEntry Call}
    (pending : entry ∈ log.lPending) : log.lTask.call entry.call = .fresh := by
  by_contra late
  rcases kept.waiting entry pending late with behind | ⟨thread, swaps⟩
  · rw [kept.owned.settled rfl entry.call late] at behind
    cases behind
  · have out : (log.flush thread).isOut = true := kept.out nofun
    rw [swaps] at out
    cases out

/-- What stands behind the flushes is in the other part of the queue. -/
theorem mem_of_unflushed {flushed rest ahead behind : List (LogEntry Call)} {entry : LogEntry Call}
    (queue : ahead ++ entry :: behind = flushed ++ rest)
    (unflushed : flushed.length ≤ ahead.length) : entry ∈ rest := by
  rcases List.append_eq_append_iff.mp queue with ⟨front, rfl, back⟩ | ⟨front, -, rfl⟩
  · have none : front = [] := by
      rw [List.length_append] at unflushed
      exact List.length_eq_zero_iff.mp (by omega)
    rw [none, List.nil_append] at back
    exact back ▸ List.mem_cons_self
  · exact List.mem_append_right _ List.mem_cons_self

/-- A call of `flush_logs` can go on. -/
theorem Kept.handler_awake (kept : Kept log phase inFlight) {pending : Int} {loop : Nat}
    (here : log.lTask.exec thread = .handler pending loop) (call : Call) :
    ∃ act : Act Call Thread, act.Progress call ∧ (log.step act).isSome := by
  have handler := kept.handler thread
  rw [here] at handler
  cases flushes : log.flush thread with
  | out =>
      rw [flushes] at handler
      cases handler
  | swap => exact ⟨.swap thread, trivial, by simp [LogModule.step, flushes]⟩
  | flushing locl frbuf =>
      cases locl with
      | nil => exact ⟨.giveBack thread, trivial, by simp [LogModule.step, flushes]⟩
      | cons entry locl => exact ⟨.flushBuffer thread, trivial, by simp [LogModule.step, flushes]⟩
  | done =>
      refine ⟨.task (.leave thread), trivial, ?_⟩
      simp [LogModule.step, Admits, flushes, Task.step, here]

/-- A push that is not flushed has a step to wait for. -/
theorem Kept.awake [Nonempty Thread] (kept : Kept log phase inFlight)
    {ahead behind : List (LogEntry Call)} {entry : LogEntry Call}
    (pushed : log.pushed = ahead ++ entry :: behind)
    (unflushed : log.flushed.length ≤ ahead.length) :
    ∃ act : Act Call Thread, act.Progress entry.call ∧ (log.step act).isSome := by
  by_cases idle : phase = .idle
  · subst idle
    obtain rfl := kept.inFlight_eq_of_resting nofun
    have pending := mem_of_unflushed (pushed.symm.trans kept.queue) unflushed
    have fresh := kept.fresh_of_idle pending
    have caller := kept.pushers entry (pushed ▸ List.mem_append_right _ List.mem_cons_self)
    refine ⟨.task (.submit entry.call), rfl, ?_⟩
    simp [LogModule.step, Admits, caller, Task.step, fresh]
  · obtain ⟨act, progress, enabled⟩ := kept.owned.awake idle
    cases act with
    | submit call => exact progress.elim
    | leave thread =>
        cases here : log.lTask.exec thread with
        | handler pending loop => exact kept.handler_awake here entry.call
        | _ => simp [Task.step, here] at enabled
    | schedule call =>
        exact ⟨.task (.schedule call), trivial, by simpa [LogModule.step, Admits] using enabled⟩
    | execute thread =>
        exact ⟨.task (.execute thread), trivial, by simpa [LogModule.step, Admits] using enabled⟩
    | load thread =>
        exact ⟨.task (.load thread), trivial, by simpa [LogModule.step, Admits] using enabled⟩
    | enter thread =>
        exact ⟨.task (.enter thread), trivial, by simpa [LogModule.step, Admits] using enabled⟩
    | subtract thread =>
        exact ⟨.task (.subtract thread), trivial, by simpa [LogModule.step, Admits] using enabled⟩

theorem Kept.sound [Nonempty Thread] (kept : Kept log phase inFlight) : Sound log where
  ordered := ⟨_, kept.queue.symm⟩
  awake := fun ahead entry behind pushed unflushed => kept.awake pushed unflushed
  flushes := by
    intro ahead entry behind pushed unflushed labels final outputs guarded ran still
    have inside : ahead.length < log.pushed.length := by
      rw [pushed, List.length_append, List.length_cons]
      omega
    exact Nat.le_trans (kept.countP_le inside guarded ran still)
      (toGo_le log phase inFlight unflushed)
  somewhere := by
    intro buf allocated
    have somewhere := (kept.placed.somewhere_iff buf).mpr ⟨List.mem_range.mpr allocated, rfl⟩
    exact kept.placed.exclusive.exists_unique somewhere
  once := kept.placed.exclusive.nodup
  drained := by
    intro zero returned
    obtain rfl := kept.owned.idle.mp zero
    rw [List.eq_nil_iff_forall_not_mem]
    intro entry pending
    have inside : entry ∈ log.pushed := by
      rw [kept.queue]
      exact List.mem_append_right _ (List.mem_append_right _ pending)
    have late := returned entry.call (kept.pushers entry inside)
    rw [kept.fresh_of_idle pending] at late
    cases late

private theorem new_kept : Kept (new : LogModule Call Thread) .idle [] where
  owned := Task.new_owned
  submitted := fun _ late => (late rfl).elim
  unfollowed := fun _ _ => rfl
  handler := fun _ => rfl
  flight := fun _ inside => by cases inside
  landed := fun _ => rfl
  queue := rfl
  pushers := fun _ none => absurd none List.not_mem_nil
  waiting := fun _ none => absurd none List.not_mem_nil
  placed := by
    have empty : (new : LogModule Call Thread).contents = fun _ => [] := by
      funext place
      cases place with
      | _ => rfl
    rw [empty]
    exact Placement.ledger_empty _

/-- **Nothing logged is lost, doubled or overtaken**, as long as the counter of the task does not
overflow. -/
theorem delivered_of_reached [Nonempty Thread]
    (reached : (machine Call Thread).Reached (· = new) Guarded log) : Sound log := by
  obtain ⟨phase, inFlight, kept⟩ :=
    preserves_kept.reached (fun _ start => ⟨.idle, [], start ▸ new_kept⟩) reached
  exact kept.sound

/-- Two messages, the second one logged while the first is flushed. -/
def twoLogs : List (Act Nat Unit) :=
  [.getBuffer 0, .alloc 0, .logBuffer 0, .task (.submit 0), .task (.schedule 0),
    .task (.execute ()), .task (.load ()), .task (.enter ()), .swap (), .getBuffer 1, .alloc 1,
    .logBuffer 1, .flushBuffer (), .giveBack (), .task (.submit 1), .task (.leave ()),
    .task (.subtract ()), .task (.load ()), .task (.enter ()), .swap (), .flushBuffer (),
    .getBuffer 2]

private theorem twoLogs_runs : ((machine Nat Unit).run new twoLogs).isSome = true := by
  decide +kernel

theorem delivered_of_reached_twoLogs : Sound ((machine Nat Unit).final new twoLogs twoLogs_runs) := by
  have guarded : (machine Nat Unit).Meets Guarded new twoLogs := by decide +kernel
  have reached : (machine Nat Unit).Reached (· = new) Guarded
      ((machine Nat Unit).final new twoLogs twoLogs_runs) :=
    ⟨new, twoLogs, _, rfl, guarded, (Option.some_get twoLogs_runs).symm⟩
  exact delivered_of_reached reached

/-! ### A wrapped counter -/

/-- So many calls have logged, and the pool has not begun to execute the task. -/
structure Logged (log : LogModule Nat Unit) (count : Nat) : Prop where
  reached : (machine Nat Unit).Reached (· = new) Turning log
  lFreebuf : log.lFreebuf = []
  lPending : log.lPending.length = count
  tskPend : log.lTask.tskPend = Task.wrap count
  fresh : ∀ call, count ≤ call → log.caller call = .fresh ∧ log.lTask.call call = .fresh
  returned : ∀ call < count, log.lTask.call call = .returned

private theorem machine_step {log next : LogModule Nat Unit} {act : Act Nat Unit}
    (stepped : log.step act = some next) :
    (machine Nat Unit).step log act = some (next, ()) := by
  change (log.step act).map (·, ()) = _
  rw [stepped, Option.map_some]

/-- A call gets a buffer, pushes it and comes to `task_submit`. -/
theorem Logged.push {log : LogModule Nat Unit} {count : Nat} (logged : Logged log count) :
    ∃ next : LogModule Nat Unit, (machine Nat Unit).Reached (· = new) Turning next ∧
      next.lTask = log.lTask ∧ next.lFreebuf = [] ∧ next.lPending.length = count + 1 ∧
      next.caller = update log.caller count .pushed := by
  have here := (logged.fresh count (Nat.le_refl count)).1
  have got : log.step (.getBuffer count) = some (log.setCaller count .alloc) := by
    rw [LogModule.step, if_pos here, LogModule.getBuffer, logged.lFreebuf]
  have allocs : (log.setCaller count .alloc).caller count = .alloc := update_self ..
  have allocated : (log.setCaller count .alloc).step (.alloc count) =
      some ((log.setCaller count .alloc).alloc count) := by
    rw [LogModule.step, if_pos allocs]
  have holds : ((log.setCaller count .alloc).alloc count).caller count = .holds log.allocated :=
    update_self ..
  have pushed : ((log.setCaller count .alloc).alloc count).step (.logBuffer count) =
      some (((log.setCaller count .alloc).alloc count).logBuffer count log.allocated) := by
    simp only [LogModule.step, holds]
  refine ⟨_, ((logged.reached.step (by trivial) (machine_step got)).step (by trivial)
    (machine_step allocated)).step (by trivial) (machine_step pushed), rfl, logged.lFreebuf, ?_, ?_⟩
  · change (log.lPending ++ [_]).length = _
    rw [List.length_append, logged.lPending]
    rfl
  · change update (update (update _ count _) count _) count _ = _
    rw [update_idem, update_idem]

private theorem wrap_succ (count : Nat) :
    Task.wrap (Task.wrap count + 1) = Task.wrap (count + 1 : Nat) := by
  unfold Task.wrap
  rw [Int.bmod_add_bmod]
  rfl

theorem Logged.submit {log : LogModule Nat Unit} {count : Nat} (logged : Logged log count)
    (raised : log.lTask.tskPend ≠ 0) : ∃ next, Logged next (count + 1) := by
  obtain ⟨before, reached, lTask, lFreebuf, lPending, caller⟩ := logged.push
  have admits : before.Admits (.submit count) = true := by
    rw [Admits, caller, update_self]
    rfl
  have fresh : before.lTask.call count = .fresh := by
    rw [lTask]
    exact (logged.fresh count (Nat.le_refl count)).2
  have stepped : before.step (.task (.submit count)) =
      some { before with lTask := before.lTask.taskSubmit count } := by
    rw [LogModule.step, if_pos admits, Task.step, if_pos fresh]
    rfl
  refine ⟨_, reached.step (by trivial) (machine_step stepped), lFreebuf, lPending, ?_, ?_, ?_⟩
  · change (before.lTask.taskSubmit count).tskPend = _
    rw [Task.tskPend_taskSubmit, lTask, logged.tskPend, wrap_succ]
  · intro call later
    have apart : call ≠ count := by omega
    have old := logged.fresh call (by omega)
    refine ⟨?_, ?_⟩
    · change before.caller call = _
      rw [caller, update_of_ne apart, old.1]
    · change (before.lTask.taskSubmit count).call call = _
      rw [Task.taskSubmit, if_neg (lTask ▸ raised)]
      exact (update_of_ne apart ..).trans (lTask ▸ old.2)
  · intro call below
    change (before.lTask.taskSubmit count).call call = _
    rw [Task.taskSubmit, if_neg (lTask ▸ raised)]
    by_cases own : call = count
    · exact own ▸ update_self ..
    · exact (update_of_ne own ..).trans (lTask ▸ logged.returned call (by omega))

private theorem logged_new : Logged new 0 :=
  ⟨Machine.reached_start rfl, rfl, rfl, rfl, fun _ _ => ⟨rfl, rfl⟩, nofun⟩

/-- The first call hands the task to the pool. -/
theorem exists_logged_one : ∃ log, Logged log 1 := by
  obtain ⟨before, reached, lTask, lFreebuf, lPending, caller⟩ := logged_new.push
  have admits : before.Admits (.submit 0) = true := by
    rw [Admits, caller, update_self]
    rfl
  have submitted : before.step (.task (.submit 0)) =
      some { before with lTask := Task.new.taskSubmit 0 } := by
    rw [LogModule.step, if_pos admits, lTask]
    rfl
  have scheduled : ({ before with lTask := Task.new.taskSubmit 0 } : LogModule Nat Unit).step
      (.task (.schedule 0)) =
        some { before with lTask := (Task.new.taskSubmit 0).schedule 0 } := rfl
  refine ⟨_, (reached.step (by trivial) (machine_step submitted)).step (by trivial)
    (machine_step scheduled), lFreebuf, lPending, rfl, ?_, ?_⟩
  · intro call later
    have apart : call ≠ 0 := by omega
    refine ⟨?_, ?_⟩
    · change before.caller call = _
      rw [caller, update_of_ne apart]
      rfl
    · exact (update_of_ne apart ..).trans (update_of_ne apart ..)
  · intro call below
    obtain rfl : call = 0 := by omega
    rfl

theorem exists_logged (count : Nat) (below : count < 2 ^ 32) : ∃ log, Logged log (count + 1) := by
  induction count with
  | zero => exact exists_logged_one
  | succ count ih =>
      obtain ⟨log, logged⟩ := ih (by omega)
      refine logged.submit ?_
      rw [logged.tskPend, Task.wrap, Int.bmod_def]
      omega

/-- After `2 ^ 32` messages the counter is 0 again, and all of them are pending. -/
theorem exists_turning_not_delivered : ∃ log : LogModule Nat Unit,
    (machine Nat Unit).Reached (· = new) Turning log ∧ ¬ Sound log := by
  obtain ⟨log, logged⟩ := exists_logged (2 ^ 32 - 1) (by omega)
  refine ⟨log, logged.reached, fun sound => ?_⟩
  have zero : log.lTask.tskPend = 0 := by
    rw [logged.tskPend]
    decide
  have empty := sound.drained zero fun call pushed => by
    apply logged.returned
    by_contra later
    rw [(logged.fresh call (by omega)).1] at pushed
    cases pushed
  have full := logged.lPending
  rw [empty] at full
  cases full

end LogModule

end Tvntd
