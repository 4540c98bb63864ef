import Tvntd.Lib.Machine
import Mathlib.Algebra.Group.Nat.Defs
import Mathlib.Algebra.Group.Int.Defs

/-! # `SyncLock`

A thread waits in `sync_wait` for calls of `sync_done` of other threads. The
sections under `sync_lock` are the steps: a call of `sync_done`, and what the
waiting thread does from its call, or from a wake-up, to the next wait or the
return. A wait ends by a signal or by itself.

The loop of `sync_wait` compares the counter with `sync_count` for equality: a
call too many before the comparison, and it waits for a signal that never comes.
-/

namespace Tvntd

/-- The waiting thread. A signal is pending from when it is sent to when the thread goes on. -/
inductive Waiter where
  | outside
  | blocked (signalled : Bool)
deriving DecidableEq

/-- `sync_cv` is the condition of the waiting thread, or null. -/
structure SyncLock where
  syncCount : BitVec 32
  syncNotif : BitVec 32
  syncCv : Bool
  waiter : Waiter

namespace SyncLock

def init (count : BitVec 32) : SyncLock := ⟨count, 0, false, .outside⟩

/-- The loop of `sync_wait` from its condition on, with whether `sync_wait` returns. -/
def syncWaitLoop (self : SyncLock) : SyncLock × Bool :=
  if self.syncCount ≠ self.syncNotif then ({ self with waiter := .blocked false }, false)
  else ({ self with syncCv := false, syncNotif := 0, waiter := .outside }, true)

def syncWait (self : SyncLock) : SyncLock × Bool := syncWaitLoop { self with syncCv := true }

def pthreadCondSignal (self : SyncLock) : SyncLock :=
  match self.waiter with
  | .blocked _ => { self with waiter := .blocked true }
  | .outside => self

def syncDone (self : SyncLock) : SyncLock :=
  let self := { self with syncNotif := self.syncNotif + 1 }
  if self.syncCount = self.syncNotif then
    if self.syncCv then self.pthreadCondSignal else self
  else self

/-! ## Interleavings -/

inductive Section where
  | syncWait
  | wakeUp
  | syncDone
deriving DecidableEq

/-- A lock with the calls of `sync_done` since `sync_wait` returned last, and how many there were
when it did. -/
structure Observed where
  lock : SyncLock
  doneCalls : Nat
  atReturn : Option Nat

def initObserved (count : BitVec 32) : Observed := ⟨init count, 0, none⟩

namespace Observed

/-- What is seen of a section of the waiting thread. -/
def waited (state : Observed) (result : SyncLock × Bool) : Observed :=
  if result.2 then ⟨result.1, 0, some state.doneCalls⟩
  else ⟨result.1, state.doneCalls, state.atReturn⟩

/-- One thread waits, and it goes on only where it is blocked. -/
def step (state : Observed) : Section → Option (Observed × Unit)
  | .syncWait =>
      if state.lock.waiter = .outside then some (state.waited state.lock.syncWait, ()) else none
  | .wakeUp =>
      if state.lock.waiter = .outside then none
      else some (state.waited state.lock.syncWaitLoop, ())
  | .syncDone =>
      some ({ state with lock := state.lock.syncDone, doneCalls := state.doneCalls + 1 }, ())

def machine : Machine Observed Section Unit := ⟨step⟩

/-- The waiting thread is where the section begins. -/
def Enabled (state : Observed) : Section → Prop
  | .syncWait => state.lock.waiter = .outside
  | .wakeUp => state.lock.waiter ≠ .outside
  | .syncDone => True

/-- A return had its calls, and a thread that is blocked with no signal pending lacks some. -/
structure Right (state : Observed) : Prop where
  returned : ∀ calls ∈ state.atReturn, state.lock.syncCount.toInt ≤ calls
  waits : state.lock.waiter = .blocked false → (state.doneCalls : Int) < state.lock.syncCount.toInt

/-- When the waiting thread compares, there were not too many calls, unless the counter has
wrapped back to where it should be. -/
def InTime (state : Observed) : Section → Prop
  | .syncDone => True
  | .syncWait | .wakeUp => (state.doneCalls : Int) < state.lock.syncCount.toInt ∨
      state.lock.syncCount = state.lock.syncNotif

/-- What holds between two sections. -/
structure Kept (state : Observed) : Prop extends Right state where
  counted : state.lock.syncNotif = BitVec.ofNat 32 state.doneCalls
  waiting : state.lock.syncCv = true ↔ state.lock.waiter ≠ .outside

variable {state : Observed}

theorem kept_init (count : BitVec 32) : (initObserved count).Kept where
  returned := fun _ none => nomatch none
  waits := fun none => nomatch none
  counted := rfl
  waiting := iff_of_false Bool.noConfusion fun outside => outside rfl

/-- The counter never shows more calls than there were. -/
theorem Kept.toInt_le (kept : state.Kept) (same : state.lock.syncCount = state.lock.syncNotif) :
    state.lock.syncCount.toInt ≤ state.doneCalls := by
  have read : state.lock.syncNotif.toNat = state.doneCalls % 2 ^ 32 := by
    rw [kept.counted, BitVec.toNat_ofNat]
  have remainder := Nat.mod_le state.doneCalls (2 ^ 32)
  have signed := BitVec.toInt_eq_toNat_cond state.lock.syncNotif
  rw [same]
  split at signed
  · omega
  · omega

private theorem Kept.counted_succ (kept : state.Kept) :
    state.lock.syncNotif + 1 = BitVec.ofNat 32 (state.doneCalls + 1) := by
  rw [kept.counted, BitVec.ofNat_add]
  rfl

/-- The counter shows `sync_count` at the call that makes it so many. -/
theorem Kept.shows (kept : state.Kept)
    (last : state.lock.syncCount.toInt = ((state.doneCalls + 1 : Nat) : Int)) :
    state.lock.syncCount = state.lock.syncNotif + 1 := by
  rw [kept.counted_succ, ← BitVec.ofInt_natCast, ← last, BitVec.ofInt_toInt]

/-- A section of the waiting thread, from its comparison on. -/
theorem Kept.waited (kept : state.Kept) {lock : SyncLock}
    (count : lock.syncCount = state.lock.syncCount) (notif : lock.syncNotif = state.lock.syncNotif)
    (cv : lock.syncCv = true) :
    (state.waited lock.syncWaitLoop).Kept ∧ state.InTime .wakeUp ∨
      ¬ (state.waited lock.syncWaitLoop).Right ∧ ¬ state.InTime .wakeUp := by
  unfold SyncLock.syncWaitLoop
  by_cases same : lock.syncCount = lock.syncNotif
  · have shown : state.lock.syncCount = state.lock.syncNotif := count ▸ notif ▸ same
    rw [if_neg (fun other => other same)]
    refine Or.inl ⟨?_, Or.inr shown⟩
    exact {
      returned := fun calls returned => by
        cases returned
        exact count ▸ kept.toInt_le shown
      waits := fun blocked => nomatch blocked
      counted := rfl
      waiting := iff_of_false Bool.noConfusion fun outside => outside rfl }
  · rw [if_pos same]
    by_cases few : (state.doneCalls : Int) < state.lock.syncCount.toInt
    · refine Or.inl ⟨?_, Or.inl few⟩
      exact {
        returned := fun calls returned => by
          rw [Observed.waited, if_neg Bool.false_ne_true] at returned ⊢
          exact count.symm ▸ kept.returned calls returned
        waits := fun _ => by
          rw [Observed.waited, if_neg Bool.false_ne_true]
          exact count.symm ▸ few
        counted := notif.trans kept.counted
        waiting := iff_of_true cv fun outside => nomatch outside }
    · refine Or.inr ⟨fun right => few ?_, fun inTime => ?_⟩
      · have blocked := right.waits rfl
        exact count ▸ blocked
      · rcases inTime with less | shown
        · exact few less
        · exact same (count.trans (shown.trans notif.symm))

@[simp] theorem syncCount_syncDone (lock : SyncLock) :
    lock.syncDone.syncCount = lock.syncCount := by
  unfold SyncLock.syncDone pthreadCondSignal
  grind

@[simp] theorem syncNotif_syncDone (lock : SyncLock) :
    lock.syncDone.syncNotif = lock.syncNotif + 1 := by
  unfold SyncLock.syncDone pthreadCondSignal
  grind

@[simp] theorem syncCv_syncDone (lock : SyncLock) : lock.syncDone.syncCv = lock.syncCv := by
  unfold SyncLock.syncDone pthreadCondSignal
  grind

private theorem outside_syncDone (lock : SyncLock) :
    lock.syncDone.waiter = .outside ↔ lock.waiter = .outside := by
  unfold SyncLock.syncDone pthreadCondSignal
  grind

/-- A thread that waits without a signal waited so before the call, and the call was not the one
it waits for. -/
theorem blocked_syncDone {lock : SyncLock} (blocked : lock.syncDone.waiter = .blocked false)
    (cv : lock.syncCv = true ↔ lock.waiter ≠ .outside) :
    lock.waiter = .blocked false ∧ lock.syncCount ≠ lock.syncNotif + 1 := by
  unfold SyncLock.syncDone pthreadCondSignal at blocked
  grind

theorem Kept.done (kept : state.Kept) :
    Kept { state with lock := state.lock.syncDone, doneCalls := state.doneCalls + 1 } where
  returned := fun calls returned => by
    rw [syncCount_syncDone]
    exact kept.returned calls returned
  waits := fun blocked => by
    obtain ⟨before, other⟩ := blocked_syncDone blocked kept.waiting
    have few := kept.waits before
    have notLast := mt kept.shows other
    change ((state.doneCalls + 1 : Nat) : Int) < _
    rw [syncCount_syncDone]
    omega
  counted := by
    rw [syncNotif_syncDone, kept.counted_succ]
  waiting := by
    rw [syncCv_syncDone, kept.waiting]
    exact not_congr (outside_syncDone _).symm

/-- **One section.** It keeps the invariant exactly when the waiting thread compares in time. -/
theorem Kept.step (kept : state.Kept) {label : Section} (enabled : state.Enabled label) :
    ∃ next, state.step label = some (next, ()) ∧
      (next.Kept ∧ state.InTime label ∨ ¬ next.Right ∧ ¬ state.InTime label) := by
  cases label with
  | syncWait => exact ⟨_, if_pos enabled, kept.waited rfl rfl rfl⟩
  | wakeUp => exact ⟨_, if_neg enabled, kept.waited rfl rfl (kept.waiting.mpr enabled)⟩
  | syncDone => exact ⟨_, rfl, Or.inl ⟨kept.done, trivial⟩⟩

end Observed

/-- **A wait ends as soon as it should, and not before, exactly in the runs where the waiting thread
always compares in time.** -/
theorem always_right_iff_inTime (count : BitVec 32) {labels : List Section}
    (enabled : Observed.machine.Meets Observed.Enabled (initObserved count) labels) :
    Observed.machine.Always Observed.Right (initObserved count) labels ↔
      Observed.machine.Meets Observed.InTime (initObserved count) labels := by
  refine Machine.always_iff_meets (fun _ kept => Observed.Kept.toRight kept) ?_ ?_
    (Observed.kept_init count) enabled
  · intro state label kept enabled inTime
    obtain ⟨next, stepped, ⟨still, -⟩ | ⟨-, late⟩⟩ := kept.step enabled
    · exact ⟨next, (), stepped, still⟩
    · exact absurd inTime late
  · intro state label next output kept enabled late stepped
    obtain ⟨other, taken, ⟨-, inTime⟩ | ⟨wrong, -⟩⟩ := kept.step enabled
    · exact absurd inTime late
    · have same := taken.symm.trans stepped
      cases same
      exact wrong

section Runs

instance (state : Observed) : DecidablePred state.Enabled
  | .syncWait => inferInstanceAs (Decidable (_ = _))
  | .wakeUp => inferInstanceAs (Decidable (_ ≠ _))
  | .syncDone => inferInstanceAs (Decidable True)

instance (state : Observed) : DecidablePred state.InTime
  | .syncDone => inferInstanceAs (Decidable True)
  | .syncWait | .wakeUp => inferInstanceAs (Decidable (_ ∨ _))

/-- The last of two calls comes to a thread that waits. -/
theorem always_right_iff_inTime_two :
    Observed.machine.Always Observed.Right (initObserved 2)
      [.syncDone, .syncWait, .wakeUp, .syncDone, .wakeUp, .syncWait] :=
  (always_right_iff_inTime 2 (by decide)).mpr (by decide)

/-- Two calls before a wait for one. -/
theorem early_calls_not_right :
    Observed.machine.Meets Observed.Enabled (initObserved 1) [.syncDone, .syncDone, .syncWait] ∧
      ¬ Observed.machine.Always Observed.Right (initObserved 1)
        [.syncDone, .syncDone, .syncWait] := by
  refine ⟨by decide, fun always => ?_⟩
  obtain ⟨final, outputs, ran, right⟩ := always.run
  cases ran
  exact absurd (right.waits rfl) (by decide)

end Runs

end SyncLock

end Tvntd
