import Tvntd.Di.ThreadPool.Crew

/-! # Runs of the thread pool

What every run keeps that stops the pool while no request is on its way
(`preserves_quiet`), and what a run keeps that does not stop it (`Serving.step`).
-/

namespace Tvntd

open Placement

namespace ThreadPool

set_option linter.unusedSectionVars false

variable {Req Mod : Type} [DecidableEq Req] {pool next : ThreadPool Req Mod}

/-! ## Initial states -/

theorem contents_modInit (thpMin thpMax : Nat) (created : Nat → Bool)
    (request : Req → Request Mod) :
    (modInit thpMin thpMax created request).contents = fun _ => [] := by
  funext place
  cases place with
  | queue qno => rfl
  | worker wrk | hand wrk =>
      by_cases spawned : wrk < thpMin ∧ created wrk = true
      · simp only [contents, modInit, if_pos spawned, held]
      · simp only [contents, modInit, if_neg spawned, held]
  | submitter req => rfl

theorem Initial.conserved (initial : Initial pool) : Conserved pool := by
  obtain ⟨thpMin, thpMax, created, request, -, -, rfl⟩ := initial
  refine ⟨⟨?_, ?_, ?_⟩, ?_, fun _ _ => List.not_mem_nil, fun _ _ => rfl⟩
  · rw [contents_modInit]
    exact ledger_empty _
  · rw [contents_modInit]
    rfl
  · rw [contents_modInit]
    rfl
  · intro wrk
    by_cases spawned : wrk < thpMin ∧ created wrk = true
    · simp only [modInit, if_pos spawned, List.length_nil, Int.natCast_zero]
    · simp only [modInit, if_neg spawned, List.length_nil, Int.natCast_zero]

theorem nodup_dormant (thpMin cnt : Nat) (created : Nat → Bool) :
    (List.range' thpMin cnt ++ (List.range thpMin).filter (!created ·)).Nodup := by
  refine List.nodup_append.mpr ⟨List.nodup_range', List.nodup_range.filter _, ?_⟩
  rintro wrk dormant other failed rfl
  have above := (List.mem_range'_1.mp dormant).1
  have below := List.mem_range.mp (List.mem_filter.mp failed).1
  omega

/-- Behind `mod_init` the dormant workers are those without a thread. -/
theorem Initial.crew (initial : Initial pool) : InCrew pool := by
  obtain ⟨thpMin, thpMax, created, request, -, -, rfl⟩ := initial
  have spawned : ∀ wrk, ((modInit thpMin thpMax created request).thpWorkers wrk).pc ≠ .out →
      wrk < thpMin ∧ created wrk = true := by
    intro wrk up
    by_contra down
    exact up (by simp only [modInit, if_neg down])
  refine ⟨⟨?_, ?_⟩, ?_, ?_, fun _ => trivial, ?_⟩
  · intro wrk first second here there
    cases first with
    | list =>
        cases second with
        | list => rfl
        | submitter req => exact (List.not_mem_nil there).elim
    | submitter req => exact (List.not_mem_nil here).elim
  · intro place
    cases place with
    | list => exact nodup_dormant thpMin (thpMax - thpMin) created
    | submitter req => exact List.nodup_nil
  · intro wrk listed
    have down : ¬ (wrk < thpMin ∧ created wrk = true) := by
      rintro ⟨below, made⟩
      rcases List.mem_append.mp listed with dormant | failed
      · have above := (List.mem_range'_1.mp dormant).1
        omega
      · have unmade := (List.mem_filter.mp failed).2
        rw [made] at unmade
        cases unmade
    simp only [modInit, if_neg down]
    exact ⟨rfl, rfl⟩
  · intro qno some_ wrk listed
    simp only [modInit, if_neg some_] at listed
    exact (List.not_mem_nil listed).elim
  · intro _ wrk up
    have made := spawned wrk up
    simp only [modInit, if_pos made]
    exact ⟨nofun, nofun⟩

/-! ## Quiet runs -/

/-- Every step of a quiet run keeps the requests, the counters and the workers. -/
theorem preserves_quiet : (machine Req Mod).Preserves Quiet fun pool =>
    Conserved pool ∧ InCrew pool := by
  rintro pool act next output ⟨conserved, crew⟩ quiet stepped
  have taken := taken_of_machine stepped
  exact ⟨conserved.step crew.orderly taken, crew.step quiet taken⟩

/-! ## Runs before the stop -/

/-- The pool is not shut down. -/
structure Serving (pool : ThreadPool Req Mod) : Prop where
  running : pool.thpShutdown = false
  conserved : Conserved pool
  crew : InCrew pool

private theorem quiet_of_running {act : Act Req Mod} (other : act ≠ .stop)
    (running : pool.thpShutdown = false) :
    Quiet pool act := by
  cases act with
  | stop => exact (other rfl).elim
  | schedule mod req qno => exact fun shut => absurd (running.symm.trans shut) Bool.false_ne_true
  | retry req => exact fun shut => absurd (running.symm.trans shut) Bool.false_ne_true
  | _ => trivial

/-- Every step but the stop keeps a pool that serves. -/
theorem Serving.step (serving : Serving pool) {act : Act Req Mod} (other : act ≠ .stop)
    (taken : Taken pool act next) : Serving next where
  running := (taken.thpShutdown_eq other).trans serving.running
  conserved := serving.conserved.step serving.crew.orderly taken
  crew := serving.crew.step (quiet_of_running other serving.running) taken

theorem Initial.serving (initial : Initial pool) : Serving pool := by
  have conserved := initial.conserved
  have crew := initial.crew
  obtain ⟨thpMin, thpMax, created, request, -, -, rfl⟩ := initial
  exact ⟨rfl, conserved, crew⟩

/-! ## Requests -/

/-- The request is executed. -/
def Executing (pool : ThreadPool Req Mod) (req : Req) : Prop :=
  (∃ wrk, (pool.thpWorkers wrk).pc = .running req) ∨ pool.submit req = .inlineRunning

/-- The request is in a queue, of the pool or of a worker. -/
def Queued (pool : ThreadPool Req Mod) (req : Req) : Prop :=
  (∃ qno, req ∈ pool.mQueue qno) ∨ ∃ wrk, req ∈ (pool.thpWorkers wrk).wrkQueue

/-- Two workers with their threads. -/
def twoWorkers : ThreadPool Nat Unit :=
  modInit 2 2 (fun _ => true) fun _ => ⟨none, Request.waiting⟩

theorem initial_twoWorkers : Initial twoWorkers := ⟨2, 2, _, _, by decide, Nat.le_refl 2, rfl⟩

end ThreadPool

end Tvntd
