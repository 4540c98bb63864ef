import Mathlib.Logic.Basic

/-! # Services

A service answers every request, and keeps a state from one request to the next.
What a history does is said of its steps, each with the state it is taken in,
the state behind it and its answer.
-/

universe u v w

structure Service (State : Type u) (Request : Type v) (Reply : Type w) where
  serve : State → Request → State × Reply

namespace Service

variable {State : Type u} {Request : Type v} {Reply : Type w}

/-- The state behind a history. -/
def after (service : Service State Request Reply) : State → List Request → State
  | state, [] => state
  | state, request :: rest => service.after (service.serve state request).1 rest

/-- Every step of a history meets a condition. -/
def Along (service : Service State Request Reply)
    (condition : State → Request → State → Reply → Prop) : State → List Request → Prop
  | _, [] => True
  | state, request :: rest =>
      condition state request (service.serve state request).1 (service.serve state request).2 ∧
        service.Along condition (service.serve state request).1 rest

/-- Every request of a history meets a condition on the state it comes in. -/
def Meets (service : Service State Request Reply) (guard : State → Request → Prop) :
    State → List Request → Prop :=
  service.Along fun state request _ _ => guard state request

/-- The service that remembers its requests and what it answered. -/
def recorded (service : Service State Request Reply) :
    Service (State × List (Request × Reply)) Request Reply :=
  ⟨fun state request =>
    let answered := service.serve state.1 request
    ((answered.1, state.2 ++ [(request, answered.2)]), answered.2)⟩

/-- Requests that fail leave nothing behind. -/
def transactional {Error : Type u} {Result : Type w}
    (operation : State → Request → Except Error (State × Result)) :
    Service State Request (Except Error Result) :=
  ⟨fun state request =>
    match operation state request with
    | .ok (next, result) => (next, .ok result)
    | .error error => (state, .error error)⟩

theorem transactional_ok {Error : Type u} {Result : Type w}
    {operation : State → Request → Except Error (State × Result)} {state next : State}
    {request : Request} {result : Result} (done : operation state request = .ok (next, result)) :
    (transactional operation).serve state request = (next, .ok result) := by
  simp only [transactional, done]

/-- A request that fails is rolled back. -/
theorem transactional_error {Error : Type u} {Result : Type w}
    {operation : State → Request → Except Error (State × Result)} {state : State}
    {request : Request} {error : Error} (failed : operation state request = .error error) :
    (transactional operation).serve state request = (state, .error error) := by
  simp only [transactional, failed]

variable {service : Service State Request Reply}

instance instDecidableAlong (service : Service State Request Reply)
    (condition : State → Request → State → Reply → Prop)
    [∀ state request next reply, Decidable (condition state request next reply)] :
    ∀ state requests, Decidable (service.Along condition state requests)
  | _, [] => isTrue trivial
  | state, request :: rest =>
      have := instDecidableAlong service condition (service.serve state request).1 rest
      inferInstanceAs (Decidable (_ ∧ _))

instance (service : Service State Request Reply) (guard : State → Request → Prop)
    [∀ state request, Decidable (guard state request)] (state : State) (requests : List Request) :
    Decidable (service.Meets guard state requests) :=
  instDecidableAlong service _ state requests

/-- What is said of a history is said of its beginnings. -/
theorem along_of_append {condition : State → Request → State → Reply → Prop}
    {first second : List Request} : ∀ {state : State},
    service.Along condition state (first ++ second) → service.Along condition state first := by
  induction first with
  | nil => exact fun _ => trivial
  | cons request rest ih => exact fun along => ⟨along.1, ih along.2⟩

/-- Where each step from an invariant state keeps the invariant and meets the condition, so does
every history. -/
theorem along_of_invariant (invariant : State → Prop)
    {condition : State → Request → State → Reply → Prop}
    (keeps : ∀ state request, invariant state → invariant (service.serve state request).1 ∧
      condition state request (service.serve state request).1 (service.serve state request).2)
    {state : State} (holds : invariant state) (requests : List Request) :
    service.Along condition state requests := by
  induction requests generalizing state with
  | nil => trivial
  | cons request rest ih =>
      obtain ⟨still, right⟩ := keeps state request holds
      exact ⟨right, ih still⟩

/-- **The exact guard.** Where a step from an invariant state meets the condition exactly when its
request meets the guard, a history meets the condition exactly when all its requests do. -/
theorem along_iff_meets {guard : State → Request → Prop} {invariant : State → Prop}
    {condition : State → Request → State → Reply → Prop}
    (exact_step : ∀ state request, invariant state →
      (condition state request (service.serve state request).1
        (service.serve state request).2 ↔ guard state request))
    (keeps : ∀ state request, invariant state → guard state request →
      invariant (service.serve state request).1)
    {requests : List Request} : ∀ {state : State}, invariant state →
      (service.Along condition state requests ↔ service.Meets guard state requests) := by
  induction requests with
  | nil => exact fun _ => Iff.rfl
  | cons request rest ih =>
      intro state holds
      have here := exact_step state request holds
      constructor
      · rintro ⟨right, later⟩
        have met := here.mp right
        exact ⟨met, (ih (keeps state request holds met)).mp later⟩
      · rintro ⟨met, later⟩
        exact ⟨here.mpr met, (ih (keeps state request holds met)).mpr later⟩

/-- **Frames.** A preorder on the states that relates every step relates every history. -/
theorem frame_after {guard : State → Request → Prop} {frame : State → State → Prop}
    (refl : ∀ state, frame state state)
    (trans : ∀ first second third, frame first second → frame second third → frame first third)
    (step : ∀ state request, guard state request → frame state (service.serve state request).1)
    {requests : List Request} : ∀ {state : State}, service.Meets guard state requests →
      frame state (service.after state requests) := by
  induction requests with
  | nil => exact fun _ => refl _
  | cons request rest ih =>
      intro state meets
      exact trans _ _ _ (step state request meets.1) (ih meets.2)

end Service
