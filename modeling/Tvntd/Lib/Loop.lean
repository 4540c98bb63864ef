import Mathlib.Logic.Relation

/-! # Loops

A loop is what one turn does to its variables: it leaves with a result, goes on
with other variables, or goes wrong (`none`). Nothing bounds the number of turns,
so a loop need not return; what it returns is unique.
-/

universe u v w

structure Loop (State : Type u) (Result : Type v) where
  turn : State → Option (State ⊕ Result)

namespace Loop

variable {State : Type u} {Result : Type v}

/-- The result of a loop within a number of turns. -/
def run (loop : Loop State Result) : Nat → State → Option Result
  | 0, _ => none
  | turns + 1, state =>
      match loop.turn state with
      | none => none
      | some (.inl next) => loop.run turns next
      | some (.inr result) => some result

/-- A loop returns a result when some number of turns is enough for it. -/
def Returns (loop : Loop State Result) (state : State) (result : Result) : Prop :=
  ∃ turns, loop.run turns state = some result

/-- Some number of turns leads from one state to the other. -/
def Goes (loop : Loop State Result) : State → State → Prop :=
  Relation.ReflTransGen fun state next => loop.turn state = some (.inl next)

variable {loop : Loop State Result} {state next : State} {result : Result}

theorem returns_of_done (done : loop.turn state = some (.inr result)) :
    loop.Returns state result := ⟨1, by simp only [run, done]⟩

/-- A loop returns what it returns after a turn. -/
theorem Returns.of_turn (returns : loop.Returns next result)
    (goes : loop.turn state = some (.inl next)) : loop.Returns state result := by
  obtain ⟨turns, ran⟩ := returns
  exact ⟨turns + 1, by simp only [run, goes, ran]⟩

/-- What a loop that returned did first. -/
theorem Returns.cases (returns : loop.Returns state result) :
    loop.turn state = some (.inr result) ∨
      ∃ next, loop.turn state = some (.inl next) ∧ loop.Returns next result := by
  obtain ⟨turns, ran⟩ := returns
  cases turns with
  | zero => cases ran
  | succ turns =>
      rw [run] at ran
      cases turned : loop.turn state with
      | none =>
          rw [turned] at ran
          cases ran
      | some outcome =>
          rw [turned] at ran
          cases outcome with
          | inl next => exact Or.inr ⟨next, rfl, turns, ran⟩
          | inr last =>
              cases ran
              exact Or.inl rfl

/-- A loop that goes wrong does not return. -/
theorem not_returns_of_stuck (stuck : loop.turn state = none) : ¬ loop.Returns state result := by
  intro returns
  rcases returns.cases with done | ⟨next, went, -⟩
  · rw [stuck] at done
    cases done
  · rw [stuck] at went
    cases went

/-- What a loop returns, it returns after a turn. -/
theorem Returns.tail (returns : loop.Returns state result)
    (goes : loop.turn state = some (.inl next)) : loop.Returns next result := by
  rcases returns.cases with done | ⟨other, went, later⟩
  · rw [goes] at done
    cases done
  · rw [goes] at went
    cases went
    exact later

theorem Goes.refl (state : State) : loop.Goes state state := Relation.ReflTransGen.refl

theorem Goes.head {last : State} (goes : loop.turn state = some (.inl next))
    (later : loop.Goes next last) : loop.Goes state last := Relation.ReflTransGen.head goes later

theorem Goes.trans {last : State} (first : loop.Goes state next) (second : loop.Goes next last) :
    loop.Goes state last := Relation.ReflTransGen.trans first second

/-- A fact that every turn keeps holds of every state that is reached. -/
theorem Goes.of_invariant (invariant : State → Prop)
    (keeps : ∀ state next, invariant state → loop.turn state = some (.inl next) → invariant next)
    (goes : loop.Goes state next) (holds : invariant state) : invariant next := by
  induction goes with
  | refl => exact holds
  | tail _ turned ih => exact keeps _ _ ih turned

/-- One stage after the other. -/
theorem goes_upto {stage : Nat → State} {count : Nat}
    (each : ∀ k < count, loop.Goes (stage k) (stage (k + 1))) :
    loop.Goes (stage 0) (stage count) := by
  induction count with
  | zero => exact .refl _
  | succ count ih =>
      exact (ih fun k inside => each k (by omega)).trans (each count (Nat.lt_succ_self count))

/-- A loop returns what it returns from a state it goes to. -/
theorem Goes.returns_iff (goes : loop.Goes state next) :
    loop.Returns state result ↔ loop.Returns next result := by
  induction goes with
  | refl => exact Iff.rfl
  | tail _ turned ih =>
      rw [ih]
      exact ⟨fun returns => returns.tail turned, fun returns => returns.of_turn turned⟩

/-- A loop returns the same from states that it takes the same turn from. -/
theorem Returns.of_turn_eq (returns : loop.Returns next result)
    (same : loop.turn state = loop.turn next) : loop.Returns state result := by
  rcases returns.cases with done | ⟨after, went, later⟩
  · exact returns_of_done (same.trans done)
  · exact later.of_turn (same.trans went)

/-- A fact that every turn keeps, and that the last turn turns into another one, gives that one
of whatever the loop returns. -/
theorem Returns.of_invariant (invariant : State → Prop) (right : Result → Prop)
    (keeps : ∀ state next, invariant state → loop.turn state = some (.inl next) → invariant next)
    (ends : ∀ state result, invariant state → loop.turn state = some (.inr result) → right result)
    (returns : loop.Returns state result) (holds : invariant state) : right result := by
  obtain ⟨turns, ran⟩ := returns
  induction turns generalizing state with
  | zero => cases ran
  | succ turns ih =>
      rcases Returns.cases ⟨turns + 1, ran⟩ with done | ⟨next, went, -⟩
      · exact ends state result holds done
      · rw [run, went] at ran
        exact ih (keeps state next holds went) ran

/-- A loop returns one result. -/
theorem Returns.unique {other : Result} (first : loop.Returns state result)
    (second : loop.Returns state other) : result = other := by
  obtain ⟨turns, ran⟩ := first
  induction turns generalizing state with
  | zero => cases ran
  | succ turns ih =>
      rcases second.cases with done | ⟨next, went, later⟩
      · rw [run, done] at ran
        exact (Option.some.inj ran).symm
      · rw [run, went] at ran
        exact ih later ran

/-- Where every turn that goes on makes a number smaller, that many turns are enough. -/
theorem Returns.run_of_shrinks (invariant : State → Prop) (size : State → Nat)
    (shrinks : ∀ state next, invariant state → loop.Returns next result →
      loop.turn state = some (.inl next) → invariant next ∧ size next < size state)
    (returns : loop.Returns state result) (holds : invariant state) :
    loop.run (size state + 1) state = some result := by
  suffices more : ∀ turns, size state < turns → loop.run turns state = some result from
    more _ (Nat.lt_succ_self _)
  intro turns enough
  induction turns generalizing state with
  | zero => exact absurd enough (Nat.not_lt_zero _)
  | succ turns ih =>
      rcases returns.cases with done | ⟨next, went, later⟩
      · rw [run, done]
      · obtain ⟨still, smaller⟩ := shrinks state next holds later went
        rw [run, went]
        exact ih later still (by omega)

/-- A loop whose turns all go on, from states that stay in an invariant, never returns. -/
theorem not_returns_of_invariant (invariant : State → Prop)
    (goes : ∀ state, invariant state → ∃ next, loop.turn state = some (.inl next) ∧ invariant next)
    (holds : invariant state) : ¬ loop.Returns state result := by
  intro returns
  refine returns.of_invariant invariant (fun _ => False) ?_ ?_ holds
  · intro before after held went
    obtain ⟨next, taken, still⟩ := goes before held
    rw [went] at taken
    cases taken
    exact still
  · intro before last held done
    obtain ⟨next, taken, -⟩ := goes before held
    rw [done] at taken
    cases taken

section AndThen

variable {Final : Type w} {finish : Result → Option Final} {final : Final}

/-- The loop, and what is done with its result. -/
def andThen (loop : Loop State Result) (finish : Result → Option Final) : Loop State Final where
  turn state :=
    match loop.turn state with
    | none => none
    | some (.inl next) => some (.inl next)
    | some (.inr result) => (finish result).map Sum.inr

theorem Returns.andThen (returns : loop.Returns state result)
    (finished : finish result = some final) : (loop.andThen finish).Returns state final := by
  obtain ⟨turns, ran⟩ := returns
  induction turns generalizing state with
  | zero => cases ran
  | succ turns ih =>
      rcases Returns.cases ⟨turns + 1, ran⟩ with done | ⟨next, went, -⟩
      · rw [run, done] at ran
        cases ran
        apply returns_of_done
        simp only [Loop.andThen, done, finished, Option.map_some]
      · rw [run, went] at ran
        apply (ih ran).of_turn
        simp only [Loop.andThen, went]

theorem Returns.of_andThen (returns : (loop.andThen finish).Returns state final) :
    ∃ result, loop.Returns state result ∧ finish result = some final := by
  refine returns.of_invariant
    (fun now => ∀ result, loop.Returns now result → loop.Returns state result)
    (fun final => ∃ result, loop.Returns state result ∧ finish result = some final) ?_ ?_
    fun result returned => returned
  · intro before after reached went result returned
    cases turned : loop.turn before with
    | none => simp [Loop.andThen, turned] at went
    | some outcome =>
        cases outcome with
        | inl next =>
            simp only [Loop.andThen, turned, Option.some.injEq, Sum.inl.injEq] at went
            subst went
            exact reached result (returned.of_turn turned)
        | inr last => simp [Loop.andThen, turned] at went
  · intro before last reached done
    cases turned : loop.turn before with
    | none => simp [Loop.andThen, turned] at done
    | some outcome =>
        cases outcome with
        | inl next => simp [Loop.andThen, turned] at done
        | inr result =>
            simp only [Loop.andThen, turned, Option.map_eq_some_iff, Sum.inr.injEq,
              exists_eq_right] at done
            exact ⟨result, reached result (returns_of_done turned), done⟩

end AndThen

end Loop
