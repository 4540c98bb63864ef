import Tvntd.Lib.Machine

/-! # Transitions

A step that contains loops need not have an outcome, and nothing computes one in
general: a transition relates the state before a labelled step to the states and
outputs behind it. What is said of all runs is said step by step (`Answers`), or
by an abstract machine that every run follows (`Follows`).
-/

universe u v w x

structure Transition (State : Type u) (Label : Type v) (Output : Type w) where
  step : State → Label → State → Output → Prop

namespace Transition

variable {State : Type u} {Label : Type v} {Output : Type w} {Abstract : Type x}

/-- The runs of a list of labels, with the outputs of their steps. -/
inductive Runs (t : Transition State Label Output) :
    State → List Label → State → List Output → Prop
  | nil (state : State) : Runs t state [] state []
  | cons {state next final : State} {label : Label} {rest : List Label} {output : Output}
      {outputs : List Output} (stepped : t.step state label next output)
      (later : Runs t next rest final outputs) :
      Runs t state (label :: rest) final (output :: outputs)

/-- Every step meets the guard in the state it is taken from, on every run. -/
def Meets (t : Transition State Label Output) (guard : State → Label → Prop) :
    State → List Label → Prop
  | _, [] => True
  | state, label :: rest =>
      guard state label ∧
        ∀ next output, t.step state label next output → t.Meets guard next rest

/-- Every step has an outcome, and each of its outcomes is right. -/
def Answers (t : Transition State Label Output) (right : State → Label → State → Output → Prop) :
    State → List Label → Prop
  | _, [] => True
  | state, label :: rest =>
      (∃ next output, t.step state label next output) ∧
        ∀ next output, t.step state label next output →
          right state label next output ∧ t.Answers right next rest

variable {t : Transition State Label Output}

/-- Where a step that meets the guard has an outcome, and its outcomes keep an invariant and are
right, so it is for a list whose steps all meet the guard. -/
theorem answers_of_meets {guard : State → Label → Prop} {invariant : State → Prop}
    {right : State → Label → State → Output → Prop}
    (answered : ∀ state label, invariant state → guard state label →
      (∃ next output, t.step state label next output) ∧
        ∀ next output, t.step state label next output →
          invariant next ∧ right state label next output)
    {labels : List Label} : ∀ {state : State}, invariant state → t.Meets guard state labels →
      t.Answers right state labels := by
  induction labels with
  | nil => exact fun _ _ => trivial
  | cons label rest ih =>
      intro state holds meets
      obtain ⟨goes, each⟩ := answered state label holds meets.1
      refine ⟨goes, ?_⟩
      intro next output stepped
      obtain ⟨still, answer⟩ := each next output stepped
      exact ⟨answer, ih still (meets.2 next output stepped)⟩

/-- Related states take every legal step: it has an outcome, and whatever the outcome is, the
output is the one of the abstract machine and the states behind it are related. -/
def Follows (t : Transition State Label Output) (next : Abstract → Label → Abstract × Output)
    (legal : Abstract → Label → Prop) (related : State → Abstract → Prop) : Prop :=
  ∀ state abstract label, related state abstract → legal abstract label →
    (∃ after output, t.step state label after output) ∧
      ∀ after output, t.step state label after output →
        output = (next abstract label).2 ∧ related after (next abstract label).1

/-- **Following a total machine.** From related states a list of legal labels has a run, and all
its runs give the outputs of the abstract machine and end in related states. -/
theorem Follows.run {next : Abstract → Label → Abstract × Output}
    {legal : Abstract → Label → Prop} {related : State → Abstract → Prop}
    (follows : t.Follows next legal related) {labels : List Label} :
    ∀ {state : State} {abstract : Abstract}, related state abstract →
      Machine.SpecMeets next legal abstract labels →
        (∃ final outputs, t.Runs state labels final outputs) ∧
          ∀ final outputs, t.Runs state labels final outputs →
            outputs = (Machine.specRun next abstract labels).2 ∧
              related final (Machine.specRun next abstract labels).1 := by
  induction labels with
  | nil =>
      intro state abstract holds _
      refine ⟨⟨state, [], .nil state⟩, ?_⟩
      intro final outputs ran
      cases ran
      exact ⟨rfl, holds⟩
  | cons label rest ih =>
      intro state abstract holds legal
      obtain ⟨⟨after, output, stepped⟩, each⟩ := follows state abstract label holds legal.1
      refine ⟨?_, ?_⟩
      · obtain ⟨final, outputs, later⟩ := (ih (each after output stepped).2 legal.2).1
        exact ⟨final, output :: outputs, .cons stepped later⟩
      · intro final outputs ran
        cases ran with
        | cons taken later =>
            obtain ⟨same, still⟩ := each _ _ taken
            obtain ⟨others, ends⟩ := (ih still legal.2).2 _ _ later
            subst same others
            exact ⟨rfl, ends⟩

end Transition
