import Mathlib.Logic.Basic

/-! # Machines with partial steps

A machine takes one labelled step at a time and may refuse it: a refused step is
a label that is not enabled, or a program that aborts. A run is a list of
labels together with the outputs of its steps.

A *guard* is a condition on the state before a step and on the step's label. It
restricts attention to the runs all of whose steps meet it
(`Machine.Meets`). Two rules reduce statements about whole runs to one step:
`Machine.Preserves.run` for an invariant, and `Machine.Simulates.run` for a
total abstract machine that predicts every output.
-/

universe u v w x

/-- A deterministic labelled machine whose steps may be refused. -/
structure Machine (State : Type u) (Label : Type v) (Output : Type w) where
  step : State → Label → Option (State × Output)

namespace Machine

variable {State : Type u} {Label : Type v} {Output : Type w} {Abstract : Type x}

/-- The final state and the outputs of a list of steps. -/
def run (m : Machine State Label Output) : State → List Label → Option (State × List Output)
  | state, [] => some (state, [])
  | state, label :: rest =>
      (m.step state label).bind fun next =>
        (m.run next.1 rest).map fun final => (final.1, next.2 :: final.2)

/-- Every step of the run meets the guard in the state it is taken from. -/
def Meets (m : Machine State Label Output) (guard : State → Label → Prop) :
    State → List Label → Prop
  | _, [] => True
  | state, label :: rest =>
      guard state label ∧
        ∀ next output, m.step state label = some (next, output) → m.Meets guard next rest

variable {m : Machine State Label Output}

@[simp] theorem run_nil (state : State) : m.run state [] = some (state, []) := rfl

private theorem run_cons (state : State) (label : Label) (rest : List Label) :
    m.run state (label :: rest) =
      (m.step state label).bind fun next =>
        (m.run next.1 rest).map fun final => (final.1, next.2 :: final.2) := rfl

/-- A successful run starts with a successful step. -/
theorem run_cons_eq_some {state final : State} {label : Label} {rest : List Label}
    {outputs : List Output} (ran : m.run state (label :: rest) = some (final, outputs)) :
    ∃ next output later, m.step state label = some (next, output) ∧
      m.run next rest = some (final, later) ∧ outputs = output :: later := by
  rw [run_cons] at ran
  obtain ⟨⟨next, output⟩, stepped, ran⟩ := Option.bind_eq_some_iff.mp ran
  obtain ⟨⟨reached, later⟩, tail, same⟩ := Option.map_eq_some_iff.mp ran
  cases same
  exact ⟨next, output, later, stepped, tail, rfl⟩

theorem run_cons_of_step {state next : State} {label : Label} {output : Output}
    (stepped : m.step state label = some (next, output)) (rest : List Label) :
    m.run state (label :: rest) =
      (m.run next rest).map fun final => (final.1, output :: final.2) := by
  rw [run_cons, stepped]
  rfl

/-- The last step of a run. -/
theorem run_concat (labels : List Label) (label : Label) : ∀ state : State,
    m.run state (labels ++ [label]) = (m.run state labels).bind fun before =>
      (m.step before.1 label).map fun next => (next.1, before.2 ++ [next.2]) := by
  induction labels with
  | nil =>
      intro state
      rw [List.nil_append, run_cons, run_nil, Option.bind_some]
      cases m.step state label with
      | none => rfl
      | some next => rfl
  | cons head rest ih =>
      intro state
      rw [List.cons_append, run_cons, run_cons]
      cases m.step state head with
      | none => rfl
      | some next =>
          rw [Option.bind_some, Option.bind_some, ih]
          cases m.run next.1 rest with
          | none => rfl
          | some before =>
              rw [Option.bind_some, Option.map_some, Option.bind_some, Option.map_map]
              rfl

/-- What runs, runs up to every point. -/
theorem run_of_prefix {labels rest : List Label} : ∀ {state : State} {final : State × List Output},
    m.run state (labels ++ rest) = some final → ∃ before, m.run state labels = some before := by
  induction labels with
  | nil => exact fun _ => ⟨_, rfl⟩
  | cons label labels ih =>
      intro state final ran
      obtain ⟨next, output, later, stepped, tail, -⟩ := run_cons_eq_some ran
      obtain ⟨before, reached⟩ := ih tail
      refine ⟨(before.1, output :: before.2), ?_⟩
      rw [run_cons_of_step stepped, reached]
      rfl

@[simp] theorem meets_nil (guard : State → Label → Prop) (state : State) :
    m.Meets guard state [] := trivial

theorem Meets.tail {guard : State → Label → Prop} {state next : State} {label : Label}
    {rest : List Label} {output : Output} (meets : m.Meets guard state (label :: rest))
    (stepped : m.step state label = some (next, output)) : m.Meets guard next rest :=
  meets.2 next output stepped

/-- Two guards met by a run are met together. -/
theorem Meets.and {first second : State → Label → Prop} {state : State} {labels : List Label}
    (left : m.Meets first state labels) (right : m.Meets second state labels) :
    m.Meets (fun state label => first state label ∧ second state label) state labels := by
  induction labels generalizing state with
  | nil => trivial
  | cons label rest ih =>
      refine ⟨⟨left.1, right.1⟩, ?_⟩
      intro next output stepped
      exact ih (left.tail stepped) (right.tail stepped)

/-- A weaker guard is met by every run that meets a stronger one. -/
theorem Meets.mono {first second : State → Label → Prop}
    (weaker : ∀ state label, first state label → second state label) {state : State}
    {labels : List Label} (meets : m.Meets first state labels) : m.Meets second state labels := by
  induction labels generalizing state with
  | nil => trivial
  | cons label rest ih =>
      refine ⟨weaker state label meets.1, ?_⟩
      intro next output stepped
      exact ih (meets.tail stepped)

/-- A guard that no step violates is met by every run. -/
theorem meets_of_forall {guard : State → Label → Prop} (always : ∀ state label, guard state label)
    (state : State) (labels : List Label) : m.Meets guard state labels := by
  induction labels generalizing state with
  | nil => trivial
  | cons label rest ih => exact ⟨always state label, fun next _ _ => ih next⟩

/-- A guard on the labels alone. -/
theorem meets_of_labels {guard : Label → Prop} {labels : List Label}
    (all : ∀ label ∈ labels, guard label) (state : State) :
    m.Meets (fun _ => guard) state labels := by
  induction labels generalizing state with
  | nil => trivial
  | cons label rest ih =>
      exact ⟨all label List.mem_cons_self,
        fun next _ _ => ih (fun later inside => all later (List.mem_cons_of_mem _ inside)) next⟩

/-- Along a run that succeeds, guards that agree on every step that is taken are met together. -/
theorem meets_congr_of_run {first second : State → Label → Prop}
    (agree : ∀ state label after, m.step state label = some after →
      (first state label ↔ second state label)) {state : State} {labels : List Label}
    {final : State × List Output} (ran : m.run state labels = some final) :
    m.Meets first state labels ↔ m.Meets second state labels := by
  induction labels generalizing state final with
  | nil => exact Iff.rfl
  | cons label rest ih =>
      obtain ⟨next, output, later, stepped, tail, -⟩ := run_cons_eq_some ran
      have here := agree state label _ stepped
      constructor
      · intro meets
        refine ⟨here.mp meets.1, ?_⟩
        intro other result again
        have after := meets.tail again
        rw [stepped] at again
        cases again
        exact (ih tail).mp after
      · intro meets
        refine ⟨here.mpr meets.1, ?_⟩
        intro other result again
        have after := meets.tail again
        rw [stepped] at again
        cases again
        exact (ih tail).mpr after

instance instDecidableMeets (m : Machine State Label Output) (guard : State → Label → Prop)
    [∀ state label, Decidable (guard state label)] :
    ∀ state labels, Decidable (m.Meets guard state labels)
  | _, [] => isTrue trivial
  | state, label :: rest =>
      match stepped : m.step state label with
      | none => decidable_of_iff (guard state label) (by simp [Meets, stepped])
      | some (next, output) =>
          have := instDecidableMeets m guard next rest
          decidable_of_iff (guard state label ∧ m.Meets guard next rest)
            (by simp [Meets, stepped])

/-- The states reached from an initial state by runs that meet the guard. -/
def Reached (m : Machine State Label Output) (initial : State → Prop)
    (guard : State → Label → Prop) (state : State) : Prop :=
  ∃ start labels outputs, initial start ∧ m.Meets guard start labels ∧
    m.run start labels = some (state, outputs)

/-- The state behind a run that succeeds. -/
def final (m : Machine State Label Output) (start : State) (labels : List Label)
    (ran : (m.run start labels).isSome = true) : State :=
  ((m.run start labels).get ran).1

/-- The state behind a run that meets the guard is reached. -/
theorem reached_final {initial : State → Prop} {guard : State → Label → Prop} {start : State}
    {labels : List Label} (begins : initial start) (meets : m.Meets guard start labels)
    (ran : (m.run start labels).isSome = true) :
    m.Reached initial guard (m.final start labels ran) :=
  ⟨start, labels, _, begins, meets, (Option.some_get ran).symm⟩

/-- A run is continued by a step that meets the guard. -/
theorem Meets.concat {guard : State → Label → Prop} {labels : List Label} {label : Label} :
    ∀ {start state : State} {outputs : List Output}, m.Meets guard start labels →
      m.run start labels = some (state, outputs) → guard state label →
        m.Meets guard start (labels ++ [label]) := by
  induction labels with
  | nil =>
      intro start state outputs _ ran meets
      rw [run_nil, Option.some.injEq, Prod.mk.injEq] at ran
      exact ⟨ran.1 ▸ meets, fun _ _ _ => trivial⟩
  | cons head rest ih =>
      intro start state outputs before ran meets
      obtain ⟨next, output, later, stepped, tail, -⟩ := run_cons_eq_some ran
      refine ⟨before.1, fun other result again => ?_⟩
      rw [stepped] at again
      cases again
      exact ih (before.tail stepped) tail meets

theorem reached_start {initial : State → Prop} {guard : State → Label → Prop} {start : State}
    (begins : initial start) : m.Reached initial guard start :=
  ⟨start, [], [], begins, trivial, rfl⟩

/-- One more step is a longer run. -/
theorem Reached.step {initial : State → Prop} {guard : State → Label → Prop} {state next : State}
    {label : Label} {output : Output} (reached : m.Reached initial guard state)
    (meets : guard state label) (stepped : m.step state label = some (next, output)) :
    m.Reached initial guard next := by
  obtain ⟨start, labels, outputs, begins, before, ran⟩ := reached
  refine ⟨start, labels ++ [label], outputs ++ [output], begins, before.concat ran meets, ?_⟩
  rw [run_concat, ran, Option.bind_some, stepped, Option.map_some]

/-- One step from a state satisfying the predicate, taken under the guard,
leads to a state satisfying it. -/
def Preserves (m : Machine State Label Output) (guard : State → Label → Prop)
    (predicate : State → Prop) : Prop :=
  ∀ state label next output, predicate state → guard state label →
    m.step state label = some (next, output) → predicate next

/-- What each step keeps, a run keeps. -/
theorem Preserves.run {guard : State → Label → Prop} {predicate : State → Prop}
    (preserves : m.Preserves guard predicate) {labels : List Label} :
    ∀ {start final : State} {outputs : List Output}, predicate start →
      m.Meets guard start labels → m.run start labels = some (final, outputs) →
        predicate final := by
  induction labels with
  | nil =>
      intro start final outputs holds _ ran
      rw [run_nil, Option.some.injEq, Prod.mk.injEq] at ran
      exact ran.1 ▸ holds
  | cons label rest ih =>
      intro start final outputs holds meets ran
      obtain ⟨next, output, later, stepped, tail, -⟩ := run_cons_eq_some ran
      exact ih (preserves start label next output holds meets.1 stepped)
        (meets.tail stepped) tail

/-- A predicate of the initial states that every guarded step preserves holds in
every state reached. -/
theorem Preserves.reached {initial : State → Prop} {guard : State → Label → Prop}
    {predicate : State → Prop} (preserves : m.Preserves guard predicate)
    (holds : ∀ start, initial start → predicate start) {state : State}
    (reached : m.Reached initial guard state) : predicate state := by
  obtain ⟨start, labels, outputs, begins, meets, ran⟩ := reached
  exact preserves.run (holds start begins) meets ran

/-- Guards that agree on the legal steps from an invariant are met together. -/
theorem Preserves.meets_congr {legal first second : State → Label → Prop}
    {invariant : State → Prop} (preserves : m.Preserves legal invariant)
    (agree : ∀ state label, invariant state → legal state label →
      (first state label ↔ second state label)) {labels : List Label} :
    ∀ {state : State}, invariant state → m.Meets legal state labels →
      (m.Meets first state labels ↔ m.Meets second state labels) := by
  induction labels with
  | nil => exact fun _ _ => Iff.rfl
  | cons label rest ih =>
      intro state holds legally
      refine and_congr (agree state label holds legally.1) ?_
      refine forall_congr' fun next => forall_congr' fun output => imp_congr_right fun stepped => ?_
      exact ih (preserves state label next output holds legally.1 stepped)
        (legally.tail stepped)

/-- **The exact guard of a gauge.** Where legal steps that meet the guard keep a gauge and all
others raise it, it is where it was at the end of a legal run exactly when every step met the
guard. -/
theorem Preserves.gauge_eq_iff {legal guard : State → Label → Prop} {invariant : State → Prop}
    {gauge : State → Int} (preserves : m.Preserves legal invariant)
    (keeps : ∀ state label next output, invariant state → legal state label →
      m.step state label = some (next, output) → guard state label → gauge next = gauge state)
    (raises : ∀ state label next output, invariant state → legal state label →
      m.step state label = some (next, output) → ¬ guard state label → gauge state < gauge next)
    {labels : List Label} : ∀ {start final : State} {outputs : List Output}, invariant start →
      m.Meets legal start labels → m.run start labels = some (final, outputs) →
        gauge start ≤ gauge final ∧ (gauge final = gauge start ↔ m.Meets guard start labels) := by
  induction labels with
  | nil =>
      intro start final outputs _ _ ran
      rw [run_nil, Option.some.injEq, Prod.mk.injEq] at ran
      obtain ⟨rfl, -⟩ := ran
      exact ⟨Int.le_refl _, iff_of_true rfl trivial⟩
  | cons label rest ih =>
      intro start final outputs holds meets ran
      obtain ⟨next, output, later, stepped, tail, -⟩ := run_cons_eq_some ran
      obtain ⟨least, same⟩ := ih (preserves start label next output holds meets.1 stepped)
        (meets.tail stepped) tail
      by_cases met : guard start label
      · have kept := keeps start label next output holds meets.1 stepped met
        rw [kept] at least same
        refine ⟨least, same.trans ⟨fun later => ⟨met, ?_⟩, fun all => all.tail stepped⟩⟩
        intro other result again
        rw [stepped] at again
        cases again
        exact later
      · have raised := raises start label next output holds meets.1 stepped met
        exact ⟨by omega, iff_of_false (by omega) fun all => met all.1⟩

/-- No step of the list is refused, and the predicate holds in every state along it. -/
def Always (m : Machine State Label Output) (predicate : State → Prop) :
    State → List Label → Prop
  | state, [] => predicate state
  | state, label :: rest =>
      predicate state ∧
        ∃ next output, m.step state label = some (next, output) ∧ m.Always predicate next rest

theorem Always.here {predicate : State → Prop} {state : State} {labels : List Label}
    (always : m.Always predicate state labels) : predicate state := by
  cases labels with
  | nil => exact always
  | cons label rest => exact always.1

/-- It holds behind the run. -/
theorem Always.run {predicate : State → Prop} {labels : List Label} : ∀ {state : State},
    m.Always predicate state labels → ∃ final outputs, m.run state labels = some (final, outputs) ∧
      predicate final := by
  induction labels with
  | nil => exact fun always => ⟨_, _, rfl, always⟩
  | cons label rest ih =>
      rintro state ⟨-, next, output, stepped, later⟩
      obtain ⟨final, outputs, ran, holds⟩ := ih later
      refine ⟨final, output :: outputs, ?_, holds⟩
      rw [run_cons_of_step stepped, ran]
      rfl

/-- Every step of the list returns, with an output that is right in the state it is taken from. -/
def Answers (m : Machine State Label Output) (right : State → Label → Output → Prop) :
    State → List Label → Prop
  | _, [] => True
  | state, label :: rest =>
      ∃ next output, m.step state label = some (next, output) ∧ right state label output ∧
        m.Answers right next rest

/-- Where a step that meets the guard keeps an invariant and is answered right, so is every list
whose steps meet it. -/
theorem answers_of_meets {guard : State → Label → Prop} {invariant : State → Prop}
    {right : State → Label → Output → Prop}
    (answered : ∀ state label, invariant state → guard state label →
      ∃ next output, m.step state label = some (next, output) ∧ invariant next ∧
        right state label output) {labels : List Label} :
    ∀ {state : State}, invariant state → m.Meets guard state labels →
      m.Answers right state labels := by
  induction labels with
  | nil => exact fun _ _ => trivial
  | cons label rest ih =>
      intro state holds meets
      obtain ⟨next, output, stepped, still, given⟩ := answered state label holds meets.1
      exact ⟨next, output, stepped, given, ih still (meets.tail stepped)⟩

/-- **The exact guard.** Where legal steps keep an invariant that implies the predicate as long as
they meet the guard, and break the predicate as soon as they do not, the predicate holds along
a legal list exactly when all its steps meet the guard. -/
theorem always_iff_meets {predicate invariant : State → Prop} {legal guard : State → Label → Prop}
    (holds : ∀ state, invariant state → predicate state)
    (keeps : ∀ state label, invariant state → legal state label → guard state label →
      ∃ next output, m.step state label = some (next, output) ∧ invariant next)
    (breaks : ∀ state label next output, invariant state → legal state label →
      ¬ guard state label → m.step state label = some (next, output) → ¬ predicate next)
    {labels : List Label} : ∀ {state : State}, invariant state → m.Meets legal state labels →
      (m.Always predicate state labels ↔ m.Meets guard state labels) := by
  induction labels with
  | nil => exact fun held _ => iff_of_true (holds _ held) trivial
  | cons label rest ih =>
      intro state held legally
      constructor
      · rintro ⟨-, next, output, stepped, later⟩
        have met : guard state label := Classical.byContradiction fun unmet =>
          breaks state label next output held legally.1 unmet stepped later.here
        refine ⟨met, ?_⟩
        intro other result again
        obtain ⟨after, final, taken, still⟩ := keeps state label held legally.1 met
        have same := again.symm.trans stepped
        have sameTaken := again.symm.trans taken
        cases same
        cases sameTaken
        exact (ih still (legally.tail again)).mp later
      · rintro ⟨met, later⟩
        obtain ⟨next, output, stepped, still⟩ := keeps state label held legally.1 met
        exact ⟨holds state held, next, output, stepped,
          (ih still (legally.tail stepped)).mpr (later next output stepped)⟩

/-- A total abstract machine: every step is enabled and its output determined. -/
def specRun (next : Abstract → Label → Abstract × Output) :
    Abstract → List Label → Abstract × List Output
  | abstract, [] => (abstract, [])
  | abstract, label :: rest =>
      let after := next abstract label
      let final := specRun next after.1 rest
      (final.1, after.2 :: final.2)

/-- The abstract states along a run of the abstract machine meet a condition on
the label that is about to be taken. -/
def SpecMeets (next : Abstract → Label → Abstract × Output) (legal : Abstract → Label → Prop) :
    Abstract → List Label → Prop
  | _, [] => True
  | abstract, label :: rest =>
      legal abstract label ∧ SpecMeets next legal (next abstract label).1 rest

theorem specMeets_of_forall {next : Abstract → Label → Abstract × Output}
    {legal : Abstract → Label → Prop} (always : ∀ abstract label, legal abstract label)
    {abstract : Abstract} (labels : List Label) : SpecMeets next legal abstract labels := by
  induction labels generalizing abstract with
  | nil => trivial
  | cons label rest ih => exact ⟨always abstract label, ih⟩

instance instDecidableSpecMeets (next : Abstract → Label → Abstract × Output)
    (legal : Abstract → Label → Prop) [∀ abstract label, Decidable (legal abstract label)] :
    ∀ abstract labels, Decidable (SpecMeets next legal abstract labels)
  | _, [] => isTrue trivial
  | abstract, label :: rest =>
      have := instDecidableSpecMeets next legal (next abstract label).1 rest
      inferInstanceAs (Decidable (_ ∧ _))

/-- Related states take every guarded legal step together: the concrete machine
does not refuse, gives the abstract output, and the successors are related. -/
def Simulates (m : Machine State Label Output) (next : Abstract → Label → Abstract × Output)
    (guard : State → Label → Prop) (legal : Abstract → Label → Prop)
    (related : State → Abstract → Prop) : Prop :=
  ∀ state abstract label, related state abstract → legal abstract label → guard state label →
    ∃ after, m.step state label = some (after, (next abstract label).2) ∧
      related after (next abstract label).1

/-- **Forward simulation.** From related states, every run whose steps meet the
guard and are legal for the abstract machine succeeds, gives the outputs of the
abstract machine and ends in related states. -/
theorem Simulates.run {next : Abstract → Label → Abstract × Output}
    {guard : State → Label → Prop} {legal : Abstract → Label → Prop}
    {related : State → Abstract → Prop} (simulates : m.Simulates next guard legal related)
    {labels : List Label} : ∀ {state : State} {abstract : Abstract}, related state abstract →
      SpecMeets next legal abstract labels → m.Meets guard state labels →
        ∃ final, m.run state labels = some (final, (specRun next abstract labels).2) ∧
          related final (specRun next abstract labels).1 := by
  induction labels with
  | nil => exact fun holds _ _ => ⟨_, rfl, holds⟩
  | cons label rest ih =>
      intro state abstract holds legal meets
      obtain ⟨after, stepped, still⟩ := simulates state abstract label holds legal.1 meets.1
      obtain ⟨final, ran, ends⟩ := ih still legal.2 (meets.tail stepped)
      refine ⟨final, ?_, ends⟩
      rw [run_cons_of_step stepped, ran]
      rfl

/-- A guard that every step with the abstract output needs is met by every run with the
abstract outputs. -/
theorem Simulates.meets_of_run {next : Abstract → Label → Abstract × Output}
    {guard : State → Label → Prop} {legal : Abstract → Label → Prop}
    {related : State → Abstract → Prop} (simulates : m.Simulates next guard legal related)
    (needed : ∀ state abstract label after, related state abstract → legal abstract label →
      m.step state label = some (after, (next abstract label).2) → guard state label)
    {labels : List Label} : ∀ {state final : State} {abstract : Abstract}, related state abstract →
      SpecMeets next legal abstract labels →
        m.run state labels = some (final, (specRun next abstract labels).2) →
          m.Meets guard state labels := by
  induction labels with
  | nil => exact fun _ _ _ => trivial
  | cons label rest ih =>
      intro state final abstract holds legal ran
      obtain ⟨after, output, later, stepped, tail, same⟩ := run_cons_eq_some ran
      obtain ⟨rfl, rfl⟩ := List.cons.inj same
      have here := needed state abstract label after holds legal.1 stepped
      refine ⟨here, ?_⟩
      intro other result again
      obtain ⟨reached, taken, still⟩ := simulates state abstract label holds legal.1 here
      rw [stepped, Option.some.injEq, Prod.mk.injEq] at taken again
      obtain ⟨rfl, -⟩ := again
      obtain ⟨rfl, -⟩ := taken
      exact ih still legal.2 tail

end Machine
