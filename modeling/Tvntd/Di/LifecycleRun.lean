import Tvntd.Di.Lifecycle
import Mathlib.Data.List.Count

/-! # The drivers of the life cycle

Both drivers take the phases in order and act on the root in each of them. An
action whose effect is that of one call of the method of `Module` adds one round
to the record, in which every module below the root is called once.
-/

set_option linter.unusedSectionVars false

namespace Tvntd

namespace Phase

/-- The phases in the order in which they are run. -/
def all : List Phase :=
  [.init, .resolve, .startup, .startSvc, .stopSvc, .shutdown, .cleanup]

private theorem mem_all (phase : Phase) : phase ∈ all := by
  cases phase <;> decide

def Before (earlier later : Phase) : Prop :=
  all.idxOf earlier < all.idxOf later

instance (earlier later : Phase) : Decidable (earlier.Before later) :=
  inferInstanceAs (Decidable (_ < _))

/-- The phases whose method loops from the last slot to the first. -/
def backward : Phase → Bool
  | .init | .resolve | .startup | .startSvc => false
  | .stopSvc | .shutdown | .cleanup => true

def marks : Phase → Bool
  | .cleanup => false
  | _ => true

end Phase

variable {Mod : Type} [DecidableEq Mod]

/-! ## Rounds -/

/-- One round of calls for each phase. -/
def rounds (phases : List Phase) (visited : Phase → List Mod) : List (Mod × Phase) :=
  phases.flatMap fun phase => (visited phase).map fun mod => (mod, phase)

/-- The calls of a phase among some modules, in the order of the record. -/
def order (trace : List (Mod × Phase)) (phase : Phase) (among : List Mod) : List Mod :=
  trace.filterMap fun event => if event.2 = phase ∧ event.1 ∈ among then some event.1 else none

theorem mem_rounds {phases : List Phase} {visited : Phase → List Mod} {mod : Mod} {phase : Phase} :
    (mod, phase) ∈ rounds phases visited ↔ phase ∈ phases ∧ mod ∈ visited phase := by
  unfold rounds
  rw [List.mem_flatMap]
  constructor
  · rintro ⟨other, run, inside⟩
    obtain ⟨_, called, same⟩ := List.mem_map.mp inside
    cases same
    exact ⟨run, called⟩
  · rintro ⟨run, called⟩
    exact ⟨phase, run, List.mem_map.mpr ⟨mod, called, rfl⟩⟩

private theorem count_round (round : List Mod) (mod : Mod) (phase other : Phase) :
    (round.map fun called => (called, other)).count (mod, phase) =
      if other = phase then round.count mod else 0 := by
  by_cases same : other = phase
  · subst same
    rw [if_pos rfl]
    exact List.count_map_of_injective _ _ (fun _ _ both => (Prod.mk.inj both).1) mod
  · rw [if_neg same, List.count_eq_zero]
    intro inside
    obtain ⟨_, -, both⟩ := List.mem_map.mp inside
    exact same (Prod.mk.inj both).2

private theorem order_round (round : List Mod) (phase other : Phase) (among : List Mod) :
    order (round.map fun called => (called, other)) phase among =
      if other = phase then round.filter (· ∈ among) else [] := by
  induction round with
  | nil => simp [order]
  | cons mod round ih =>
      unfold order at ih ⊢
      rw [List.map_cons, List.filterMap_cons, ih]
      by_cases same : other = phase
      · by_cases member : mod ∈ among
        · simp [same, member]
        · simp [same, member]
      · simp [same]

private theorem count_rounds (visited : Phase → List Mod) (mod : Mod) (phase : Phase) :
    (rounds Phase.all visited).count (mod, phase) = (visited phase).count mod := by
  simp only [rounds, Phase.all, List.flatMap_cons, List.flatMap_nil, List.append_nil,
    List.count_append, count_round]
  cases phase <;> simp

private theorem order_rounds (visited : Phase → List Mod) (phase : Phase) (among : List Mod) :
    order (rounds Phase.all visited) phase among = (visited phase).filter (· ∈ among) := by
  have appended : ∀ first second : List (Mod × Phase),
      order (first ++ second) phase among = order first phase among ++ order second phase among :=
    fun _ _ => List.filterMap_append
  simp only [rounds, Phase.all, List.flatMap_cons, List.flatMap_nil, List.append_nil, appended,
    order_round]
  cases phase <;> simp

/-- A round begins after the rounds of all the phases before. -/
theorem mem_before_of_rounds {visited : Phase → List Mod} {before after : List (Mod × Phase)}
    {mod other : Mod} {phase earlier : Phase}
    (record : rounds Phase.all visited = before ++ (mod, phase) :: after)
    (ahead : earlier.Before phase) (called : other ∈ visited earlier) :
    (other, earlier) ∈ before := by
  have sorted : (rounds Phase.all visited).Pairwise
      fun first second => Phase.all.idxOf first.2 ≤ Phase.all.idxOf second.2 := by
    refine List.pairwise_flatMap.mpr ⟨?_, ?_⟩
    · intro run _
      exact List.pairwise_map.mpr (List.pairwise_of_forall fun _ _ => Nat.le_refl _)
    · have phases : Phase.all.Pairwise
          fun first second => Phase.all.idxOf first ≤ Phase.all.idxOf second := by decide
      refine phases.imp fun {first second} ordered x inFirst y inSecond => ?_
      obtain ⟨_, -, rfl⟩ := List.mem_map.mp inFirst
      obtain ⟨_, -, rfl⟩ := List.mem_map.mp inSecond
      exact ordered
  have inside : (other, earlier) ∈ rounds Phase.all visited :=
    mem_rounds.mpr ⟨earlier.mem_all, called⟩
  rw [record] at sorted inside
  rcases List.mem_append.mp inside with found | late
  · exact found
  · have behind := (List.pairwise_cons.mp (List.pairwise_append.mp sorted).2.1).1
    rcases List.mem_cons.mp late with same | later
    · cases same
      exact absurd ahead (Nat.lt_irrefl _)
    · exact absurd ahead (Nat.not_lt.mpr (behind _ later))

namespace ModulePtr

/-- A driver whose action in every phase has an effect on clear modules adds a round for every
phase. -/
theorem effect_foldl {act : Phase → Life Mod → Life Mod} {visited touched : Phase → List Mod}
    {mods : List Mod} (effects : ∀ phase life, Clear phase life mods →
      Effect phase life (act phase life) (visited phase) (touched phase)) :
    ∀ (phases : List Phase) (life : Life Mod), phases.Nodup →
      (∀ phase ∈ phases, Clear phase life mods) →
      (phases.foldl (fun life phase => act phase life) life).trace =
          life.trace ++ rounds phases visited ∧
        ∀ q m, (phases.foldl (fun life phase => act phase life) life).Marked q m →
          life.Marked q m ∨ (q ∈ phases ∧ m ∈ touched q)
  | [], life, _, _ => ⟨(List.append_nil _).symm, fun _ _ marked => Or.inl marked⟩
  | phase :: rest, life, distinct, clear => by
      obtain ⟨apart, others⟩ := List.nodup_cons.mp distinct
      have now := effects phase life (clear phase List.mem_cons_self)
      have later : ∀ q ∈ rest, Clear q (act phase life) mods := by
        intro q inside mod member marked
        rcases now.marked q mod marked with before | ⟨same, -⟩
        · exact clear q (List.mem_cons_of_mem _ inside) mod member before
        · exact apart (same ▸ inside)
      obtain ⟨trace, marked⟩ := effect_foldl effects rest (act phase life) others later
      refine ⟨?_, ?_⟩
      · rw [List.foldl_cons, trace, now.trace, List.append_assoc]
        rfl
      · intro q m after
        rcases marked q m after with before | ⟨inside, member⟩
        · rcases now.marked q m before with earlier | ⟨same, member⟩
          · exact Or.inl earlier
          · exact Or.inr ⟨List.mem_cons.mpr (Or.inl same), same ▸ member⟩
        · exact Or.inr ⟨List.mem_cons_of_mem _ inside, member⟩

end ModulePtr

namespace ModuleTree

open ModulePtr

variable (calls : Mod → Phase → Nat) (tree : ModuleTree Mod) (phase : Phase)

/-- The modules below the root in the order in which the method of `Module` calls theirs. -/
def visits : List Mod :=
  ModulePtr.visits phase.backward tree.top

private theorem rootBase_eq :
    tree.rootBase calls phase = modPhase calls phase phase.marks phase.backward tree.top := by
  cases phase <;> rfl

private theorem mods_top : tree.top.mods = tree.root :: tree.descendants := by
  unfold top descendants
  cases tree.mDepIdx with
  | none => rfl
  | some depIdx => rfl

private theorem mod_top : tree.top.mod? = some tree.root := by
  unfold top
  cases tree.mDepIdx with
  | none => rfl
  | some depIdx => rfl

private theorem distinct_top : tree.top.mods.Nodup := by
  rw [mods_top]
  exact tree.distinct

theorem perm_visits : (tree.visits phase).Perm tree.descendants := by
  have whole := ModulePtr.perm_visits phase.backward tree.top
  rw [mods_top, mod_top] at whole
  exact List.Perm.cons_inv whole

private theorem count_visits {mod : Mod} (below : mod ∈ tree.descendants) :
    (tree.visits phase).count mod = 1 := by
  rw [(tree.perm_visits phase).count_eq]
  exact List.count_eq_one_of_mem (List.nodup_cons.mp tree.distinct).2 below

private theorem root_ne {mod : Mod} (below : mod ∈ tree.descendants) : tree.root ≠ mod := by
  rintro same
  exact (List.nodup_cons.mp tree.distinct).1 (same ▸ below)

variable {life : Life Mod}

private theorem effect_rootBase (clear : Clear phase life tree.top.mods) :
    Effect phase life (tree.rootBase calls phase life) (tree.visits phase) tree.top.mods := by
  rw [rootBase_eq]
  exact effect_modPhase calls phase _ _ tree.top life tree.distinct_top clear

private theorem rootBase_iterate (times : Nat) (life : Life Mod) :
    (tree.rootBase calls phase)^[times] life =
      if times = 0 then life else tree.rootBase calls phase life := by
  cases times with
  | zero => rfl
  | succ times =>
      have again := modPhase_modPhase calls phase phase.marks phase.backward tree.top life
      rw [← rootBase_eq] at again
      rw [Function.iterate_succ_apply, Function.iterate_fixed again, if_neg (Nat.succ_ne_zero _)]

/-- The modules that a virtual call on the root reaches. -/
def reached : List Mod :=
  if calls tree.root phase = 0 then [] else tree.visits phase

private theorem effect_rootCall (clear : Clear phase life tree.top.mods) :
    Effect phase life (tree.rootCall calls phase life) (tree.root :: tree.reached calls phase)
      tree.top.mods := by
  have called := effect_call phase tree.root life
  unfold rootCall virtualCall reached
  rw [rootBase_iterate]
  split
  · exact called.mono phase (List.nil_subset _)
  · exact called.trans phase (tree.effect_rootBase calls phase clear)

private theorem clear_built (registered : Mod → Bool) (mods : List Mod) :
    Clear phase (Life.built registered) mods :=
  fun mod _ => Life.not_marked_built registered phase mod

private theorem progPhases_trace (registered : Mod → Bool) :
    (tree.progPhases calls (Life.built registered)).trace =
      rounds Phase.all fun phase => tree.root :: tree.reached calls phase :=
  (effect_foldl (fun phase _ => tree.effect_rootCall calls phase) Phase.all
    (Life.built registered) (by decide) fun phase _ => clear_built phase registered _).1

theorem count_progPhases (registered : Mod → Bool) (plain : ∀ phase, calls tree.root phase = 1)
    {mod : Mod} (below : mod ∈ tree.descendants) :
    (tree.progPhases calls (Life.built registered)).trace.count (mod, phase) = 1 := by
  rw [progPhases_trace, count_rounds, List.count_cons_of_ne (tree.root_ne below), reached, plain,
    if_neg Nat.one_ne_zero]
  exact tree.count_visits phase below

/-- Every method of every module was called once, the phases one after the other, and siblings in
the order of registration or its reverse. -/
structure CalledInOrder (life : Life Mod) : Prop where
  once : ∀ mod ∈ tree.descendants, ∀ phase, life.trace.count (mod, phase) = 1
  phases : ∀ (earlier phase : Phase) (mod : Mod) (before after : List (Mod × Phase)),
    earlier.Before phase → life.trace = before ++ (mod, phase) :: after →
      ∀ other ∈ tree.root :: tree.descendants, (other, earlier) ∈ before
  siblings : ∀ siblings, Within siblings tree.top →
    (∀ phase ∈ [Phase.init, .resolve, .startup, .startSvc],
      order life.trace phase (slotMods siblings) = slotMods siblings) ∧
    ∀ phase ∈ [Phase.stopSvc, .shutdown, .cleanup],
      order life.trace phase (slotMods siblings) = (slotMods siblings).reverse

private theorem calledInOrder_progPhases (registered : Mod → Bool)
    (plain : ∀ phase, calls tree.root phase = 1) :
    tree.CalledInOrder (tree.progPhases calls (Life.built registered)) := by
  have record : (tree.progPhases calls (Life.built registered)).trace =
      rounds Phase.all fun phase => tree.root :: tree.visits phase := by
    rw [progPhases_trace]
    refine congrArg (rounds Phase.all) (funext fun phase => ?_)
    rw [reached, plain, if_neg Nat.one_ne_zero]
  refine ⟨fun mod below phase => tree.count_progPhases calls phase registered plain below, ?_, ?_⟩
  · intro earlier phase mod before after ahead split other inside
    rw [record] at split
    refine mem_before_of_rounds split ahead ?_
    exact ((tree.perm_visits earlier).cons tree.root).mem_iff.mpr inside
  · intro siblings within
    have ordered : ∀ phase : Phase,
        order (tree.progPhases calls (Life.built registered)).trace phase (slotMods siblings) =
          if phase.backward then (slotMods siblings).reverse else slotMods siblings := by
      intro phase
      have own := within.filter_visits phase.backward tree.distinct_top
      have apart : tree.root ∉ slotMods siblings := fun member =>
        tree.root_ne ((tree.perm_visits phase).subset
          (within.subset_visits phase.backward member)) rfl
      rw [record, order_rounds, List.filter_cons_of_neg (by simpa using apart)]
      exact own
    refine ⟨fun phase up => ?_, fun phase down => ?_⟩
    · rw [ordered]
      cases phase with
      | init | resolve | startup | startSvc => rfl
      | stopSvc | shutdown | cleanup => exact absurd up (by decide)
    · rw [ordered]
      cases phase with
      | init | resolve | startup | startSvc => exact absurd down (by decide)
      | stopSvc | shutdown | cleanup => rfl

/-- A program without a null slot gets to its phases. -/
theorem progRun_of_full (full : ∀ dep ∈ tree.mDepIdx.getD [], dep ≠ .null) (life : Life Mod) :
    tree.progRun calls life = some (tree.progPhases calls life) := by
  have named : (tree.mDepIdx.getD []).all fun dep => dep.mod?.isSome := by
    refine List.all_eq_true.mpr fun dep inside => ?_
    cases dep with
    | null => exact absurd rfl (full _ inside)
    | leaf mod => rfl
    | parent mod depIdx => rfl
  rw [progRun, progInternalInit, if_pos named, Option.map_some]

private theorem eq_of_progRun {life ran : Life Mod} (returns : tree.progRun calls life = some ran) :
    (∀ dep ∈ tree.mDepIdx.getD [], dep ≠ .null) ∧ ran = tree.progPhases calls life := by
  unfold progRun progInternalInit at returns
  split at returns
  · rename_i named
    refine ⟨?_, (Option.some.inj returns).symm⟩
    rintro dep inside rfl
    exact absurd (List.all_eq_true.mp named _ inside) Bool.false_ne_true
  · cases returns

/-- **Exactly when a program runs.** A program, whose own module overrides nothing, calls every
method of every module in order just if no slot of its module is null. -/
theorem progRun_calls_iff (registered : Mod → Bool)
    (plain : ∀ phase, calls tree.root phase = 1) :
    (∃ life, tree.progRun calls (Life.built registered) = some life ∧ tree.CalledInOrder life) ↔
      ∀ dep ∈ tree.mDepIdx.getD [], dep ≠ .null := by
  constructor
  · rintro ⟨life, ran, -⟩
    exact (tree.eq_of_progRun calls ran).1
  · intro full
    exact ⟨_, tree.progRun_of_full calls full _,
      tree.calledInOrder_progPhases calls registered plain⟩

/-- A program with a module that never calls the method of `Module`, above one that calls it three
times and one that does not override it. -/
def nested : ModuleTree Nat :=
  ⟨0, some [.parent 1 [.leaf 2, .null, .leaf 3], .leaf 4], by decide⟩

def nestedCalls (mod : Nat) (_ : Phase) : Nat := [1, 0, 3, 1, 0].getD mod 1

theorem progRun_calls_iff_nested :
    ∃ life, nested.progRun nestedCalls (Life.built fun mod => mod != 0) = some life ∧
      nested.CalledInOrder life := by
  refine (progRun_calls_iff nestedCalls nested (fun mod => mod != 0) fun _ => rfl).mpr ?_
  intro dep inside
  rcases List.mem_pair.mp inside with rfl | rfl
  · exact fun same => nomatch same
  · exact fun same => nomatch same

/-- One of two modules of a program was unregistered. -/
theorem exists_progRun_dies : ∃ tree : ModuleTree Nat, tree.descendants = [1] ∧
    tree.progRun (fun _ _ => 1) (Life.built fun mod => mod != 0) = none :=
  ⟨⟨0, some [.leaf 1, .null], by decide⟩, rfl, rfl⟩

/-! ## Start and shutdown -/

def startAndShutdown (registered : Mod → Bool) : Life Mod :=
  tree.moduleShutdown calls (tree.moduleStart calls (Life.built registered))

/-- The start and the shutdown call the methods of every module below the root once, as a program
with the tree among its modules does if it gets to its phases, and a second shutdown calls
nothing. -/
def RunsOnce (registered : Mod → Bool) : Prop :=
  (∀ mod ∈ tree.descendants, ∀ phase,
    (tree.startAndShutdown calls registered).trace.count (mod, phase) = 1 ∧
      ∀ program : ModuleTree Mod, tree.top ∈ program.mDepIdx.getD [] →
        (∀ phase, calls program.root phase = 1) →
          ∀ ran, program.progRun calls (Life.built registered) = some ran →
            (tree.startAndShutdown calls registered).trace.count (mod, phase) =
              ran.trace.count (mod, phase)) ∧
  (tree.moduleShutdown calls (tree.startAndShutdown calls registered)).trace =
    (tree.startAndShutdown calls registered).trace

private theorem rootBase_settled (life : Life Mod) :
    Settled phase phase.marks (tree.rootBase calls phase life) tree.top := by
  rw [rootBase_eq]
  exact settled_modPhase calls phase _ _ tree.top life

/-- The part of `module_shutdown` that is not skipped calls below the root and then the root. -/
theorem stopPhase_eq (fresh : ¬ life.Marked phase tree.root) :
    tree.stopPhase calls phase life = (tree.rootBase calls phase life).call phase tree.root := by
  have again : tree.rootBase calls phase ((tree.rootBase calls phase life).call phase tree.root) =
      (tree.rootBase calls phase life).call phase tree.root := by
    have settled : Settled phase phase.marks
        ((tree.rootBase calls phase life).call phase tree.root) tree.top := by
      have before := tree.rootBase_settled calls phase life
      cases held : tree.top with
      | null => trivial
      | leaf mod => exact (held ▸ before : Settled _ _ _ (.leaf mod))
      | parent mod depIdx => exact (held ▸ before : Settled _ _ _ (.parent mod depIdx))
    rw [rootBase_eq] at settled ⊢
    exact modPhase_of_settled calls phase _ _ settled
  rw [stopPhase, if_neg fresh]
  exact Function.iterate_fixed again _

private theorem effect_stopPhase (clear : Clear phase life tree.top.mods) :
    Effect phase life (tree.stopPhase calls phase life) (tree.visits phase ++ [tree.root])
      tree.top.mods := by
  have fresh : ¬ life.Marked phase tree.root :=
    clear tree.root (by rw [mods_top]; exact List.mem_cons_self)
  rw [stopPhase_eq calls tree phase fresh]
  refine ((tree.effect_rootBase calls phase clear).trans phase (effect_call phase _ _)).mono phase ?_
  rw [List.append_nil]
  exact List.Subset.refl _

/-- What `module_start` and `module_shutdown` do with the root in a phase. -/
def startOrStop (life : Life Mod) : Life Mod :=
  if phase.backward then tree.stopPhase calls phase life else tree.rootCall calls phase life

/-- The modules that they call in a phase. -/
def startOrStopVisits : List Mod :=
  if phase.backward then tree.visits phase ++ [tree.root] else tree.root :: tree.reached calls phase

private theorem effect_startOrStop (clear : Clear phase life tree.top.mods) :
    Effect phase life (tree.startOrStop calls phase life) (tree.startOrStopVisits calls phase)
      tree.top.mods := by
  unfold startOrStop startOrStopVisits
  split
  · exact tree.effect_stopPhase calls phase clear
  · exact tree.effect_rootCall calls phase clear

private theorem startAndShutdown_trace (registered : Mod → Bool) :
    (tree.startAndShutdown calls registered).trace =
      rounds Phase.all (tree.startOrStopVisits calls) :=
  (effect_foldl (fun phase _ => tree.effect_startOrStop calls phase) Phase.all
    (Life.built registered) (by decide) fun phase _ => clear_built phase registered _).1

private theorem count_startAndShutdown (registered : Mod → Bool) {mod : Mod}
    (below : mod ∈ tree.descendants) :
    (tree.startAndShutdown calls registered).trace.count (mod, phase) =
      if phase.backward = false ∧ calls tree.root phase = 0 then 0 else 1 := by
  rw [startAndShutdown_trace, count_rounds]
  unfold startOrStopVisits
  cases phase.backward with
  | true =>
      rw [if_pos rfl, if_neg (fun both => Bool.noConfusion both.1), List.count_append,
        tree.count_visits phase below,
        List.count_eq_zero.mpr (by simpa using (tree.root_ne below).symm)]
  | false =>
      rw [if_neg Bool.false_ne_true, List.count_cons_of_ne (tree.root_ne below), reached]
      by_cases never : calls tree.root phase = 0
      · rw [if_pos never, if_pos ⟨rfl, never⟩, List.count_nil]
      · rw [if_neg never, if_neg fun both => never both.2, tree.count_visits phase below]

/-! ### The second shutdown -/

private theorem marked_rootCall {q : Phase} {m : Mod} (marked : life.Marked q m) :
    (tree.rootCall calls phase life).Marked q m := by
  have called : (life.call phase tree.root).Marked q m := marked
  refine Function.Iterate.rec (fun life : Life Mod => life.Marked q m) called ?_ _
  intro before kept
  rw [rootBase_eq]
  exact marked_modPhase calls phase _ _ tree.top before kept

private theorem marked_stopPhase {q : Phase} {m : Mod} (marked : life.Marked q m) :
    (tree.stopPhase calls phase life).Marked q m := by
  unfold stopPhase
  split
  · exact marked
  · refine tree.marked_rootCall calls phase ?_
    rw [rootBase_eq]
    exact marked_modPhase calls phase _ _ tree.top life marked

/-- A part of `module_shutdown` marks the root, except for the cleanup of a root without
`m_dep_idx`. -/
theorem marked_root_stopPhase (marking : phase.marks = true ∨ tree.mDepIdx ≠ none)
    (life : Life Mod) : (tree.stopPhase calls phase life).Marked phase tree.root := by
  by_cases fresh : life.Marked phase tree.root
  · exact tree.marked_stopPhase calls phase fresh
  · rw [stopPhase_eq calls tree phase fresh, Life.marked_call]
    have settled := tree.rootBase_settled calls phase life
    unfold top at settled
    cases held : tree.mDepIdx with
    | none =>
        rw [held] at settled
        exact settled (marking.resolve_right fun some => some held)
    | some depIdx =>
        rw [held] at settled
        exact settled

private theorem moduleShutdown_of_marked (stopped : life.Marked .stopSvc tree.root)
    (shut : life.Marked .shutdown tree.root) :
    tree.moduleShutdown calls life = tree.stopPhase calls .cleanup life := by
  have first : tree.stopPhase calls .stopSvc life = life := if_pos stopped
  have second : tree.stopPhase calls .shutdown life = life := if_pos shut
  change tree.stopPhase calls .cleanup
    (tree.stopPhase calls .shutdown (tree.stopPhase calls .stopSvc life)) = _
  rw [first, second]

private theorem second_shutdown (life : Life Mod) :
    tree.moduleShutdown calls (tree.moduleShutdown calls life) =
      tree.stopPhase calls .cleanup (tree.moduleShutdown calls life) := by
  apply moduleShutdown_of_marked
  · refine tree.marked_stopPhase calls .cleanup (tree.marked_stopPhase calls .shutdown ?_)
    exact tree.marked_root_stopPhase calls .stopSvc (Or.inl rfl) life
  · refine tree.marked_stopPhase calls .cleanup ?_
    exact tree.marked_root_stopPhase calls .shutdown (Or.inl rfl) _

private theorem second_shutdown_of_allocated (allocated : tree.mDepIdx ≠ none) (life : Life Mod) :
    tree.moduleShutdown calls (tree.moduleShutdown calls life) =
      tree.moduleShutdown calls life := by
  rw [second_shutdown]
  exact if_pos (tree.marked_root_stopPhase calls .cleanup (Or.inr allocated) _)

/-- The root without `m_dep_idx` is not marked by its cleanup, which is called again. -/
theorem second_shutdown_of_leaf (leaf : tree.mDepIdx = none) (registered : Mod → Bool) :
    (tree.moduleShutdown calls (tree.startAndShutdown calls registered)).trace =
      (tree.startAndShutdown calls registered).trace ++ [(tree.root, .cleanup)] := by
  have nothing : ∀ life, tree.rootBase calls .cleanup life = life := by
    intro life
    unfold rootBase top
    rw [leaf]
    rfl
  have clear : ¬ ([Phase.init, .resolve, .startup, .startSvc, .stopSvc, .shutdown].foldl
      (fun life phase => tree.startOrStop calls phase life)
        (Life.built registered)).Marked .cleanup tree.root := by
    intro marked
    rcases (effect_foldl (fun phase _ => tree.effect_startOrStop calls phase) _
      (Life.built registered) (by decide) fun phase _ => clear_built phase registered _).2
        .cleanup tree.root marked with before | ⟨run, -⟩
    · exact Life.not_marked_built registered .cleanup tree.root before
    · exact absurd run (by decide)
  have first := stopPhase_eq calls tree .cleanup clear
  rw [nothing] at first
  have unmarked : ¬ (tree.startAndShutdown calls registered).Marked .cleanup tree.root := by
    have ends : tree.startAndShutdown calls registered = _ := first
    rw [ends]
    exact clear
  rw [startAndShutdown, second_shutdown, ← startAndShutdown,
    stopPhase_eq calls tree .cleanup unmarked, nothing]
  rfl

/-- **Exactly when the two drivers agree.** The root has its `m_dep_idx`, and it holds no module or
what overrides the four methods of the start in the root calls the methods of `Module`. -/
theorem runsOnce_iff (registered : Mod → Bool) :
    tree.RunsOnce calls registered ↔
      ∃ depIdx, tree.mDepIdx = some depIdx ∧
        ((∀ dep ∈ depIdx, dep = .null) ∨
          ∀ phase ∈ [Phase.init, .resolve, .startup, .startSvc], 0 < calls tree.root phase) := by
  constructor
  · rintro ⟨once, again⟩
    cases held : tree.mDepIdx with
    | none =>
        rw [second_shutdown_of_leaf calls tree held] at again
        exact absurd again (by simp)
    | some depIdx =>
        refine ⟨depIdx, rfl, or_iff_not_imp_left.mpr fun holds phase start => ?_⟩
        obtain ⟨dep, inside, present⟩ : ∃ dep ∈ depIdx, dep ≠ .null := by
          by_contra none
          exact holds fun dep inside => by_contra fun present => none ⟨dep, inside, present⟩
        obtain ⟨mod, own⟩ : ∃ mod, mod ∈ slotMods depIdx := by
          cases dep with
          | null => exact absurd rfl present
          | leaf mod => exact ⟨mod, List.mem_filterMap.mpr ⟨_, inside, rfl⟩⟩
          | parent mod _ => exact ⟨mod, List.mem_filterMap.mpr ⟨_, inside, rfl⟩⟩
        have below : mod ∈ tree.descendants := by
          unfold descendants
          rw [held]
          exact slotMods_subset depIdx own
        have counted := (once mod below phase).1
        rw [count_startAndShutdown calls tree phase registered below] at counted
        have forward : phase.backward = false := by
          cases phase with
          | init | resolve | startup | startSvc => rfl
          | stopSvc | shutdown | cleanup => exact absurd start (by decide)
        refine Nat.pos_of_ne_zero fun never => ?_
        rw [if_pos ⟨forward, never⟩] at counted
        exact absurd counted (by decide)
  · rintro ⟨depIdx, held, holds⟩
    refine ⟨fun mod below phase => ?_, ?_⟩
    · have counted : (tree.startAndShutdown calls registered).trace.count (mod, phase) = 1 := by
        rw [count_startAndShutdown calls tree phase registered below]
        refine if_neg fun ⟨forward, never⟩ => ?_
        rcases holds with empty | calling
        · have inside : mod ∈ mods.modsOf depIdx := by
            unfold descendants at below
            rw [held] at below
            exact below
          exact absurd inside (not_mem_mods_of_null empty)
        · refine Nat.ne_of_gt (calling phase ?_) never
          cases phase with
          | init | resolve | startup | startSvc => decide
          | stopSvc | shutdown | cleanup => exact absurd forward (by decide)
      refine ⟨counted, fun program among plain ran returns => ?_⟩
      rw [counted, (program.eq_of_progRun calls returns).2]
      refine (program.count_progPhases calls phase registered plain ?_).symm
      exact mods_subset_modsOf among (by rw [mods_top]; exact List.mem_cons_of_mem _ below)
    · have allocated : tree.mDepIdx ≠ none := by
        rw [held]
        exact Option.some_ne_none depIdx
      rw [startAndShutdown, second_shutdown_of_allocated calls tree allocated]

/-- A root that initializes only itself, and a root without submodules. -/
theorem exists_not_runsOnce :
    ¬ RunsOnce (fun mod phase => if mod = 0 ∧ phase = .init then 0 else 1)
        (⟨0, some [.leaf 1], by decide⟩ : ModuleTree Nat) (fun mod => mod != 0) ∧
      ¬ RunsOnce (fun _ _ => 1) (⟨0, none, by decide⟩ : ModuleTree Nat) fun mod => mod != 0 := by
  constructor
  · intro once
    exact absurd (once.1 1 (by decide) .init).1 (by decide)
  · intro once
    exact absurd once.2 (by decide)

end ModuleTree

end Tvntd
