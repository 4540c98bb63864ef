import Mathlib.Data.List.Nodup
import Mathlib.Data.List.Perm.Basic
import Mathlib.Logic.Function.Iterate
import Mathlib.Tactic.Common
import Mathlib.Algebra.Group.Nat.Defs
import Mathlib.Algebra.Group.Int.Defs

/-! # The life cycle of a tree of modules

The seven phases of `common/di/module.cpp` and the two drivers of them:
`Program::prog_run`, which first asks every module in its slots for its name, and
`module_start` followed by `module_shutdown`.

The method of a phase in the class `Module` calls, for each submodule, the
virtual method and then the method of `Module`, which a bit of `m_state` makes
run once. What an overriding method does is known by how often it calls the
method of `Module` of the same phase; a module that does not override it calls
it once. What is not in the source is the record of the virtual calls.
-/

set_option linter.unusedSectionVars false

namespace Tvntd

open Function

/-- The phases, by their bits of `m_state`. -/
inductive Phase where
  | init
  | resolve
  | startup
  | startSvc
  | stopSvc
  | shutdown
  | cleanup
  deriving DecidableEq

namespace Phase

/-- The masks `st_init` to `st_cleanup`. -/
def st : Phase → BitVec 32
  | .init => 0x0001
  | .resolve => 0x0002
  | .startup => 0x0004
  | .startSvc => 0x0008
  | .stopSvc => 0x1000
  | .shutdown => 0x2000
  | .cleanup => 0x4000

/-- The bit that is set in the mask. -/
def bit : Phase → Nat
  | .init => 0
  | .resolve => 1
  | .startup => 2
  | .startSvc => 3
  | .stopSvc => 12
  | .shutdown => 13
  | .cleanup => 14

private theorem st_eq (phase : Phase) : phase.st = BitVec.twoPow 32 phase.bit := by
  cases phase <;> rfl

private theorem bit_lt (phase : Phase) : phase.bit < 32 := by
  cases phase <;> decide

private theorem bit_injective : Function.Injective bit := by
  intro first second same
  cases first <;> cases second <;> first | rfl | exact absurd same (by decide)

end Phase

/-- The states of the modules, and the virtual methods called so far. -/
structure Life (Mod : Type) where
  mState : Mod → BitVec 32
  trace : List (Mod × Phase)

/-- A module with its `m_dep_idx`, which is null in a leaf and has null slots. -/
inductive ModulePtr (Mod : Type) where
  | null
  | leaf (mod : Mod)
  | parent (mod : Mod) (depIdx : List (ModulePtr Mod))

variable {Mod : Type} [DecidableEq Mod]

namespace Life

def Marked (life : Life Mod) (phase : Phase) (mod : Mod) : Prop :=
  life.mState mod &&& phase.st ≠ 0

instance (life : Life Mod) (phase : Phase) (mod : Mod) : Decidable (life.Marked phase mod) :=
  inferInstanceAs (Decidable (_ ≠ _))

/-- `m_state |= st` -/
def mark (phase : Phase) (mod : Mod) (life : Life Mod) : Life Mod :=
  { life with mState := update life.mState mod (life.mState mod ||| phase.st) }

def call (phase : Phase) (mod : Mod) (life : Life Mod) : Life Mod :=
  { life with trace := life.trace ++ [(mod, phase)] }

end Life

namespace ModulePtr

/-- The module that a slot holds. -/
def mod? : ModulePtr Mod → Option Mod
  | .null => none
  | .leaf mod | .parent mod _ => some mod

/-- A virtual call of a method, by what the method of `Module` does: the overriding method calls
it `calls mod phase` times. -/
def virtualCall (calls : Mod → Phase → Nat) (phase : Phase) (mod : Mod)
    (base : Life Mod → Life Mod) (life : Life Mod) : Life Mod :=
  base^[calls mod phase] (life.call phase mod)

/-- What the loops do with a slot that holds a module. -/
def callDep (calls : Mod → Phase → Nat) (phase : Phase) (mod : Option Mod)
    (base : Life Mod → Life Mod) (life : Life Mod) : Life Mod :=
  match mod with
  | none => life
  | some mod => base (virtualCall calls phase mod base life)

/-- What an early return leaves. -/
def early (phase : Phase) (marks : Bool) (mod : Mod) (life : Life Mod) : Life Mod :=
  if marks then life.mark phase mod else life

/-- The methods differ by their bit, by whether they set it before an early return, and by the
direction of their loop. -/
def modPhase (calls : Mod → Phase → Nat) (phase : Phase) (marks backward : Bool) :
    ModulePtr Mod → Life Mod → Life Mod
  | .null => fun life => life
  | .leaf mod => fun life => early phase marks mod life
  | .parent mod depIdx => fun life =>
      if life.Marked phase mod then early phase marks mod life
      else modDeps depIdx (life.mark phase mod)
where
  modDeps : List (ModulePtr Mod) → Life Mod → Life Mod
    | [] => fun life => life
    | dep :: rest => fun life =>
        if backward then
          callDep calls phase dep.mod? (modPhase calls phase marks backward dep) (modDeps rest life)
        else
          modDeps rest (callDep calls phase dep.mod? (modPhase calls phase marks backward dep) life)

def modInit (calls : Mod → Phase → Nat) : ModulePtr Mod → Life Mod → Life Mod :=
  modPhase calls .init true false

def modResolve (calls : Mod → Phase → Nat) : ModulePtr Mod → Life Mod → Life Mod :=
  modPhase calls .resolve true false

def modStartup (calls : Mod → Phase → Nat) : ModulePtr Mod → Life Mod → Life Mod :=
  modPhase calls .startup true false

def modEnableService (calls : Mod → Phase → Nat) : ModulePtr Mod → Life Mod → Life Mod :=
  modPhase calls .startSvc true false

def modDisableService (calls : Mod → Phase → Nat) : ModulePtr Mod → Life Mod → Life Mod :=
  modPhase calls .stopSvc true true

def modShutdown (calls : Mod → Phase → Nat) : ModulePtr Mod → Life Mod → Life Mod :=
  modPhase calls .shutdown true true

/-- It returns early without setting its bit. -/
def modCleanup (calls : Mod → Phase → Nat) : ModulePtr Mod → Life Mod → Life Mod :=
  modPhase calls .cleanup false true

/-- The method of `Module` for a phase. -/
def base (calls : Mod → Phase → Nat) : Phase → ModulePtr Mod → Life Mod → Life Mod
  | .init => modInit calls
  | .resolve => modResolve calls
  | .startup => modStartup calls
  | .startSvc => modEnableService calls
  | .stopSvc => modDisableService calls
  | .shutdown => modShutdown calls
  | .cleanup => modCleanup calls

/-- The modules of a tree. -/
def mods : ModulePtr Mod → List Mod
  | .null => []
  | .leaf mod => [mod]
  | .parent mod depIdx => mod :: modsOf depIdx
where
  modsOf : List (ModulePtr Mod) → List Mod
    | [] => []
    | dep :: rest => mods dep ++ modsOf rest

end ModulePtr

/-- A tree of registered modules; `mDepIdx` is the array of its root. -/
structure ModuleTree (Mod : Type) where
  root : Mod
  mDepIdx : Option (List (ModulePtr Mod))
  distinct : (root :: ModulePtr.mods.modsOf (mDepIdx.getD [])).Nodup

namespace ModuleTree

def top (tree : ModuleTree Mod) : ModulePtr Mod :=
  match tree.mDepIdx with
  | none => .leaf tree.root
  | some depIdx => .parent tree.root depIdx

/-- The modules below the root. -/
def descendants (tree : ModuleTree Mod) : List Mod :=
  ModulePtr.mods.modsOf (tree.mDepIdx.getD [])

/-- The method of `Module` on the root. -/
def rootBase (calls : Mod → Phase → Nat) (tree : ModuleTree Mod) (phase : Phase) :
    Life Mod → Life Mod :=
  ModulePtr.base calls phase tree.top

/-- The virtual method on the root. -/
def rootCall (calls : Mod → Phase → Nat) (tree : ModuleTree Mod) (phase : Phase) :
    Life Mod → Life Mod :=
  ModulePtr.virtualCall calls phase tree.root (tree.rootBase calls phase)

def moduleStart (calls : Mod → Phase → Nat) (tree : ModuleTree Mod) (life : Life Mod) : Life Mod :=
  let life := tree.rootCall calls .init life
  let life := tree.rootCall calls .resolve life
  let life := tree.rootCall calls .startup life
  tree.rootCall calls .startSvc life

/-- One of the three parts of `module_shutdown`. -/
def stopPhase (calls : Mod → Phase → Nat) (tree : ModuleTree Mod) (phase : Phase)
    (life : Life Mod) : Life Mod :=
  if life.Marked phase tree.root then life
  else tree.rootCall calls phase (tree.rootBase calls phase life)

def moduleShutdown (calls : Mod → Phase → Nat) (tree : ModuleTree Mod) (life : Life Mod) :
    Life Mod :=
  let life := tree.stopPhase calls .stopSvc life
  let life := tree.stopPhase calls .shutdown life
  tree.stopPhase calls .cleanup life

/-- What `prog_run` calls on the module that the program owns. -/
def progPhases (calls : Mod → Phase → Nat) (pModule : ModuleTree Mod) (life : Life Mod) :
    Life Mod :=
  let life := pModule.rootCall calls .init life
  let life := pModule.rootCall calls .resolve life
  let life := pModule.rootCall calls .startup life
  let life := pModule.rootCall calls .startSvc life
  let life := pModule.rootCall calls .stopSvc life
  let life := pModule.rootCall calls .shutdown life
  pModule.rootCall calls .cleanup life

/-- `Program::prog_internal_init` asks the module in every slot for its name, and dies of a null
slot; the seven methods skip one. -/
def progInternalInit (pModule : ModuleTree Mod) (life : Life Mod) : Option (Life Mod) :=
  if (pModule.mDepIdx.getD []).all fun dep => dep.mod?.isSome then some life else none

/-- `Program::prog_run` -/
def progRun (calls : Mod → Phase → Nat) (pModule : ModuleTree Mod) (life : Life Mod) :
    Option (Life Mod) :=
  (pModule.progInternalInit life).map (pModule.progPhases calls)

end ModuleTree

/-- Modules that were built, some of them registered since: their state is `st_register` or zero,
and no method was called. -/
def Life.built (registered : Mod → Bool) : Life Mod where
  mState := fun mod => if registered mod then 0x8000 else 0
  trace := []

/-! ## The bits -/

namespace Life

private theorem marked_iff (life : Life Mod) (phase : Phase) (mod : Mod) :
    life.Marked phase mod ↔ (life.mState mod).getLsbD phase.bit = true := by
  unfold Marked
  rw [Phase.st_eq, BitVec.and_twoPow]
  cases (life.mState mod).getLsbD phase.bit with
  | false => simp
  | true => cases phase <;> decide

theorem not_marked_built (registered : Mod → Bool) (phase : Phase) (mod : Mod) :
    ¬ (built registered).Marked phase mod := by
  change ¬ (if registered mod then (0x8000 : BitVec 32) else 0) &&& phase.st ≠ 0
  cases registered mod with
  | false => cases phase <;> decide
  | true => cases phase <;> decide

@[simp] theorem marked_call (life : Life Mod) (phase other : Phase) (mod called : Mod) :
    (life.call other called).Marked phase mod ↔ life.Marked phase mod := Iff.rfl

private theorem marked_mark (life : Life Mod) (phase other : Phase) (mod marked : Mod) :
    (life.mark other marked).Marked phase mod ↔
      life.Marked phase mod ∨ (phase = other ∧ mod = marked) := by
  rw [marked_iff, marked_iff]
  by_cases same : mod = marked
  · subst same
    change (update life.mState mod _ mod).getLsbD phase.bit = true ↔ _
    rw [update_self, Phase.st_eq, BitVec.getLsbD_or, BitVec.getLsbD_twoPow,
      Bool.or_eq_true, Bool.and_eq_true, decide_eq_true_eq, decide_eq_true_eq]
    constructor
    · rintro (before | ⟨-, bits⟩)
      · exact Or.inl before
      · exact Or.inr ⟨(Phase.bit_injective bits).symm, rfl⟩
    · rintro (before | ⟨phases, -⟩)
      · exact Or.inl before
      · exact Or.inr ⟨other.bit_lt, congrArg Phase.bit phases.symm⟩
  · change (update life.mState marked _ mod).getLsbD phase.bit = true ↔ _
    rw [update_of_ne same]
    exact (or_iff_left fun both => same both.2).symm

private theorem mark_of_marked {life : Life Mod} {phase : Phase} {mod : Mod}
    (marked : life.Marked phase mod) : life.mark phase mod = life := by
  have kept : life.mState mod ||| phase.st = life.mState mod := by
    apply BitVec.eq_of_getLsbD_eq
    intro i _
    rw [Phase.st_eq, BitVec.getLsbD_or, BitVec.getLsbD_twoPow]
    by_cases same : phase.bit = i
    · rw [← same, (marked_iff life phase mod).mp marked, Bool.true_or]
    · rw [decide_eq_false same, Bool.and_false, Bool.or_false]
  unfold mark
  rw [kept, update_eq_self]

end Life

/-! ## The method of a phase -/

namespace ModulePtr

variable (calls : Mod → Phase → Nat) (phase : Phase) (marks backward : Bool)

private theorem early_of_marked {life : Life Mod} {mod : Mod} (marked : life.Marked phase mod) :
    early phase marks mod life = life := by
  cases marks with
  | false => rfl
  | true => exact Life.mark_of_marked marked

private theorem marked_early {life : Life Mod} {mod marked : Mod} {other : Phase} :
    (early phase marks marked life).Marked other mod ↔
      life.Marked other mod ∨ (marks = true ∧ other = phase ∧ mod = marked) := by
  cases marks with
  | false => exact (or_iff_left fun both => Bool.false_ne_true both.1).symm
  | true => exact (Life.marked_mark life other phase mod marked).trans (by rw [and_iff_right rfl])

private theorem modPhase_parent {life : Life Mod} {mod : Mod} (fresh : ¬ life.Marked phase mod)
    (depIdx : List (ModulePtr Mod)) :
    modPhase calls phase marks backward (.parent mod depIdx) life =
      modPhase.modDeps calls phase marks backward depIdx (life.mark phase mod) :=
  if_neg fresh

private theorem modPhase_marked {life : Life Mod} {mod : Mod} (marked : life.Marked phase mod)
    (depIdx : List (ModulePtr Mod)) :
    modPhase calls phase marks backward (.parent mod depIdx) life = life :=
  (if_pos marked).trans (early_of_marked phase marks marked)

private theorem modDeps_cons (dep : ModulePtr Mod) (rest : List (ModulePtr Mod)) (life : Life Mod) :
    modPhase.modDeps calls phase marks backward (dep :: rest) life =
      if backward then
        callDep calls phase dep.mod? (modPhase calls phase marks backward dep)
          (modPhase.modDeps calls phase marks backward rest life)
      else
        modPhase.modDeps calls phase marks backward rest
          (callDep calls phase dep.mod? (modPhase calls phase marks backward dep) life) := by
  cases backward <;> rfl

/-- A method that was called on the module once does nothing when it is called again. -/
def Settled (life : Life Mod) : ModulePtr Mod → Prop
  | .null => True
  | .leaf mod => marks = true → life.Marked phase mod
  | .parent mod _ => life.Marked phase mod

theorem modPhase_of_settled {life : Life Mod} {ptr : ModulePtr Mod}
    (settled : Settled phase marks life ptr) :
    modPhase calls phase marks backward ptr life = life := by
  cases ptr with
  | null => rfl
  | leaf mod =>
      cases marks with
      | false => rfl
      | true => exact Life.mark_of_marked (settled rfl)
  | parent mod depIdx => exact modPhase_marked calls phase marks backward settled depIdx

/-! What is marked stays marked. -/

private theorem marked_callDep {q : Phase} {m : Mod} {mod : Option Mod} {base : Life Mod → Life Mod}
    (keeps : ∀ life, life.Marked q m → (base life).Marked q m) {life : Life Mod}
    (marked : life.Marked q m) : (callDep calls phase mod base life).Marked q m := by
  cases mod with
  | none => exact marked
  | some mod =>
      have called : (life.call phase mod).Marked q m := marked
      exact keeps _ (Function.Iterate.rec (fun life : Life Mod => life.Marked q m) called keeps _)

mutual

theorem marked_modPhase {q : Phase} {m : Mod} : ∀ (ptr : ModulePtr Mod) (life : Life Mod),
    life.Marked q m → (modPhase calls phase marks backward ptr life).Marked q m
  | .null, _, marked => marked
  | .leaf _, _, marked => (marked_early phase marks).mpr (Or.inl marked)
  | .parent mod depIdx, life, marked => by
      by_cases again : life.Marked phase mod
      · rw [modPhase_marked calls phase marks backward again]
        exact marked
      · rw [modPhase_parent calls phase marks backward again]
        exact marked_modDeps depIdx _ ((Life.marked_mark life q phase m mod).mpr (Or.inl marked))

theorem marked_modDeps {q : Phase} {m : Mod} : ∀ (deps : List (ModulePtr Mod)) (life : Life Mod),
    life.Marked q m → (modPhase.modDeps calls phase marks backward deps life).Marked q m
  | [], _, marked => marked
  | dep :: rest, life, marked => by
      rw [modDeps_cons]
      split
      · exact marked_callDep calls phase (marked_modPhase dep) (marked_modDeps rest _ marked)
      · exact marked_modDeps rest _ (marked_callDep calls phase (marked_modPhase dep) marked)

end

theorem settled_modPhase (ptr : ModulePtr Mod) (life : Life Mod) :
    Settled phase marks (modPhase calls phase marks backward ptr life) ptr := by
  cases ptr with
  | null => trivial
  | leaf mod =>
      intro marking
      exact (marked_early phase marks).mpr (Or.inr ⟨marking, rfl, rfl⟩)
  | parent mod depIdx =>
      by_cases again : life.Marked phase mod
      · rw [modPhase_marked calls phase marks backward again]
        exact again
      · rw [modPhase_parent calls phase marks backward again]
        exact marked_modDeps calls phase marks backward depIdx _
          ((Life.marked_mark life phase phase mod mod).mpr (Or.inr ⟨rfl, rfl⟩))

/-- The second call of a method of `Module` does nothing. -/
theorem modPhase_modPhase (ptr : ModulePtr Mod) (life : Life Mod) :
    modPhase calls phase marks backward ptr (modPhase calls phase marks backward ptr life) =
      modPhase calls phase marks backward ptr life :=
  modPhase_of_settled calls phase marks backward
    (settled_modPhase calls phase marks backward ptr life)

/-- Whatever the overriding method does, the loop calls it and the method of `Module` once. -/
theorem callDep_modPhase (ptr : ModulePtr Mod) (life : Life Mod) :
    callDep calls phase ptr.mod? (modPhase calls phase marks backward ptr) life =
      match ptr.mod? with
      | none => life
      | some mod => modPhase calls phase marks backward ptr (life.call phase mod) := by
  have again := modPhase_modPhase calls phase marks backward ptr
  cases held : ptr.mod? with
  | none => rfl
  | some mod =>
      change modPhase calls phase marks backward ptr
        ((modPhase calls phase marks backward ptr)^[calls mod phase] (life.call phase mod)) = _
      have all := (Function.iterate_succ_apply' (modPhase calls phase marks backward ptr)
        (calls mod phase) (life.call phase mod)).symm
      rw [Function.iterate_succ_apply, Function.iterate_fixed (again _)] at all
      exact all

/-! ## What a method calls -/

/-- The modules below a module, in the order in which a method calls theirs. -/
def visits (backward : Bool) : ModulePtr Mod → List Mod
  | .null | .leaf _ => []
  | .parent _ depIdx => visitsOf depIdx
where
  visitsOf : List (ModulePtr Mod) → List Mod
    | [] => []
    | dep :: rest =>
        if backward then visitsOf rest ++ (dep.mod?.toList ++ visits backward dep)
        else (dep.mod?.toList ++ visits backward dep) ++ visitsOf rest

private theorem visitsOf_cons (dep : ModulePtr Mod) (rest : List (ModulePtr Mod)) :
    visits.visitsOf backward (dep :: rest) =
      if backward then
        visits.visitsOf backward rest ++ (dep.mod?.toList ++ visits backward dep)
      else (dep.mod?.toList ++ visits backward dep) ++ visits.visitsOf backward rest := by
  cases backward <;> rfl

mutual

/-- Every module of the tree is visited, the root ahead of the others. -/
theorem perm_visits : ∀ ptr : ModulePtr Mod,
    (ptr.mod?.toList ++ visits backward ptr).Perm ptr.mods
  | .null => .nil
  | .leaf _ => .refl _
  | .parent mod depIdx => (perm_visitsOf depIdx).cons mod

private theorem perm_visitsOf : ∀ deps : List (ModulePtr Mod),
    (visits.visitsOf backward deps).Perm (mods.modsOf deps)
  | [] => .nil
  | dep :: rest => by
      have own := perm_visits dep
      have others := perm_visitsOf rest
      rw [visitsOf_cons]
      split
      · exact (others.append own).trans List.perm_append_comm
      · exact own.append others

end

/-- The effect of a method on modules whose bits of the phase are clear. -/
structure Effect (before after : Life Mod) (visited mods : List Mod) : Prop where
  trace : after.trace = before.trace ++ visited.map fun mod => (mod, phase)
  marked : ∀ q m, after.Marked q m → before.Marked q m ∨ (q = phase ∧ m ∈ mods)

theorem Effect.trans {before between after : Life Mod} {visited others mods more : List Mod}
    (first : Effect phase before between visited mods)
    (second : Effect phase between after others more) :
    Effect phase before after (visited ++ others) (mods ++ more) where
  trace := by rw [second.trace, first.trace, List.map_append, List.append_assoc]
  marked := by
    intro q m marked
    rcases second.marked q m marked with earlier | ⟨same, inside⟩
    · rcases first.marked q m earlier with before | ⟨same, inside⟩
      · exact Or.inl before
      · exact Or.inr ⟨same, List.mem_append_left _ inside⟩
    · exact Or.inr ⟨same, List.mem_append_right _ inside⟩

theorem Effect.mono {before after : Life Mod} {visited mods more : List Mod}
    (effect : Effect phase before after visited mods) (within : mods ⊆ more) :
    Effect phase before after visited more where
  trace := effect.trace
  marked := fun q m marked =>
    (effect.marked q m marked).imp_right fun both => ⟨both.1, within both.2⟩

private theorem effect_mark (mod : Mod) (life : Life Mod) :
    Effect phase life (life.mark phase mod) [] [mod] where
  trace := (List.append_nil _).symm
  marked := fun q m marked =>
    ((Life.marked_mark life q phase m mod).mp marked).imp_right fun both =>
      ⟨both.1, List.mem_singleton.mpr both.2⟩

theorem effect_call (mod : Mod) (life : Life Mod) :
    Effect phase life (life.call phase mod) [mod] [] where
  trace := rfl
  marked := fun _ _ marked => Or.inl marked

private theorem effect_early (mod : Mod) (life : Life Mod) :
    Effect phase life (early phase marks mod life) [] [mod] := by
  cases marks with
  | false => exact ⟨(List.append_nil _).symm, fun _ _ marked => Or.inl marked⟩
  | true => exact effect_mark phase mod life

/-- The bits of the phase are clear in the modules. -/
def Clear (life : Life Mod) (mods : List Mod) : Prop :=
  ∀ mod ∈ mods, ¬ life.Marked phase mod

theorem Effect.clear {before after : Life Mod} {visited mods others : List Mod}
    (effect : Effect phase before after visited mods) (clear : Clear phase before others)
    (apart : mods.Disjoint others) : Clear phase after others := by
  intro mod inside marked
  rcases effect.marked phase mod marked with earlier | ⟨-, touched⟩
  · exact clear mod inside earlier
  · exact apart touched inside

mutual

theorem effect_modPhase : ∀ (ptr : ModulePtr Mod) (life : Life Mod), ptr.mods.Nodup →
    Clear phase life ptr.mods →
      Effect phase life (modPhase calls phase marks backward ptr life)
        (visits backward ptr) ptr.mods
  | .null, life, _, _ => ⟨(List.append_nil _).symm, fun _ _ marked => Or.inl marked⟩
  | .leaf mod, life, _, _ => effect_early phase marks mod life
  | .parent mod depIdx, life, distinct, clear => by
      obtain ⟨outside, below⟩ := List.nodup_cons.mp distinct
      have own := effect_mark phase mod life
      rw [modPhase_parent calls phase marks backward (clear mod List.mem_cons_self)]
      refine own.trans phase (effect_modDeps depIdx _ below (own.clear phase ?_ ?_))
      · exact fun other inside => clear other (List.mem_cons_of_mem _ inside)
      · exact List.singleton_disjoint.mpr outside

private theorem effect_modDeps : ∀ (deps : List (ModulePtr Mod)) (life : Life Mod),
    (mods.modsOf deps).Nodup → Clear phase life (mods.modsOf deps) →
      Effect phase life (modPhase.modDeps calls phase marks backward deps life)
        (visits.visitsOf backward deps) (mods.modsOf deps)
  | [], _, _, _ => ⟨(List.append_nil _).symm, fun _ _ marked => Or.inl marked⟩
  | dep :: rest, life, distinct, clear => by
      obtain ⟨first, later, apart⟩ := List.nodup_append'.mp distinct
      have clearDep : Clear phase life dep.mods :=
        fun mod inside => clear mod (List.mem_append_left _ inside)
      have clearRest : Clear phase life (mods.modsOf rest) :=
        fun mod inside => clear mod (List.mem_append_right _ inside)
      have own : ∀ before, Clear phase before dep.mods →
          Effect phase before
            (callDep calls phase dep.mod? (modPhase calls phase marks backward dep) before)
            (dep.mod?.toList ++ visits backward dep) dep.mods := by
        intro before unmarked
        rw [callDep_modPhase]
        cases dep with
        | null => exact ⟨(List.append_nil _).symm, fun _ _ marked => Or.inl marked⟩
        | leaf mod =>
            exact (effect_call phase mod before).trans phase (effect_modPhase _ _ first unmarked)
        | parent mod depIdx =>
            exact (effect_call phase mod before).trans phase (effect_modPhase _ _ first unmarked)
      rw [modDeps_cons, visitsOf_cons]
      split
      · have others := effect_modDeps rest life later clearRest
        refine (others.trans phase (own _ (others.clear phase clearDep (List.disjoint_symm apart)))).mono phase ?_
        exact List.append_subset.mpr ⟨List.subset_append_right _ _, List.subset_append_left _ _⟩
      · have dep := own life clearDep
        exact dep.trans phase (effect_modDeps rest _ later (dep.clear phase clearRest apart))

end

/-! ## Siblings -/

/-- The array is the one of a module in the tree. -/
inductive Within (siblings : List (ModulePtr Mod)) : ModulePtr Mod → Prop where
  | here (mod : Mod) : Within siblings (.parent mod siblings)
  | under (mod : Mod) {depIdx : List (ModulePtr Mod)} {dep : ModulePtr Mod} (inside : dep ∈ depIdx)
      (within : Within siblings dep) : Within siblings (.parent mod depIdx)

/-- The modules in an array, in the order of registration. -/
def slotMods (depIdx : List (ModulePtr Mod)) : List Mod :=
  depIdx.filterMap mod?

theorem mods_subset_modsOf {dep : ModulePtr Mod} : ∀ {deps : List (ModulePtr Mod)}, dep ∈ deps →
    dep.mods ⊆ mods.modsOf deps
  | _ :: _, inside, _, member => by
      rcases List.mem_cons.mp inside with rfl | further
      · exact List.mem_append_left _ member
      · exact List.mem_append_right _ (mods_subset_modsOf further member)

theorem not_mem_mods_of_null {mod : Mod} : ∀ {deps : List (ModulePtr Mod)},
    (∀ dep ∈ deps, dep = .null) → mod ∉ mods.modsOf deps
  | [], _, member => nomatch member
  | dep :: rest, empty, member => by
      have null : dep = .null := empty dep List.mem_cons_self
      subst null
      exact not_mem_mods_of_null (fun other inside => empty other (List.mem_cons_of_mem _ inside))
        member

private theorem slotMods_cons (dep : ModulePtr Mod) (rest : List (ModulePtr Mod)) :
    slotMods (dep :: rest) = dep.mod?.toList ++ slotMods rest := by
  cases dep <;> rfl

theorem own_subset_mods (ptr : ModulePtr Mod) : ptr.mod?.toList ++ visits backward ptr ⊆ ptr.mods :=
  (perm_visits backward ptr).subset

theorem slotMods_subset : ∀ deps : List (ModulePtr Mod), slotMods deps ⊆ mods.modsOf deps
  | [] => List.Subset.refl _
  | dep :: rest => by
      rw [slotMods_cons]
      refine List.append_subset.mpr ⟨?_, ?_⟩
      · exact fun mod inside => List.mem_append_left _
          (own_subset_mods true dep (List.mem_append_left _ inside))
      · exact fun mod inside => List.mem_append_right _ (slotMods_subset rest inside)

private theorem mem_visitsOf_cons {dep : ModulePtr Mod} {rest : List (ModulePtr Mod)} {mod : Mod} :
    mod ∈ visits.visitsOf backward (dep :: rest) ↔
      mod ∈ dep.mod?.toList ++ visits backward dep ∨ mod ∈ visits.visitsOf backward rest := by
  rw [visitsOf_cons]
  split
  · rw [List.mem_append, or_comm]
  · rw [List.mem_append]

private theorem slotMods_subset_visitsOf : ∀ deps : List (ModulePtr Mod),
    slotMods deps ⊆ visits.visitsOf backward deps
  | [] => List.Subset.refl _
  | dep :: rest => by
      rw [slotMods_cons]
      intro mod inside
      refine (mem_visitsOf_cons backward).mpr ?_
      rcases List.mem_append.mp inside with own | other
      · exact Or.inl (List.mem_append_left _ own)
      · exact Or.inr (slotMods_subset_visitsOf rest other)

private theorem visits_subset_visitsOf {dep : ModulePtr Mod} : ∀ {deps : List (ModulePtr Mod)},
    dep ∈ deps → visits backward dep ⊆ visits.visitsOf backward deps
  | first :: rest, inside, mod, visited => by
      refine (mem_visitsOf_cons backward).mpr ?_
      rcases List.mem_cons.mp inside with rfl | later
      · exact Or.inl (List.mem_append_right _ visited)
      · exact Or.inr (visits_subset_visitsOf later visited)

theorem Within.subset_visits {siblings : List (ModulePtr Mod)} {ptr : ModulePtr Mod}
    (within : Within siblings ptr) : slotMods siblings ⊆ visits backward ptr := by
  induction within with
  | here mod => exact slotMods_subset_visitsOf backward siblings
  | under mod inside _ ih =>
      exact fun _ member => visits_subset_visitsOf backward inside (ih member)

private theorem filter_disjoint {visited among : List Mod} (apart : visited.Disjoint among) :
    visited.filter (· ∈ among) = [] :=
  List.filter_eq_nil_iff.mpr fun _ inside member => apart inside (of_decide_eq_true member)

private theorem visits_nodup {ptr : ModulePtr Mod} (distinct : ptr.mods.Nodup) :
    (ptr.mod?.toList ++ visits backward ptr).Nodup :=
  (perm_visits backward ptr).nodup_iff.mpr distinct

/-- Among the modules of an array, a method calls in the direction of its loop. -/
theorem filter_visitsOf : ∀ (deps : List (ModulePtr Mod)) (among : List Mod),
    (mods.modsOf deps).Nodup →
    (∀ mod ∈ mods.modsOf deps, mod ∈ among ↔ mod ∈ slotMods deps) →
      (visits.visitsOf backward deps).filter (· ∈ among) =
        if backward then (slotMods deps).reverse else slotMods deps
  | [], _, _, _ => by cases backward <;> rfl
  | dep :: rest, among, distinct, same => by
      obtain ⟨first, later, apart⟩ := List.nodup_append'.mp distinct
      have roots : dep.mod?.toList.filter (· ∈ among) = dep.mod?.toList := by
        refine List.filter_eq_self.mpr fun mod own => decide_eq_true ?_
        refine (same mod (List.mem_append_left _ ?_)).mpr ?_
        · exact own_subset_mods true dep (List.mem_append_left _ own)
        · rw [slotMods_cons]
          exact List.mem_append_left _ own
      have under : (visits backward dep).filter (· ∈ among) = [] := by
        refine filter_disjoint fun mod visited member => ?_
        have inside := own_subset_mods backward dep (List.mem_append_right _ visited)
        have which := (same mod (List.mem_append_left _ inside)).mp member
        rw [slotMods_cons] at which
        rcases List.mem_append.mp which with own | other
        · exact (List.nodup_append'.mp (visits_nodup backward first)).2.2 own visited
        · exact apart inside (slotMods_subset rest other)
      have others := filter_visitsOf rest among later (by
        intro mod inside
        rw [same mod (List.mem_append_right _ inside), slotMods_cons, List.mem_append]
        refine or_iff_right fun own => apart ?_ inside
        exact own_subset_mods true dep (List.mem_append_left _ own))
      rw [visitsOf_cons, slotMods_cons]
      cases hb : backward with
      | true =>
          subst hb
          rw [if_pos rfl, if_pos rfl, List.filter_append, List.filter_append, roots, under, others,
            if_pos rfl, List.append_nil, List.reverse_append]
          cases dep <;> rfl
      | false =>
          subst hb
          rw [if_neg Bool.false_ne_true, if_neg Bool.false_ne_true, List.filter_append,
            List.filter_append, roots, under, others, if_neg Bool.false_ne_true, List.append_nil]

private theorem filter_visitsOf_mem {dep : ModulePtr Mod} {among : List Mod} :
    ∀ {deps : List (ModulePtr Mod)}, dep ∈ deps → (mods.modsOf deps).Nodup →
      among ⊆ visits backward dep →
        (visits.visitsOf backward deps).filter (· ∈ among) =
          (visits backward dep).filter (· ∈ among)
  | other :: rest, inside, distinct, within => by
      obtain ⟨first, later, apart⟩ := List.nodup_append'.mp distinct
      rcases List.mem_cons.mp inside with rfl | further
      · have root : dep.mod?.toList.filter (· ∈ among) = [] := filter_disjoint fun mod own member =>
          (List.nodup_append'.mp (visits_nodup backward first)).2.2 own (within member)
        have others : (visits.visitsOf backward rest).filter (· ∈ among) = [] :=
          filter_disjoint fun mod visited member =>
            apart (own_subset_mods backward dep (List.mem_append_right _ (within member)))
              ((perm_visitsOf backward rest).subset visited)
        rw [visitsOf_cons]
        split
        · rw [List.filter_append, List.filter_append, root, others, List.nil_append,
            List.nil_append]
        · rw [List.filter_append, List.filter_append, root, others, List.nil_append,
            List.append_nil]
      · have own : (other.mod?.toList ++ visits backward other).filter (· ∈ among) = [] :=
          filter_disjoint fun mod visited member =>
            apart (own_subset_mods backward other visited)
              ((perm_visitsOf backward rest).subset
                (visits_subset_visitsOf backward further (within member)))
        have rest := filter_visitsOf_mem further later within
        rw [visitsOf_cons]
        split
        · rw [List.filter_append, own, List.append_nil, rest]
        · rw [List.filter_append, own, List.nil_append, rest]

private theorem nodup_mods {dep : ModulePtr Mod} : ∀ {deps : List (ModulePtr Mod)}, dep ∈ deps →
    (mods.modsOf deps).Nodup → dep.mods.Nodup
  | _ :: _, inside, distinct => by
      obtain ⟨first, later, -⟩ := List.nodup_append'.mp distinct
      rcases List.mem_cons.mp inside with rfl | further
      · exact first
      · exact nodup_mods further later

theorem Within.filter_visits {siblings : List (ModulePtr Mod)} {ptr : ModulePtr Mod}
    (within : Within siblings ptr) (distinct : ptr.mods.Nodup) :
    (visits backward ptr).filter (· ∈ slotMods siblings) =
      if backward then (slotMods siblings).reverse else slotMods siblings := by
  induction within with
  | here mod =>
      exact filter_visitsOf backward siblings _ (List.nodup_cons.mp distinct).2 fun _ _ => Iff.rfl
  | under mod inside within ih =>
      have below := (List.nodup_cons.mp distinct).2
      refine (filter_visitsOf_mem backward inside below (within.subset_visits backward)).trans ?_
      exact ih (nodup_mods inside below)

end ModulePtr

end Tvntd
