import Mathlib.Data.List.Count
import Mathlib.Logic.Function.Iterate
import Mathlib.Tactic.Common
import Mathlib.Algebra.Group.Nat.Defs
import Mathlib.Algebra.Group.Int.Defs

/-! # The phases of the Java modules

`com/tvntd/lib/Module.java`: the `moduleBase` method of a phase calls, for each
registered submodule, its overridable method of the phase and then its
`moduleBase` method. A mask in `m_mask` makes a `moduleBase` method run once,
and the masks of the shutdown and of the cleanup contain the one of the startup.

An overriding method is known by how often it calls the `moduleBase` method of
the same phase; the methods of `Module` itself are empty. What is not in the
source is the record of the calls.
-/

set_option linter.unusedSectionVars false

namespace Tvntd.Java

open Function

inductive Phase where
  | init
  | resolve
  | startup
  | service
  | disable
  | shutdown
  | cleanup
  deriving DecidableEq

namespace Phase

def mask : Phase → BitVec 32
  | .init => 0x0001
  | .resolve => 0x0002
  | .startup => 0x0004
  | .service => 0x0008
  | .disable => 0x1000
  | .shutdown => 0x2004
  | .cleanup => 0x4004

/-- The masks that have a bit in common with the mask of the startup. -/
def Overlaps (phase : Phase) : Prop :=
  phase.mask &&& 0x0004 ≠ 0

instance (phase : Phase) : Decidable phase.Overlaps :=
  inferInstanceAs (Decidable (_ ≠ _))

end Phase

/-- A module with its `m_subs`, which is null until a module is registered. -/
inductive Module (Mod : Type) where
  | single (mod : Mod)
  | group (mod : Mod) (mSubs : List (Module Mod))

/-- The masks of the modules, and the overridable methods called so far. -/
structure Life (Mod : Type) where
  mMask : Mod → BitVec 32
  trace : List (Mod × Phase)

/-- Modules that were constructed. -/
def Life.constructed (Mod : Type) : Life Mod where
  mMask := fun _ => 0
  trace := []

variable {Mod : Type} [DecidableEq Mod]

namespace Life

/-- `m_mask |= mask` -/
def mark (phase : Phase) (mod : Mod) (life : Life Mod) : Life Mod :=
  { life with mMask := update life.mMask mod (life.mMask mod ||| phase.mask) }

def call (phase : Phase) (mod : Mod) (life : Life Mod) : Life Mod :=
  { life with trace := life.trace ++ [(mod, phase)] }

end Life

namespace Module

def mod : Module Mod → Mod
  | .single mod | .group mod _ => mod

/-- `registerSub` -/
def registerSub : Module Mod → Module Mod → Module Mod
  | .single mod, sub => .group mod [sub]
  | .group mod mSubs, sub => .group mod (mSubs ++ [sub])

/-- What the loops do with a submodule. -/
def callSub (calls : Mod → Phase → Nat) (phase : Phase) (mod : Mod) (base : Life Mod → Life Mod)
    (life : Life Mod) : Life Mod :=
  base (base^[calls mod phase] (life.call phase mod))

/-- The `moduleBase` methods differ by their mask and by the direction of their loop. -/
def moduleBase (calls : Mod → Phase → Nat) (phase : Phase) (backward : Bool) :
    Module Mod → Life Mod → Life Mod
  | .single _ => fun life => life
  | .group mod mSubs => fun life =>
      if life.mMask mod &&& phase.mask = 0 then subs mSubs (life.mark phase mod) else life
where
  subs : List (Module Mod) → Life Mod → Life Mod
    | [] => fun life => life
    | sub :: rest => fun life =>
        if backward then
          callSub calls phase sub.mod (moduleBase calls phase backward sub) (subs rest life)
        else
          subs rest (callSub calls phase sub.mod (moduleBase calls phase backward sub) life)

def moduleBaseInit (calls : Mod → Phase → Nat) : Module Mod → Life Mod → Life Mod :=
  moduleBase calls .init false

def moduleBaseResolve (calls : Mod → Phase → Nat) : Module Mod → Life Mod → Life Mod :=
  moduleBase calls .resolve false

def moduleBaseStartup (calls : Mod → Phase → Nat) : Module Mod → Life Mod → Life Mod :=
  moduleBase calls .startup false

def moduleBaseService (calls : Mod → Phase → Nat) : Module Mod → Life Mod → Life Mod :=
  moduleBase calls .service false

def moduleBaseDisable (calls : Mod → Phase → Nat) : Module Mod → Life Mod → Life Mod :=
  moduleBase calls .disable true

def moduleBaseShutdown (calls : Mod → Phase → Nat) : Module Mod → Life Mod → Life Mod :=
  moduleBase calls .shutdown true

def moduleBaseCleanup (calls : Mod → Phase → Nat) : Module Mod → Life Mod → Life Mod :=
  moduleBase calls .cleanup true

/-- The `moduleBase` method of a phase. -/
def base (calls : Mod → Phase → Nat) : Phase → Module Mod → Life Mod → Life Mod
  | .init => moduleBaseInit calls
  | .resolve => moduleBaseResolve calls
  | .startup => moduleBaseStartup calls
  | .service => moduleBaseService calls
  | .disable => moduleBaseDisable calls
  | .shutdown => moduleBaseShutdown calls
  | .cleanup => moduleBaseCleanup calls

/-- The registered submodules, at any depth. -/
def registered : Module Mod → List Mod
  | .single _ => []
  | .group _ mSubs => below mSubs
where
  below : List (Module Mod) → List Mod
    | [] => []
    | sub :: rest => sub.mod :: registered sub ++ below rest

/-- A driver takes the root through some phases. `Program.runMain` takes its module through the
first of them only: the other methods that it calls are the empty ones of its plain `Module`. -/
def drive (calls : Mod → Phase → Nat) (root : Module Mod) (phases : List Phase) : Life Mod :=
  phases.foldl (fun life phase => root.base calls phase life) (Life.constructed Mod)

/-- The methods of every registered submodule for the four phases were called once. -/
def CalledOnce (root : Module Mod) (life : Life Mod) : Prop :=
  ∀ mod ∈ root.registered, ∀ phase ∈ [Phase.init, .startup, .shutdown, .cleanup],
    life.trace.count (mod, phase) = 1

/-! ## What a method changes -/

/-- The bit of the startup is set in a module. -/
def Started (life : Life Mod) (mod : Mod) : Prop :=
  life.mMask mod &&& 0x0004 ≠ 0

/-- The effect of a method: calls of its phase are added to the record, and masks only grow. -/
structure Grows (phase : Phase) (before after : Life Mod) : Prop where
  trace : ∃ added, after.trace = before.trace ++ added ∧ ∀ event ∈ added, event.2 = phase
  started : ∀ mod, Started before mod → Started after mod

variable {phase : Phase}

theorem Grows.refl (life : Life Mod) : Grows phase life life where
  trace := ⟨[], (List.append_nil _).symm, fun _ none => nomatch none⟩
  started := fun _ set => set

theorem Grows.trans {before between after : Life Mod} (first : Grows phase before between)
    (second : Grows phase between after) : Grows phase before after where
  trace := by
    obtain ⟨added, record, own⟩ := first.trace
    obtain ⟨more, later, others⟩ := second.trace
    refine ⟨added ++ more, by rw [later, record, List.append_assoc], ?_⟩
    intro event inside
    rcases List.mem_append.mp inside with early | late
    · exact own event early
    · exact others event late
  started := fun mod set => second.started mod (first.started mod set)

private theorem started_mark (phase : Phase) (mod : Mod) (life : Life Mod) (other : Mod) :
    Started (life.mark phase mod) other ↔
      Started life other ∨ (other = mod ∧ phase.Overlaps) := by
  unfold Started Phase.Overlaps
  by_cases same : other = mod
  · subst same
    change update life.mMask other _ other &&& _ ≠ 0 ↔ _
    rw [update_self, BitVec.and_or_distrib_right, and_iff_right rfl]
    constructor
    · intro set
      by_contra neither
      obtain ⟨first, second⟩ := not_or.mp neither
      rw [not_not.mp first, not_not.mp second] at set
      exact set rfl
    · rintro (set | set) zero
      · exact set (BitVec.or_eq_zero_iff.mp zero).1
      · exact set (BitVec.or_eq_zero_iff.mp zero).2
  · change update life.mMask mod _ other &&& _ ≠ 0 ↔ _
    rw [update_of_ne same]
    exact (or_iff_left fun both => same both.1).symm

private theorem grows_mark (phase : Phase) (mod : Mod) (life : Life Mod) :
    Grows phase life (life.mark phase mod) where
  trace := ⟨[], (List.append_nil _).symm, fun _ none => nomatch none⟩
  started := fun other set => (started_mark phase mod life other).mpr (Or.inl set)

private theorem grows_call (phase : Phase) (mod : Mod) (life : Life Mod) :
    Grows phase life (life.call phase mod) where
  trace := ⟨[(mod, phase)], rfl, fun event inside => by rw [List.mem_singleton.mp inside]⟩
  started := fun _ set => set

section Calls

variable (phase) (calls : Mod → Phase → Nat) (backward : Bool)

private theorem grows_callSub (mod : Mod) {base : Life Mod → Life Mod}
    (grows : ∀ life, Grows phase life (base life)) (life : Life Mod) :
    Grows phase life (callSub calls phase mod base life) := by
  have overriding : Grows phase life (base^[calls mod phase] (life.call phase mod)) :=
    Function.Iterate.rec (fun after => Grows phase life after) (grows_call phase mod life)
      (fun after grown => grown.trans (grows after)) _
  exact overriding.trans (grows _)

private theorem subs_cons (sub : Module Mod) (rest : List (Module Mod)) (life : Life Mod) :
    moduleBase.subs calls phase backward (sub :: rest) life =
      if backward then
        callSub calls phase sub.mod (moduleBase calls phase backward sub)
          (moduleBase.subs calls phase backward rest life)
      else
        moduleBase.subs calls phase backward rest
          (callSub calls phase sub.mod (moduleBase calls phase backward sub) life) := by
  cases backward <;> rfl

theorem moduleBase_clear {mod : Mod} {life : Life Mod} (clear : life.mMask mod &&& phase.mask = 0)
    (mSubs : List (Module Mod)) :
    moduleBase calls phase backward (.group mod mSubs) life =
      moduleBase.subs calls phase backward mSubs (life.mark phase mod) :=
  if_pos clear

theorem moduleBase_again {mod : Mod} {life : Life Mod} (again : life.mMask mod &&& phase.mask ≠ 0)
    (mSubs : List (Module Mod)) :
    moduleBase calls phase backward (.group mod mSubs) life = life :=
  if_neg again

mutual

private theorem grows_moduleBase : ∀ (tree : Module Mod) (life : Life Mod),
    Grows phase life (moduleBase calls phase backward tree life)
  | .single _, life => .refl life
  | .group mod mSubs, life => by
      by_cases clear : life.mMask mod &&& phase.mask = 0
      · rw [moduleBase_clear phase calls backward clear]
        exact (grows_mark phase mod life).trans (grows_subs mSubs _)
      · rw [moduleBase_again phase calls backward clear]
        exact .refl life

private theorem grows_subs : ∀ (mSubs : List (Module Mod)) (life : Life Mod),
    Grows phase life (moduleBase.subs calls phase backward mSubs life)
  | [], life => .refl life
  | sub :: rest, life => by
      rw [subs_cons]
      split
      · exact (grows_subs rest life).trans
          (grows_callSub phase calls sub.mod (grows_moduleBase sub) _)
      · exact (grows_callSub phase calls sub.mod (grows_moduleBase sub) life).trans
          (grows_subs rest _)

end

end Calls

/-! ## Startup and shutdown exclude each other -/

private theorem base_eq (calls : Mod → Phase → Nat) (phase : Phase) :
    ∃ backward, base calls phase = moduleBase calls phase backward := by
  cases phase <;> exact ⟨_, rfl⟩

/-- The masks of the shutdown and of the cleanup contain the one of the startup. -/
theorem not_started_of_clear {phase : Phase} (overlaps : phase.Overlaps) {mod : Mod}
    {life : Life Mod} (clear : life.mMask mod &&& phase.mask = 0) : ¬ Started life mod := by
  have shared : phase.mask &&& 0x0004 = 0x0004 := by
    cases phase <;> first | rfl | exact absurd overlaps (by decide)
  intro started
  refine started ?_
  rw [← shared, ← BitVec.and_assoc, clear]
  rfl

/-- At most one of the three phases whose masks overlap has called anything, and its call marked
the root. -/
def OneOf (root : Mod) (life : Life Mod) : Prop :=
  ∃ ran : Phase, ∀ event ∈ life.trace, event.2.Overlaps → event.2 = ran ∧ Started life root

theorem OneOf.base {calls : Mod → Phase → Nat} {mod : Mod} {mSubs : List (Module Mod)}
    {life : Life Mod} (one : OneOf mod life) (phase : Phase) :
    OneOf mod ((Module.group mod mSubs).base calls phase life) := by
  obtain ⟨backward, same⟩ := base_eq calls phase
  have grows := grows_moduleBase phase calls backward (.group mod mSubs) life
  obtain ⟨added, record, own⟩ := grows.trace
  obtain ⟨ran, only⟩ := one
  rw [same]
  by_cases clear : life.mMask mod &&& phase.mask = 0
  · by_cases overlaps : phase.Overlaps
    · have unmarked := not_started_of_clear overlaps clear
      have marked : Started (moduleBase calls phase backward (.group mod mSubs) life) mod := by
        rw [moduleBase_clear phase calls backward clear]
        exact (grows_subs phase calls backward mSubs _).started mod
          ((started_mark phase mod life mod).mpr (Or.inr ⟨rfl, overlaps⟩))
      refine ⟨phase, fun event inside which => ⟨?_, marked⟩⟩
      rw [record] at inside
      rcases List.mem_append.mp inside with before | now
      · exact absurd (only event before which).2 unmarked
      · exact own event now
    · refine ⟨ran, fun event inside which => ?_⟩
      rw [record] at inside
      rcases List.mem_append.mp inside with before | now
      · exact ⟨(only event before which).1, grows.started mod (only event before which).2⟩
      · exact absurd (own event now ▸ which) overlaps
  · rw [moduleBase_again phase calls backward clear]
    exact ⟨ran, only⟩

private theorem oneOf_drive (calls : Mod → Phase → Nat) (mod : Mod) (mSubs : List (Module Mod))
    (phases : List Phase) : OneOf mod ((Module.group mod mSubs).drive calls phases) := by
  have keeps : ∀ (phases : List Phase) (life : Life Mod), OneOf mod life →
      OneOf mod (phases.foldl
        (fun life phase => (Module.group mod mSubs).base calls phase life) life) := by
    intro phases
    induction phases with
    | nil => exact fun _ one => one
    | cons phase rest ih => exact fun life one => ih _ (one.base phase)
  exact keeps phases _ ⟨.startup, fun _ none => nomatch none⟩

/-- In whatever phases the root is driven through, the startup and the shutdown of a submodule are
not both called. -/
theorem calledOnce_drive_iff (calls : Mod → Phase → Nat) (root : Module Mod)
    (phases : List Phase) :
    root.CalledOnce (root.drive calls phases) ↔ root.registered = [] := by
  constructor
  · intro once
    match root, once with
    | .single _, _ => rfl
    | .group _ [], _ => rfl
    | .group mod (sub :: rest), once =>
        obtain ⟨ran, only⟩ := oneOf_drive calls mod (sub :: rest) phases
        have below : sub.mod ∈ (Module.group mod (sub :: rest)).registered := List.mem_cons_self
        have called : ∀ phase ∈ [Phase.init, .startup, .shutdown, .cleanup], (sub.mod, phase) ∈
            ((Module.group mod (sub :: rest)).drive calls phases).trace := by
          intro phase among
          refine List.count_pos_iff.mp ?_
          rw [once sub.mod below phase among]
          exact Nat.one_pos
        have startup := only _ (called .startup (by decide)) (show Phase.startup.Overlaps by decide)
        have shutdown := only _ (called .shutdown (by decide))
          (show Phase.shutdown.Overlaps by decide)
        exact Phase.noConfusion (startup.1.trans shutdown.1.symm)
  · intro none mod inside
    rw [none] at inside
    exact nomatch inside

/-- A module with one submodule, through all phases. -/
theorem not_calledOnce_registered :
    ¬ ((Module.single 0).registerSub (.single 1)).CalledOnce
      (((Module.single 0).registerSub (.single 1)).drive (fun (_ : Nat) _ => 0)
        [.init, .resolve, .startup, .service, .disable, .shutdown, .cleanup]) := by
  intro once
  exact absurd (once 1 (by decide) .shutdown (by decide)) (by decide)

end Module

end Tvntd.Java
