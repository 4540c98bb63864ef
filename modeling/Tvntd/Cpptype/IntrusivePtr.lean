import Mathlib.Data.List.Perm.Subperm
import Mathlib.Data.BitVec
import Tvntd.Lib.Machine

/-! # Counted references

`INTRUSIVE_PTR_DECL` gives a class a counter that the smart pointers of all threads add to and take
from. A pointer is copied from one that is there: one of the thread itself, one in an object that it
has a pointer to, or the object's own place on a stack. Whoever takes the last one deletes the
object: first the pointers in it, one after the other, while other threads go on.

The counter is atomic and a pointer is not: a thread copies `px` and then adds to the counter. These
two are one step here, since a pointer of the own thread has nobody else at it, and one in an object
is not read while another thread changes it; that is left to the callers, as everywhere in
`boost::intrusive_ptr`.
-/

namespace Tvntd.IntrusivePtr

open Function

abbrev ObjRef := Nat

/-- Where a pointer is. -/
inductive Place (Thread : Type)
  | thread (thread : Thread)
  | field (object : ObjRef)
  | stack
deriving DecidableEq

abbrev Pointer (Thread : Type) := Place Thread × ObjRef

/-- The objects are numbered as they are made. -/
structure Objects (Thread : Type) where
  made : Nat
  refcnt : ObjRef → BitVec 32
  pointers : List (Pointer Thread)
  deleting : List (Thread × ObjRef)
  freed : List ObjRef

inductive Action (Thread : Type)
  /-- a new object with its first pointer -/
  | new (thread : Thread)
  /-- an object with `intrusive_stack_alloc(true, this)` -/
  | onStack
  /-- a copy of a pointer that no other thread changes until it is counted -/
  | copy (thread : Thread) (source : Place Thread) (object : ObjRef)
  /-- a pointer that no other thread uses meanwhile is moved; its object is not counted anew -/
  | move (thread : Thread) (source target : Place Thread) (object : ObjRef)
  | release (thread : Thread) (object : ObjRef)
  /-- the destructor of a pointer in an object -/
  | destroy (thread : Thread) (object member : ObjRef)
  | free (thread : Thread) (object : ObjRef)

variable {Thread : Type} [DecidableEq Thread]

namespace Objects

def empty : Objects Thread := ⟨0, fun _ => 0, [], [], []⟩

/-- The places that a thread gets at. -/
def reaches (objects : Objects Thread) (thread : Thread) : Place Thread → Bool
  | .thread own => decide (own = thread)
  | .field object => decide ((.thread thread, object) ∈ objects.pointers)
  | .stack => true

/-- A pointer can be put where the thread gets at, or be handed to any thread. -/
def accepts (objects : Objects Thread) (thread : Thread) : Place Thread → Bool
  | .thread _ => true
  | .field object => decide ((.thread thread, object) ∈ objects.pointers)
  | .stack => false

/-- The constructor leaves `refcnt` at zero, and the first pointer adds to it. -/
def make (objects : Objects Thread) (place : Place Thread) : Objects Thread :=
  { objects with
    made := objects.made + 1
    refcnt := update objects.refcnt objects.made (0 + 1)
    pointers := (place, objects.made) :: objects.pointers }

/-- `intrusive_ptr_add_ref` -/
def addRef (objects : Objects Thread) (place : Place Thread) (object : ObjRef) : Objects Thread :=
  { objects with
    refcnt := update objects.refcnt object (objects.refcnt object + 1)
    pointers := (place, object) :: objects.pointers }

/-- `intrusive_ptr_release` up to its `delete` -/
def releaseRef (objects : Objects Thread) (thread : Thread) (place : Place Thread)
    (object : ObjRef) : Objects Thread :=
  { objects with
    refcnt := update objects.refcnt object (objects.refcnt object - 1)
    pointers := objects.pointers.erase (place, object)
    deleting :=
      if objects.refcnt object = 1 then (thread, object) :: objects.deleting else objects.deleting }

/-- One step of a thread, with no other thread at the places that it uses. -/
def step (objects : Objects Thread) : Action Thread → Option (Objects Thread)
  | .new thread => some (objects.make (.thread thread))
  | .onStack => some (objects.make .stack)
  | .copy thread source object =>
      if objects.reaches thread source && decide ((source, object) ∈ objects.pointers) then
        some (objects.addRef (.thread thread) object)
      else none
  | .move thread source target object =>
      if objects.reaches thread source && decide (source ≠ .stack) && objects.accepts thread target
          && decide ((source, object) ∈ objects.pointers) then
        some { objects with
          pointers := (target, object) :: objects.pointers.erase (source, object) }
      else none
  | .release thread object =>
      if (.thread thread, object) ∈ objects.pointers then
        some (objects.releaseRef thread (.thread thread) object)
      else none
  | .destroy thread object member =>
      if (thread, object) ∈ objects.deleting ∧ (.field object, member) ∈ objects.pointers then
        some (objects.releaseRef thread (.field object) member)
      else none
  | .free thread object =>
      if (thread, object) ∈ objects.deleting ∧
          ∀ pointer ∈ objects.pointers, pointer.1 ≠ .field object then
        some { objects with
          deleting := objects.deleting.erase (thread, object)
          freed := object :: objects.freed }
      else none

end Objects

def machine : Machine (Objects Thread) (Action Thread) Unit :=
  ⟨fun objects action => (objects.step action).map fun next => (next, ())⟩

/-! ## What the counters count -/

section Counts

variable {objects next : Objects Thread} {place : Place Thread} {thread : Thread}
  {object : ObjRef} {action : Action Thread}

/-- The pointers to an object. -/
def refs (objects : Objects Thread) (object : ObjRef) : Nat :=
  objects.pointers.countP fun pointer => pointer.2 = object

/-- The objects that are deleted, or about to be. -/
def doomed (objects : Objects Thread) : List ObjRef :=
  objects.deleting.map Prod.snd ++ objects.freed

structure Counted (objects : Objects Thread) : Prop where
  counts : ∀ object < objects.made,
    objects.refcnt object = BitVec.ofNat 32 (refs objects object)
  alive : ∀ pointer ∈ objects.pointers, pointer.2 < objects.made ∧ pointer.2 ∉ doomed objects
  places : ∀ pointer ∈ objects.pointers, ∀ owner, pointer.1 = .field owner →
    owner ∉ objects.freed
  nodup : (doomed objects).Nodup
  made : ∀ object ∈ doomed objects, object < objects.made
  pointed : ∀ object < objects.made, object ∉ doomed objects → 0 < refs objects object

/-- No counter is full. -/
def Roomy (objects : Objects Thread) (_ : Action Thread) : Prop :=
  ∀ object, refs objects object < 2 ^ 32

omit [DecidableEq Thread] in
theorem refs_pos_of_mem (there : (place, object) ∈ objects.pointers) : 0 < refs objects object :=
  List.countP_pos_iff.mpr ⟨_, there, decide_eq_true rfl⟩

omit [DecidableEq Thread] in
private theorem ne_of_refs_eq_zero (none : refs objects object = 0) {pointer : Pointer Thread}
    (there : pointer ∈ objects.pointers) : pointer.2 ≠ object := by
  rintro rfl
  exact Nat.ne_of_gt (refs_pos_of_mem there) none

private theorem refs_erase (there : (place, object) ∈ objects.pointers) (other : ObjRef) :
    (objects.pointers.erase (place, object)).countP (fun pointer => pointer.2 = other) +
      (if object = other then 1 else 0) = refs objects other := by
  unfold refs
  rw [(List.perm_cons_erase there).countP_eq, List.countP_cons]
  simp only [decide_eq_true_eq]

omit [DecidableEq Thread] in
/-- The counter of an object with pointers is one where there is one only. -/
theorem Counted.refcnt_eq_one (counted : Counted objects) (roomy : refs objects object < 2 ^ 32)
    (made : object < objects.made) : objects.refcnt object = 1 ↔ refs objects object = 1 := by
  rw [counted.counts object made, ← BitVec.toNat_inj, BitVec.toNat_ofNat, Nat.mod_eq_of_lt roomy]
  rfl

omit [DecidableEq Thread] in
private theorem Counted.make (counted : Counted objects) {place : Place Thread}
    (own : ∀ owner, place ≠ .field owner) : Counted (objects.make place) := by
  have fresh : refs objects objects.made = 0 := by
    apply List.countP_eq_zero.mpr
    intro pointer there
    simpa using Nat.ne_of_lt (counted.alive pointer there).1
  have count : ∀ object, refs (objects.make place) object =
      refs objects object + if objects.made = object then 1 else 0 := by
    intro object
    simp only [refs, Objects.make, List.countP_cons, decide_eq_true_eq]
  refine ⟨fun object made => ?_, fun pointer there => ?_, fun pointer there owner mine => ?_,
    counted.nodup, fun object gone => Nat.lt_succ_of_lt (counted.made object gone),
    fun object made left => ?_⟩
  · rw [count]
    change update objects.refcnt objects.made (0 + 1) object = _
    by_cases here : object = objects.made
    · subst here
      rw [update_self, fresh, if_pos rfl]
      rfl
    · rw [update_of_ne here, if_neg (Ne.symm here)]
      exact counted.counts object (Nat.lt_of_le_of_ne (Nat.le_of_lt_succ made) here)
  · rcases List.mem_cons.mp there with rfl | there
    · exact ⟨Nat.lt_succ_self _, fun gone => Nat.lt_irrefl _ (counted.made _ gone)⟩
    · obtain ⟨made, left⟩ := counted.alive pointer there
      exact ⟨Nat.lt_succ_of_lt made, left⟩
  · rcases List.mem_cons.mp there with rfl | there
    · exact absurd mine (own owner)
    · exact counted.places pointer there owner mine
  · rw [count]
    by_cases here : object = objects.made
    · rw [if_pos here.symm]
      exact Nat.succ_pos _
    · exact Nat.add_pos_left (counted.pointed object
        (Nat.lt_of_le_of_ne (Nat.le_of_lt_succ made) here) left) _

omit [DecidableEq Thread] in
private theorem Counted.addRef (counted : Counted objects) {source : Place Thread}
    (there : (source, object) ∈ objects.pointers) (thread : Thread) :
    Counted (objects.addRef (.thread thread) object) := by
  have count : ∀ other, refs (objects.addRef (.thread thread) object) other =
      refs objects other + if object = other then 1 else 0 := by
    intro other
    simp only [refs, Objects.addRef, List.countP_cons, decide_eq_true_eq]
  refine ⟨fun other made => ?_, fun pointer inside => ?_, fun pointer inside owner mine => ?_,
    counted.nodup, counted.made, fun other made left => ?_⟩
  · rw [count]
    change update objects.refcnt object _ other = _
    by_cases here : other = object
    · subst here
      rw [update_self, if_pos rfl, counted.counts other made]
      exact (BitVec.ofNat_add _ 1).symm
    · rw [update_of_ne here, if_neg (Ne.symm here)]
      exact counted.counts other made
  · rcases List.mem_cons.mp inside with rfl | inside
    · exact counted.alive (source, object) there
    · exact counted.alive pointer inside
  · rcases List.mem_cons.mp inside with rfl | inside
    · cases mine
    · exact counted.places pointer inside owner mine
  · rw [count]
    exact Nat.add_pos_left (counted.pointed other made left) _

/-- A pointer that is moved stays the one that it was to its object. -/
theorem Counted.move (counted : Counted objects) {source target : Place Thread}
    (there : (source, object) ∈ objects.pointers)
    (accepts : ∀ owner, target = .field owner → owner ∉ objects.freed) :
    Counted { objects with
      pointers := (target, object) :: objects.pointers.erase (source, object) } := by
  have count : ∀ other, refs { objects with
      pointers := (target, object) :: objects.pointers.erase (source, object) } other =
        refs objects other := by
    intro other
    rw [← refs_erase there other]
    simp only [refs, List.countP_cons, decide_eq_true_eq]
  refine ⟨fun other made => ?_, fun pointer inside => ?_, fun pointer inside owner mine => ?_,
    counted.nodup, counted.made, fun other made left => ?_⟩
  · rw [count]
    exact counted.counts other made
  · rcases List.mem_cons.mp inside with rfl | inside
    · exact counted.alive (source, object) there
    · exact counted.alive pointer (List.mem_of_mem_erase inside)
  · rcases List.mem_cons.mp inside with rfl | inside
    · exact accepts owner mine
    · exact counted.places pointer (List.mem_of_mem_erase inside) owner mine
  · rw [count]
    exact counted.pointed other made left

/-- Whoever takes the last pointer to an object deletes it. -/
theorem Counted.releaseRef (counted : Counted objects) (roomy : refs objects object < 2 ^ 32)
    (there : (place, object) ∈ objects.pointers) (thread : Thread) :
    Counted (objects.releaseRef thread place object) := by
  obtain ⟨made, left⟩ := counted.alive _ there
  have last := counted.refcnt_eq_one roomy made
  have count : ∀ other, refs (objects.releaseRef thread place object) other +
      (if object = other then 1 else 0) = refs objects other := refs_erase there
  have own := count object
  rw [if_pos rfl] at own
  have dooms : doomed (objects.releaseRef thread place object) =
      if objects.refcnt object = 1 then object :: doomed objects else doomed objects := by
    unfold doomed Objects.releaseRef
    split <;> rfl
  have counts : ∀ other < objects.made,
      (objects.releaseRef thread place object).refcnt other =
        BitVec.ofNat 32 (refs (objects.releaseRef thread place object) other) := by
    intro other older
    change update objects.refcnt object _ other = _
    by_cases here : other = object
    · subst here
      rw [update_self, counted.counts other older, ← own, BitVec.ofNat_add]
      exact BitVec.add_sub_cancel _ _
    · have same := count other
      rw [if_neg (Ne.symm here), Nat.add_zero] at same
      rw [update_of_ne here, same]
      exact counted.counts other older
  refine ⟨counts, fun pointer inside => ?_, fun pointer inside owner mine => ?_, ?_, fun other gone => ?_,
    fun other older stays => ?_⟩
  · obtain ⟨older, kept⟩ := counted.alive pointer (List.mem_of_mem_erase inside)
    refine ⟨older, ?_⟩
    rw [dooms]
    split
    case isTrue one =>
      have none : refs (objects.releaseRef thread place object) object = 0 := by
        have single := last.mp one
        omega
      exact List.not_mem_cons_of_ne_of_not_mem (ne_of_refs_eq_zero none inside) kept
    case isFalse => exact kept
  · exact counted.places pointer (List.mem_of_mem_erase inside) owner mine
  · rw [dooms]
    split
    case isTrue => exact List.nodup_cons.mpr ⟨left, counted.nodup⟩
    case isFalse => exact counted.nodup
  · rw [dooms] at gone
    split at gone
    case isTrue =>
      rcases List.mem_cons.mp gone with rfl | gone
      · exact made
      · exact counted.made other gone
    case isFalse => exact counted.made other gone
  · have here := count other
    by_cases same : object = other
    · subst same
      have several : refs objects object ≠ 1 := by
        intro single
        rw [dooms, if_pos (last.mpr single)] at stays
        exact stays List.mem_cons_self
      have one := refs_pos_of_mem there
      omega
    · rw [if_neg same, Nat.add_zero] at here
      rw [here]
      refine counted.pointed other older fun gone => stays ?_
      rw [dooms]
      split
      case isTrue => exact List.mem_cons_of_mem object gone
      case isFalse => exact gone

/-- The memory of an object goes when no pointer is in it any more. -/
theorem Counted.free (counted : Counted objects) (deletes : (thread, object) ∈ objects.deleting)
    (hollow : ∀ pointer ∈ objects.pointers, pointer.1 ≠ .field object) :
    Counted { objects with
      deleting := objects.deleting.erase (thread, object)
      freed := object :: objects.freed } := by
  have same : (doomed { objects with
      deleting := objects.deleting.erase (thread, object)
      freed := object :: objects.freed }).Perm (doomed objects) := by
    have first := ((List.perm_cons_erase deletes).map Prod.snd).append_right objects.freed
    exact List.perm_middle.trans first.symm
  refine ⟨counted.counts, fun pointer there => ?_, fun pointer there owner mine => ?_,
    same.nodup_iff.mpr counted.nodup, fun other gone => counted.made other (same.mem_iff.mp gone),
    fun other made left => counted.pointed other made fun gone => left (same.mem_iff.mpr gone)⟩
  · obtain ⟨made, left⟩ := counted.alive pointer there
    exact ⟨made, fun gone => left (same.mem_iff.mp gone)⟩
  · intro gone
    rcases List.mem_cons.mp gone with rfl | gone
    · exact hollow pointer there mine
    · exact counted.places pointer there owner mine gone

/-- One step of one thread. -/
theorem Counted.step (counted : Counted objects) (roomy : Roomy objects action)
    (stepped : objects.step action = some next) : Counted next := by
  cases action with
  | new thread =>
      cases stepped
      exact counted.make fun _ field => by cases field
  | onStack =>
      cases stepped
      exact counted.make fun _ field => by cases field
  | copy thread source object =>
      rw [Objects.step, Option.ite_none_right_eq_some, Bool.and_eq_true, decide_eq_true_eq] at stepped
      obtain ⟨⟨-, there⟩, same⟩ := stepped
      cases same
      exact counted.addRef there thread
  | move thread source target object =>
      simp only [Objects.step, Option.ite_none_right_eq_some, Bool.and_eq_true, decide_eq_true_eq]
        at stepped
      obtain ⟨⟨⟨-, accepted⟩, there⟩, same⟩ := stepped
      cases same
      refine counted.move there ?_
      rintro owner rfl gone
      have held : (.thread thread, owner) ∈ objects.pointers := of_decide_eq_true accepted
      exact (counted.alive _ held).2 (List.mem_append_right _ gone)
  | release thread object =>
      rw [Objects.step, Option.ite_none_right_eq_some] at stepped
      obtain ⟨there, same⟩ := stepped
      cases same
      exact counted.releaseRef (roomy object) there thread
  | destroy thread object member =>
      rw [Objects.step, Option.ite_none_right_eq_some] at stepped
      obtain ⟨⟨-, there⟩, same⟩ := stepped
      cases same
      exact counted.releaseRef (roomy member) there thread
  | free thread object =>
      rw [Objects.step, Option.ite_none_right_eq_some] at stepped
      obtain ⟨⟨deletes, hollow⟩, same⟩ := stepped
      cases same
      exact counted.free deletes hollow

omit [DecidableEq Thread] in
private theorem counted_empty : Counted (Objects.empty : Objects Thread) where
  counts _ made := absurd made (Nat.not_lt_zero _)
  alive _ there := absurd there List.not_mem_nil
  places _ there := absurd there List.not_mem_nil
  nodup := List.nodup_nil
  made _ gone := absurd gone List.not_mem_nil
  pointed _ made := absurd made (Nat.not_lt_zero _)

end Counts

/-! ## Over all interleavings -/

private theorem preserves_counted : machine.Preserves Roomy (@Counted Thread) := by
  intro objects action next output counted room stepped
  obtain ⟨after, taken, same⟩ := Option.map_eq_some_iff.mp stepped
  cases same
  exact counted.step room taken

omit [DecidableEq Thread] in
/-- An object is deleted as soon as there is no pointer to it. -/
theorem Counted.mem_doomed_iff {objects : Objects Thread} {object : ObjRef}
    (counted : Counted objects) (made : object < objects.made) :
    object ∈ doomed objects ↔ ∀ place, (place, object) ∉ objects.pointers := by
  constructor
  · exact fun gone place there => (counted.alive _ there).2 gone
  · intro none
    by_contra left
    obtain ⟨pointer, there, same⟩ := List.countP_pos_iff.mp (counted.pointed object made left)
    obtain rfl := of_decide_eq_true same
    exact none pointer.1 there

omit [DecidableEq Thread] in
/-- In the end every object was freed once. -/
theorem Counted.freed_perm {objects : Objects Thread} (counted : Counted objects)
    (none : objects.pointers = []) (idle : objects.deleting = []) :
    objects.freed.Perm (List.range objects.made) := by
  have gone : doomed objects = objects.freed := by
    unfold doomed
    rw [idle]
    rfl
  have nodup := counted.nodup
  rw [gone] at nodup
  refine (List.perm_ext_iff_of_nodup nodup List.nodup_range).mpr fun object => ?_
  rw [List.mem_range, ← gone]
  constructor
  · exact counted.made object
  · intro made
    apply (counted.mem_doomed_iff made).mpr
    intro place there
    rw [none] at there
    exact absurd there List.not_mem_nil

/-- **Counted references.** As long as no counter is full, an object is deleted exactly if there is
no pointer to it, by one thread and freed once; no pointer is in one that was freed; and when no
pointer is left and no destructor runs, every object was freed. -/
theorem freed_of_run {actions : List (Action Thread)} {final : Objects Thread} {outputs : List Unit}
    (roomy : machine.Meets Roomy Objects.empty actions)
    (ran : machine.run Objects.empty actions = some (final, outputs)) :
    (∀ object < final.made, object ∈ doomed final ↔ ∀ place, (place, object) ∉ final.pointers) ∧
    (∀ owner object, (.field owner, object) ∈ final.pointers → owner ∉ final.freed) ∧
    (doomed final).Nodup ∧
    (final.pointers = [] → final.deleting = [] → final.freed.Perm (List.range final.made)) := by
  have counted := preserves_counted.run counted_empty roomy ran
  exact ⟨fun object made => counted.mem_doomed_iff made,
    fun owner object there => counted.places _ there owner rfl, counted.nodup, counted.freed_perm⟩

private theorem length_pointers_step {objects next : Objects Thread} {action : Action Thread}
    (stepped : objects.step action = some next) :
    next.pointers.length ≤ objects.pointers.length + 1 := by
  cases action with
  | new thread =>
      cases stepped
      exact Nat.le_refl _
  | onStack =>
      cases stepped
      exact Nat.le_refl _
  | copy thread source object =>
      rw [Objects.step, Option.ite_none_right_eq_some] at stepped
      cases stepped.2
      exact Nat.le_refl _
  | move thread source target object =>
      rw [Objects.step, Option.ite_none_right_eq_some] at stepped
      cases stepped.2
      exact Nat.succ_le_succ List.length_erase_le
  | release thread object =>
      rw [Objects.step, Option.ite_none_right_eq_some] at stepped
      cases stepped.2
      exact Nat.le_succ_of_le List.length_erase_le
  | destroy thread object member =>
      rw [Objects.step, Option.ite_none_right_eq_some] at stepped
      cases stepped.2
      exact Nat.le_succ_of_le List.length_erase_le
  | free thread object =>
      rw [Objects.step, Option.ite_none_right_eq_some] at stepped
      cases stepped.2
      exact Nat.le_succ _

/-- A counter is not full in so few steps. -/
theorem meets_roomy (actions : List (Action Thread)) : ∀ {objects : Objects Thread},
    objects.pointers.length + actions.length < 2 ^ 32 → machine.Meets Roomy objects actions := by
  induction actions with
  | nil => exact fun _ => trivial
  | cons action rest ih =>
      intro objects short
      rw [List.length_cons] at short
      refine ⟨fun object => ?_, fun next _ stepped => ?_⟩
      · have few : refs objects object ≤ objects.pointers.length := List.countP_le_length
        omega
      · obtain ⟨after, taken, same⟩ := Option.map_eq_some_iff.mp stepped
        cases same
        have longer := length_pointers_step taken
        exact ih (by omega)

/-- One thread makes an object and hands a pointer to it to another one, which lets go first. -/
def handedOver : List (Action Bool) :=
  [.new false, .copy false (.thread false) 0, .move false (.thread false) (.thread true) 0,
    .release true 0, .release false 0, .free false 0]

theorem freed_of_run_handedOver : ∃ final outputs,
    machine.run Objects.empty handedOver = some (final, outputs) ∧
      final.freed.Perm (List.range final.made) :=
  ⟨_, _, rfl, (freed_of_run (meets_roomy handedOver (by decide)) rfl).2.2.2 rfl rfl⟩

end Tvntd.IntrusivePtr
