import Tvntd.Lib.Dealing

/-! # Work lists of concurrent tasks

`FileService.applyTask` gives every task of an executor a list of its own and
deals the work items out to them in turn. The tasks are the one it is passed and
clones of it, each an object that was made for it.
-/

universe u

namespace Tvntd.FileService

open Dealing Function

variable {α : Type u}

/-- The task that is passed, and the new objects its `cloneInstance` returns call by call. -/
structure Instances where
  item : Nat
  cloneInstance : Nat → Nat
  distinct : Function.Injective cloneInstance
  fresh : ∀ call, cloneInstance call ≠ item

/-- `List.size` -/
def size (list : List α) : Int := min list.length (2 ^ 31 - 1)

/-- The work lists of the objects, `none` where none was set. -/
abbrev WorkLists (α : Type u) := Nat → Option (List α)

/-- The constructor of `BatchTask`. -/
def batchTask (lists : WorkLists α) (context : Nat) : WorkLists α :=
  update lists context (some [])

/-- The contexts of the tasks. -/
def contexts (inst : Instances) (concurrency : Int) : List Nat :=
  inst.item :: (List.range (concurrency - 1).toNat).map inst.cloneInstance

/-- The loop over the items; `none` is an exception. -/
def addItems (tasks : List Nat) (concurrency : Int) :
    List α → Int → WorkLists α → Option (WorkLists α)
  | [], _, lists => some lists
  | sp :: rest, idx, lists =>
      match (if idx < 0 then none else tasks[idx.toNat]?) with
      | none => none
      | some context =>
          if concurrency = 0 then none
          else
            match lists context with
            | none => none
            | some workList =>
                addItems tasks concurrency rest ((idx + 1).tmod concurrency)
                  (update lists context (some (workList ++ [sp])))

/-- `applyTask`: the work lists of the tasks that are submitted. -/
def applyTask (inst : Instances) (fileList : List α) (concurrency : Int) :
    Option (List (List α)) :=
  let concurrency := if size fileList < concurrency then size fileList else concurrency
  let tasks := contexts inst concurrency
  (addItems tasks concurrency fileList 0 (tasks.foldl batchTask fun _ => none)).bind fun lists =>
    tasks.mapM lists

/-! ## The tasks -/

private theorem contexts_nodup (inst : Instances) (concurrency : Int) :
    (contexts inst concurrency).Nodup := by
  rw [contexts, List.nodup_cons]
  constructor
  · intro member
    obtain ⟨call, -, same⟩ := List.mem_map.mp member
    exact inst.fresh call same
  · exact List.nodup_range.map inst.distinct

private theorem length_contexts (inst : Instances) (concurrency : Int) :
    (contexts inst concurrency).length = max 1 concurrency.toNat := by
  rw [contexts, List.length_cons, List.length_map, List.length_range]
  omega

/-- A constructed task has an empty list. -/
theorem foldl_batchTask {tasks : List Nat} {context : Nat} (member : context ∈ tasks) :
    ∀ lists : WorkLists α, tasks.foldl batchTask lists context = some [] := by
  have kept : ∀ (rest : List Nat) (lists : WorkLists α), lists context = some [] →
      rest.foldl batchTask lists context = some [] := by
    intro rest
    induction rest with
    | nil => exact fun _ same => same
    | cons other rest ih =>
        intro lists same
        apply ih
        by_cases own : context = other
        · rw [batchTask, own, update_self]
        · rw [batchTask, update_of_ne own, same]
  induction tasks with
  | nil => cases member
  | cons other rest ih =>
      intro lists
      rcases List.mem_cons.mp member with rfl | later
      · exact kept rest _ (update_self _ _ _)
      · exact ih later _

/-- The tasks have the lists that were dealt so far. -/
def Dealt (tasks : List Nat) (hands : Nat) (done : List α) (lists : WorkLists α) : Prop :=
  ∀ (hand : Nat) (inside : hand < tasks.length), lists tasks[hand] = some (dealt hands done hand)

variable {tasks : List Nat} {hands : Nat}

/-- One turn of the loop deals one item. -/
theorem Dealt.turn (distinct : tasks.Nodup) {done : List α} {lists : WorkLists α}
    (holds : Dealt tasks hands done lists) (sp : α) (inside : done.length % hands < tasks.length) :
    Dealt tasks hands (done ++ [sp]) (update lists tasks[done.length % hands]
      (some (dealt hands done (done.length % hands) ++ [sp]))) := by
  intro hand other
  rw [dealt_concat]
  by_cases turn : done.length % hands = hand
  · subst turn
    rw [if_pos rfl, update_self]
  · have apart : tasks[hand] ≠ tasks[done.length % hands] := fun same =>
      turn ((distinct.getElem_inj_iff).mp same).symm
    rw [if_neg turn, update_of_ne apart, holds hand other]

/-- The loop deals the items that are left. -/
theorem addItems_dealt (distinct : tasks.Nodup) (enough : tasks.length = hands)
    (positive : 0 < hands) (rest : List α) :
    ∀ (done : List α) (lists : WorkLists α), Dealt tasks hands done lists →
      ∃ final, addItems tasks hands rest ((done.length % hands : Nat) : Int) lists = some final ∧
        Dealt tasks hands (done ++ rest) final := by
  induction rest with
  | nil =>
      intro done lists holds
      refine ⟨lists, rfl, ?_⟩
      rwa [List.append_nil]
  | cons sp rest ih =>
      intro done lists holds
      have inside : done.length % hands < tasks.length := by
        rw [enough]
        exact Nat.mod_lt _ positive
      have divides : ¬ (hands : Int) = 0 := by omega
      have notNegative : ¬ ((done.length % hands : Nat) : Int) < 0 := by omega
      have next : (((done.length % hands : Nat) : Int) + 1).tmod hands =
          (((done ++ [sp]).length % hands : Nat) : Int) := by
        rw [List.length_append, List.length_singleton, ← Nat.mod_add_mod, Int.ofNat_tmod]
        rfl
      obtain ⟨final, looped, ends⟩ := ih (done ++ [sp]) _ (holds.turn distinct sp inside)
      refine ⟨final, ?_, ?_⟩
      · simp only [addItems, if_neg notNegative, Int.toNat_natCast,
          List.getElem?_eq_getElem inside, if_neg divides, holds _ inside, next]
        exact looped
      · rwa [List.append_assoc, List.singleton_append] at ends

/-- The lists of the tasks are submitted in the order of the tasks. -/
theorem mapM_dealt {elems : List α} {lists : WorkLists α} (holds : Dealt tasks hands elems lists) :
    tasks.mapM lists = some ((List.range tasks.length).map (dealt hands elems)) := by
  have given : ∀ rest : List Nat, (∀ context ∈ rest, (lists context).isSome) →
      rest.mapM lists = some (rest.map fun context => (lists context).getD []) := by
    intro rest
    induction rest with
    | nil => exact fun _ => rfl
    | cons context rest ih =>
        intro set
        obtain ⟨workList, here⟩ := Option.isSome_iff_exists.mp (set context List.mem_cons_self)
        have later := ih fun other inside => set other (List.mem_cons_of_mem _ inside)
        rw [List.mapM_cons, here, later, List.map_cons, here]
        rfl
  rw [given tasks]
  · apply congrArg some
    apply List.ext_getElem
    · rw [List.length_map, List.length_map, List.length_range]
    · intro hand inside _
      rw [List.length_map] at inside
      rw [List.getElem_map, List.getElem_map, List.getElem_range, holds hand inside,
        Option.getD_some]
  · intro context member
    obtain ⟨hand, inside, rfl⟩ := List.mem_iff_getElem.mp member
    rw [holds hand inside]
    rfl

/-- How many tasks have something to do. -/
def workers (fileList : List α) (concurrency : Int) : Nat :=
  (min (size fileList) concurrency).toNat

private theorem one_le_workers {fileList : List α} {concurrency : Int} (positive : 1 ≤ concurrency)
    (busy : fileList ≠ []) : 1 ≤ workers fileList concurrency := by
  have length := List.length_pos_of_ne_nil busy
  unfold workers size
  omega

/-- The items are dealt out to as many tasks as there are items for, and one at least. -/
theorem applyTask_eq (inst : Instances) (fileList : List α) {concurrency : Int}
    (positive : 1 ≤ concurrency) :
    applyTask inst fileList concurrency =
      some ((List.range (max 1 (workers fileList concurrency))).map
        (dealt (workers fileList concurrency) fileList)) := by
  have least : (if size fileList < concurrency then size fileList else concurrency) =
      (workers fileList concurrency : Int) := by
    unfold workers size
    split
    · omega
    · omega
  have length : (contexts inst (workers fileList concurrency : Int)).length =
      max 1 (workers fileList concurrency) := length_contexts inst _
  have started : Dealt (contexts inst (workers fileList concurrency : Int))
      (workers fileList concurrency) ([] : List α)
      ((contexts inst (workers fileList concurrency : Int)).foldl batchTask fun _ => none) :=
    fun hand inside => foldl_batchTask (List.getElem_mem inside) _
  simp only [applyTask, least]
  by_cases empty : fileList = []
  · subst empty
    rw [addItems, Option.bind_some, mapM_dealt started, length]
  · have busy := one_le_workers positive empty
    obtain ⟨final, looped, ends⟩ := addItems_dealt (contexts_nodup inst _)
      (length.trans (Nat.max_eq_right busy)) busy fileList [] _ started
    rw [List.length_nil, Nat.zero_mod, Nat.cast_zero] at looped
    rw [List.nil_append] at ends
    rw [looped, Option.bind_some, mapM_dealt ends, length]

/-- **Work lists of concurrent tasks.** Each item goes to one task, a task has its items in the
order of the list, and no task has more than one item more than another. -/
theorem applyTask_partitions (inst : Instances) (fileList : List α) {concurrency : Int}
    (positive : 1 ≤ concurrency) :
    ∃ (tasks : List (List α)) (task : Nat → Nat), applyTask inst fileList concurrency = some tasks ∧
      (∀ place < fileList.length, task place < tasks.length) ∧
      (∀ (own : Nat) (inside : own < tasks.length), tasks[own] =
        (fileList.zipIdx.filter fun e => task e.2 = own).map Prod.fst) ∧
      ∀ own ∈ tasks, ∀ other ∈ tasks, own.length ≤ other.length + 1 := by
  refine ⟨_, fun place => place % workers fileList concurrency,
    applyTask_eq inst fileList positive, ?_, ?_, ?_⟩
  · intro place inside
    have busy := one_le_workers positive (List.ne_nil_of_length_pos (Nat.zero_lt_of_lt inside))
    rw [List.length_map, List.length_range, Nat.max_eq_right busy]
    exact Nat.mod_lt _ busy
  · intro own inside
    rw [List.getElem_map, List.getElem_range]
    rfl
  · intro own member other otherMember
    obtain ⟨hand, inside, rfl⟩ := List.mem_map.mp member
    obtain ⟨otherHand, otherInside, rfl⟩ := List.mem_map.mp otherMember
    rw [List.mem_range] at inside otherInside
    by_cases empty : fileList = []
    · subst empty
      exact Nat.zero_le _
    · rw [Nat.max_eq_right (one_le_workers positive empty)] at inside otherInside
      exact length_dealt_le inside otherInside fileList

/-- Five items for two tasks. -/
theorem applyTask_partitions_five :
    ∃ (tasks : List (List Nat)) (task : Nat → Nat),
      applyTask ⟨0, fun call => call + 1, fun _ _ same => Nat.succ.inj same, Nat.succ_ne_zero⟩
        [10, 11, 12, 13, 14] 2 = some tasks ∧
      (∀ place < 5, task place < tasks.length) ∧
      (∀ (own : Nat) (inside : own < tasks.length), tasks[own] =
        ([10, 11, 12, 13, 14].zipIdx.filter fun e => task e.2 = own).map Prod.fst) ∧
      ∀ own ∈ tasks, ∀ other ∈ tasks, own.length ≤ other.length + 1 :=
  applyTask_partitions _ _ (by decide)

end Tvntd.FileService
