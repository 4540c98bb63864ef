import Tvntd.Lib.Transition
import Tvntd.Cpptype.Object
import Tvntd.Ctype.Dlist
import Tvntd.Ctype.List

/-! # Sorted lists of objects

The sorted insertions of `cpptype/list-obj.h` and `cpptype/list-obj.cpp`. The
comparison functions get links and ask the owners of both for their keys; the
owner of the new link is set when the insertion into the list is done. So the
first comparison asks an owner that is not there, and only a list without
elements takes an object.

`none` in place of a comparison is a null pointer that is followed.
-/

namespace Tvntd

open LinkedCells TwoWay Function

variable {ρ ω : Type*}

/-- What the comparison functions have in common: the owners of both links, and their keys. -/
def compareOwners (olPtr : ρ → Option ω) (objKey64 : ω → Key64) (e1 e2 : ρ) : Option Int :=
  (olPtr e1).bind fun o1 =>
    (olPtr e2).map fun o2 => objCompare64 (objKey64 o1) (objKey64 o2)

/-- `DListObj::dl_cmp_key64` -/
def dlCmpKey64 (olPtr : ρ → Option ω) (objKey64 : ω → Key64) : ρ → ρ → Option Int :=
  compareOwners olPtr objKey64

/-- `DListObj::dl_cmp_chain` -/
def dlCmpChain (olPtr : ρ → Option ω) (objKey64 : ω → Key64) : ρ → ρ → Option Int :=
  compareOwners olPtr objKey64

/-- `SListObj::sl_cmp_key64` -/
def slCmpKey64 (olPtr : ρ → Option ω) (objKey64 : ω → Key64) : ρ → ρ → Option Int :=
  compareOwners olPtr objKey64

/-- `SListObj::sl_cmp_chain` -/
def slCmpChain (olPtr : ρ → Option ω) (objKey64 : ω → Key64) : ρ → ρ → Option Int :=
  compareOwners olPtr objKey64

/-- A loop that is not entered: an `assert` in front of it failed. -/
def failedAssert {σ τ : Type*} : Loop σ τ where
  turn _ := none

/-- The links in memory with the owner of each. -/
structure DListObj (ρ ω : Type*) where
  links : Dlinks ρ
  olPtr : ρ → Option ω

/-- The single links in memory with the owner of each, and the list. -/
structure SListObj (ρ ω : Type*) where
  next : SlNext ρ
  mList : Slist ρ
  olPtr : ρ → Option ω

section Insertions

variable [DecidableEq ρ] (objKey64 : ω → Key64)

/-- `dlist_add_sorted` on the list of objects, and then the owner of the new link. -/
def DListObj.link (self : DListObj ρ ω) (mList p : ρ) (obj : ω) (cmp : ρ → ρ → Option Int) :
    Loop (Option ρ) (DListObj ρ ω) :=
  (Dlinks.dlistAddSorted self.links mList p cmp).andThen fun links =>
    some ⟨links, update self.olPtr p (some obj)⟩

/-- The insertions into a `DListObj` by 64-bit keys. -/
inductive DlAdd (ρ ω : Type*)
  | sorted (obj : ω)
  | sortedLink (obj : ω) (p : ρ)
  | sortedKey64 (obj : ω)

/-- The inserted object. -/
def DlAdd.obj : DlAdd ρ ω → ω
  | .sorted obj => obj
  | .sortedLink obj _ => obj
  | .sortedKey64 obj => obj

/-- The link that is inserted; `mChain` is the one inside an object. -/
def DlAdd.link (mChain : ω → ρ) : DlAdd ρ ω → ρ
  | .sorted obj => mChain obj
  | .sortedLink _ p => p
  | .sortedKey64 obj => mChain obj

/-- `dl_add_sorted`, `dl_add_sorted` with a link, and `dl_add_sorted_key64` -/
def DListObj.add (mList : ρ) (mChain : ω → ρ) (self : DListObj ρ ω) :
    DlAdd ρ ω → Loop (Option ρ) (DListObj ρ ω)
  | .sorted obj =>
      if Dlinks.dlistEmpty self.links (mChain obj) ∧ (self.olPtr (mChain obj)).isNone then
        self.link mList (mChain obj) obj (dlCmpChain self.olPtr objKey64)
      else failedAssert
  | .sortedLink obj p =>
      if (self.olPtr p).isNone then self.link mList p obj (dlCmpChain self.olPtr objKey64)
      else failedAssert
  | .sortedKey64 obj =>
      if (self.olPtr (mChain obj)).isNone then
        self.link mList (mChain obj) obj (dlCmpKey64 self.olPtr objKey64)
      else failedAssert

/-- `slist_insert_sorted` with a comparison that may follow a null pointer. -/
def slistInsertSortedBy (next : SlNext ρ) (list : Slist ρ) (elem : ρ)
    (cmp : ρ → ρ → Option Int) : Loop (Option (SlinkIter ρ)) (SlNext ρ × Slist ρ) where
  turn
    | none =>
        if slistEmpty next list then some (.inr (slistInsertFront next list elem))
        else
          list.slTail.bind fun tail =>
            (cmp tail elem).bind fun order =>
              if 0 < order then some (.inl (some (slinkIterInit next (some list.slHead))))
              else (slistInsertBack next list elem).map Sum.inr
    | some iter =>
        match iter.slCurr with
        | none => (slistInsertBack next list elem).map Sum.inr
        | some curr =>
            (cmp curr elem).bind fun order =>
              if 0 < order then
                match iter.slPrev with
                | some prev =>
                    some (.inr (update (update next prev (some elem)) elem
                      (some curr), list))
                | none => some (.inr (slinkAddFront next curr elem, list))
              else (slinkIterNext next iter).map fun moved => .inl (some moved)

/-- The insertions into an `SListObj` by 64-bit keys. -/
inductive SlAdd (ρ ω : Type*)
  | sorted (obj : ω) (p : ρ)
  | sortedKey64 (obj : ω) (p : ρ)

def SlAdd.obj : SlAdd ρ ω → ω
  | .sorted obj _ => obj
  | .sortedKey64 obj _ => obj

def SlAdd.link : SlAdd ρ ω → ρ
  | .sorted _ p => p
  | .sortedKey64 _ p => p

/-- `slist_insert_sorted` on the list of objects, and then the owner of the new link. -/
def SListObj.link (self : SListObj ρ ω) (p : ρ) (obj : ω) (cmp : ρ → ρ → Option Int) :
    Loop (Option (SlinkIter ρ)) (SListObj ρ ω) :=
  if (self.olPtr p).isNone then
    (slistInsertSortedBy self.next self.mList p cmp).andThen fun inserted =>
      some ⟨inserted.1, inserted.2, update self.olPtr p (some obj)⟩
  else failedAssert

/-- `sl_add_sorted` and `sl_add_sorted_key64` -/
def SListObj.add (self : SListObj ρ ω) : SlAdd ρ ω → Loop (Option (SlinkIter ρ)) (SListObj ρ ω)
  | .sorted obj p => self.link p obj (slCmpChain self.olPtr objKey64)
  | .sortedKey64 obj p => self.link p obj (slCmpKey64 self.olPtr objKey64)

/-- A step is an insertion that returns. -/
def DListObj.machine (mList : ρ) (mChain : ω → ρ) : Transition (DListObj ρ ω) (DlAdd ρ ω) Unit where
  step self op after _ := (self.add objKey64 mList mChain op).Returns none after

def SListObj.machine : Transition (SListObj ρ ω) (SlAdd ρ ω) Unit where
  step self op after _ := (self.add objKey64 op).Returns none after

/-- The list was just constructed and so were the links that are to be inserted, which are all
different. -/
structure DListObj.Fresh (state : DListObj ρ ω) (mList : ρ) (mChain : ω → ρ)
    (ops : List (DlAdd ρ ω)) : Prop where
  empty : state.links.Ring mList []
  distinct : (mList :: ops.map (DlAdd.link mChain)).Nodup
  alone : ∀ op ∈ ops, state.links.Ring (op.link mChain) []
  unowned : ∀ op ∈ ops, state.olPtr (op.link mChain) = none

structure SListObj.Fresh (state : SListObj ρ ω) (ops : List (SlAdd ρ ω)) : Prop where
  empty : SlistHolds state.next state.mList []
  distinct : (state.mList.slHead :: ops.map SlAdd.link).Nodup
  unowned : ∀ op ∈ ops, state.olPtr op.link = none

/-- The list holds these objects, and they ascend by their keys. -/
def DListObj.Ascends (self : DListObj ρ ω) (mList : ρ) (objs : List ω) : Prop :=
  (∃ elems, self.links.Ring mList elems ∧ elems.map self.olPtr = objs.map some) ∧
    objs.Pairwise fun a b => (objKey64 a).toNat ≤ (objKey64 b).toNat

def SListObj.Ascends (self : SListObj ρ ω) (objs : List ω) : Prop :=
  (∃ elems, SlistHolds self.next self.mList elems ∧ elems.map self.olPtr = objs.map some) ∧
    objs.Pairwise fun a b => (objKey64 a).toNat ≤ (objKey64 b).toNat

variable {objKey64} {self : DListObj ρ ω} {single : SListObj ρ ω} {mList p : ρ} {mChain : ω → ρ}
  {obj : ω}

omit [DecidableEq ρ] in
private theorem compareOwners_unowned {olPtr : ρ → Option ω} (unowned : olPtr p = none) (e1 : ρ) :
    compareOwners olPtr objKey64 e1 p = none := by
  rw [compareOwners, unowned]
  cases olPtr e1 with
  | none => rfl
  | some o1 => rfl

/-! ## Circular lists of objects -/

/-- A list without elements compares nothing. -/
theorem DListObj.link_first (empty : self.links.Ring mList []) (other : p ≠ mList) (obj : ω)
    (cmp : ρ → ρ → Option Int) :
    ∃ after, (self.link mList p obj cmp).Returns none
        ⟨after, update self.olPtr p (some obj)⟩ ∧ after.Ring mList [p] := by
  obtain ⟨after, added, ring⟩ := Dlinks.dlistAddFront_ring [] [] empty (by simpa using other)
  refine ⟨after, Loop.Returns.andThen (Loop.returns_of_done ?_) rfl, ring⟩
  have none : Dlinks.dlistEmpty self.links mList = true := Dlinks.dlistEmpty_iff empty
  change Dlinks.dlistAddFront self.links mList p = some after at added
  simp only [Dlinks.dlistAddSorted, none, if_true, added, Option.map_some]

/-- Where there is an element it is compared with the new link, which has no owner. -/
theorem DListObj.link_faults {elems : List ρ} (ring : self.links.Ring mList elems)
    (filled : elems ≠ []) (unowned : self.olPtr p = none) (after : DListObj ρ ω) :
    ¬ (self.link mList p obj (compareOwners self.olPtr objKey64)).Returns none after := by
  intro returns
  obtain ⟨links, returned, -⟩ := returns.of_andThen
  refine Loop.not_returns_of_stuck ?_ returned
  have some : Dlinks.dlistEmpty self.links mList = false := by
    rw [Dlinks.dlistEmpty_iff ring, List.isEmpty_eq_false_iff]
    exact filled
  simp only [Dlinks.dlistAddSorted, some, Bool.false_eq_true, if_false, ring.joined_last.2,
    Option.bind_some, compareOwners_unowned unowned, Option.bind_none]

/-- Every insertion is the same one, or its `assert` fails. -/
theorem DListObj.add_cases (self : DListObj ρ ω) (op : DlAdd ρ ω) :
    self.add objKey64 mList mChain op = self.link mList (op.link mChain) op.obj
        (compareOwners self.olPtr objKey64) ∨
      self.add objKey64 mList mChain op = failedAssert := by
  cases op with
  | sorted obj => exact ite_eq_or_eq ..
  | sortedLink obj p => exact ite_eq_or_eq ..
  | sortedKey64 obj => exact ite_eq_or_eq ..

/-- The `assert`s hold for a link that was just constructed. -/
theorem DListObj.add_fresh (self : DListObj ρ ω) (op : DlAdd ρ ω)
    (alone : self.links.Ring (op.link mChain) []) (unowned : self.olPtr (op.link mChain) = none) :
    self.add objKey64 mList mChain op = self.link mList (op.link mChain) op.obj
      (compareOwners self.olPtr objKey64) := by
  have free : (self.olPtr (op.link mChain)).isNone = true := by rw [unowned]; rfl
  cases op with
  | sorted obj => exact if_pos ⟨Dlinks.dlistEmpty_iff alone, free⟩
  | sortedLink obj p => exact if_pos free
  | sortedKey64 obj => exact if_pos free

private theorem DListObj.add_faults {elems : List ρ} (ring : self.links.Ring mList elems)
    (filled : elems ≠ []) (op : DlAdd ρ ω) (unowned : self.olPtr (op.link mChain) = none)
    (after : DListObj ρ ω) : ¬ (self.add objKey64 mList mChain op).Returns none after := by
  rcases DListObj.add_cases self op with same | failed
  · rw [same]
    exact DListObj.link_faults ring filled unowned after
  · rw [failed]
    exact Loop.not_returns_of_stuck rfl

/-- A run of insertions goes through, and the list ascends then, for at most one of them. -/
theorem DListObj.runs_iff {ops : List (DlAdd ρ ω)} (fresh : self.Fresh mList mChain ops) :
    (∃ final outputs objs, (DListObj.machine objKey64 mList mChain).Runs self ops final outputs ∧
      final.Ascends objKey64 mList objs ∧ objs.Perm (ops.map DlAdd.obj)) ↔ ops.length ≤ 1 := by
  have first : ∀ op ∈ ops, ∃ after,
      (self.add objKey64 mList mChain op).Returns none
        ⟨after, update self.olPtr (op.link mChain) (some op.obj)⟩ ∧
      after.Ring mList [op.link mChain] := by
    intro op member
    rw [self.add_fresh op (fresh.alone op member) (fresh.unowned op member)]
    apply DListObj.link_first fresh.empty
    intro same
    exact (List.nodup_cons.mp fresh.distinct).1 (same ▸ List.mem_map_of_mem member)
  constructor
  · rintro ⟨final, outputs, objs, ran, -, -⟩
    match ops, fresh, first, ran with
    | [], _, _, _ => exact Nat.zero_le 1
    | [op], _, _, _ => exact Nat.le_refl 1
    | op :: second :: rest, fresh, first, .cons stepped (.cons again _) =>
        obtain ⟨after, returns, ring⟩ := first op List.mem_cons_self
        cases stepped.unique returns
        have other : second.link mChain ≠ op.link mChain := by
          have distinct := (List.nodup_cons.mp fresh.distinct).2
          rintro same
          exact (List.nodup_cons.mp distinct).1 (same ▸ List.mem_cons_self)
        refine (DListObj.add_faults ring (List.cons_ne_nil _ _) second ?_ _ again).elim
        refine (update_of_ne other ..).trans ?_
        exact fresh.unowned second (List.mem_cons_of_mem _ List.mem_cons_self)
  · intro short
    match ops, fresh, first, short with
    | [], fresh, _, _ =>
        exact ⟨self, [], [], .nil self, ⟨⟨[], fresh.empty, rfl⟩, .nil⟩, .refl _⟩
    | [op], _, first, _ =>
        obtain ⟨after, returns, ring⟩ := first op List.mem_cons_self
        refine ⟨_, [()], [op.obj], .cons returns (.nil _), ⟨⟨_, ring, ?_⟩, ?_⟩, .refl _⟩
        · simp
        · exact List.pairwise_singleton _ _

/-! ## Single linked lists of objects -/

/-- Both insertions are the same one. -/
theorem SListObj.add_eq (single : SListObj ρ ω) (op : SlAdd ρ ω) :
    single.add objKey64 op =
      single.link op.link op.obj (compareOwners single.olPtr objKey64) := by
  cases op with
  | sorted obj p => rfl
  | sortedKey64 obj p => rfl

private theorem SListObj.link_first (empty : SlistHolds single.next single.mList [])
    (other : p ≠ single.mList.slHead) (unowned : single.olPtr p = none) (obj : ω)
    (cmp : ρ → ρ → Option Int) :
    ∃ next list, (single.link p obj cmp).Returns none
        ⟨next, list, update single.olPtr p (some obj)⟩ ∧ SlistHolds next list [p] := by
  have free : (single.olPtr p).isNone = true := by
    rw [unowned]
    rfl
  refine ⟨_, _, ?_, empty.insertFront (by simpa using other)⟩
  rw [SListObj.link, if_pos free]
  refine Loop.Returns.andThen (Loop.returns_of_done ?_) rfl
  have none : slistEmpty single.next single.mList = true := slinkEmpty_iff empty.chain
  simp only [slistInsertSortedBy, none, if_true]

theorem SListObj.link_faults {elems : List ρ} (holds : SlistHolds single.next single.mList elems)
    (filled : elems ≠ []) (unowned : single.olPtr p = none) (after : SListObj ρ ω) :
    ¬ (single.link p obj (compareOwners single.olPtr objKey64)).Returns none after := by
  intro returns
  have free : (single.olPtr p).isNone = true := by
    rw [unowned]
    rfl
  rw [SListObj.link, if_pos free] at returns
  obtain ⟨inserted, returned, -⟩ := returns.of_andThen
  refine Loop.not_returns_of_stuck ?_ returned
  have some : slistEmpty single.next single.mList = false := by
    rw [slistEmpty, slinkEmpty_iff holds.chain, List.isEmpty_eq_false_iff]
    exact filled
  simp only [slistInsertSortedBy, some, Bool.false_eq_true, if_false, holds.tail,
    List.getLast?_eq_some_getLast filled, Option.bind_some, compareOwners_unowned unowned,
    Option.bind_none]

private theorem SListObj.runs_iff {ops : List (SlAdd ρ ω)} (fresh : single.Fresh ops) :
    (∃ final outputs objs, (SListObj.machine objKey64).Runs single ops final outputs ∧
      final.Ascends objKey64 objs ∧ objs.Perm (ops.map SlAdd.obj)) ↔ ops.length ≤ 1 := by
  have first : ∀ op ∈ ops, ∃ next list, (single.add objKey64 op).Returns none
      ⟨next, list, update single.olPtr op.link (some op.obj)⟩ ∧
        SlistHolds next list [op.link] := by
    intro op member
    rw [single.add_eq op]
    apply SListObj.link_first fresh.empty _ (fresh.unowned op member)
    intro same
    exact (List.nodup_cons.mp fresh.distinct).1 (same ▸ List.mem_map_of_mem member)
  constructor
  · rintro ⟨final, outputs, objs, ran, -, -⟩
    match ops, fresh, first, ran with
    | [], _, _, _ => exact Nat.zero_le 1
    | [op], _, _, _ => exact Nat.le_refl 1
    | op :: second :: rest, fresh, first, .cons stepped (.cons again _) =>
        obtain ⟨next, list, returns, holds⟩ := first op List.mem_cons_self
        cases stepped.unique returns
        have other : second.link ≠ op.link := by
          have distinct := (List.nodup_cons.mp fresh.distinct).2
          intro same
          exact (List.nodup_cons.mp distinct).1 (same ▸ List.mem_cons_self)
        change Loop.Returns (SListObj.add ..) _ _ at again
        rw [SListObj.add_eq] at again
        refine (SListObj.link_faults holds (List.cons_ne_nil _ _) ?_ _ again).elim
        refine (update_of_ne other ..).trans ?_
        exact fresh.unowned second (List.mem_cons_of_mem _ List.mem_cons_self)
  · intro short
    match ops, fresh, first, short with
    | [], fresh, _, _ =>
        exact ⟨single, [], [], .nil single, ⟨⟨[], fresh.empty, rfl⟩, .nil⟩, .refl _⟩
    | [op], _, first, _ =>
        obtain ⟨next, list, returns, holds⟩ := first op List.mem_cons_self
        refine ⟨_, [()], [op.obj], .cons returns (.nil _), ⟨⟨_, holds, ?_⟩, ?_⟩, .refl _⟩
        · simp
        · exact List.pairwise_singleton _ _

/-- **Sorted insertions of objects.** From a new list a sequence of insertions goes through, and
leaves each object once and in the order of the keys, for at most one insertion: the next one
follows the owner of its link, which is not set yet. -/
theorem sortedObjects_iff (objKey64 : ω → Key64) :
    (∀ (self : DListObj ρ ω) (mList : ρ) (mChain : ω → ρ) (ops : List (DlAdd ρ ω)),
      self.Fresh mList mChain ops →
        ((∃ final outputs objs,
          (DListObj.machine objKey64 mList mChain).Runs self ops final outputs ∧
            final.Ascends objKey64 mList objs ∧ objs.Perm (ops.map DlAdd.obj)) ↔
          ops.length ≤ 1)) ∧
    ∀ (self : SListObj ρ ω) (ops : List (SlAdd ρ ω)), self.Fresh ops →
      ((∃ final outputs objs, (SListObj.machine objKey64).Runs self ops final outputs ∧
        final.Ascends objKey64 objs ∧ objs.Perm (ops.map SlAdd.obj)) ↔ ops.length ≤ 1) :=
  ⟨fun _ _ _ _ => DListObj.runs_iff, fun _ _ => SListObj.runs_iff⟩

end Insertions

/-- Links that lead to themselves, none of which has an owner; object `n` has the link `n`. -/
def unlinkedObjects : DListObj Nat Nat := ⟨⟨some, some⟩, fun _ => none⟩

private theorem unlinkedObjects_fresh {ops : List (DlAdd Nat Nat)}
    (distinct : (0 :: ops.map (DlAdd.link id)).Nodup) : unlinkedObjects.Fresh 0 id ops where
  empty := ⟨List.isChain_pair.mpr ⟨rfl, rfl⟩, List.nodup_singleton 0⟩
  distinct := distinct
  alone := fun _ _ => ⟨List.isChain_pair.mpr ⟨rfl, rfl⟩, List.nodup_singleton _⟩
  unowned := fun _ _ => rfl

/-- The second insertion does not return. -/
theorem sortedObjects_two :
    unlinkedObjects.Fresh 0 id [.sorted 1, .sortedKey64 2] ∧
      ¬ ∃ final outputs objs, (DListObj.machine (BitVec.ofNat 64) 0 id).Runs unlinkedObjects
        [.sorted 1, .sortedKey64 2] final outputs ∧
          final.Ascends (BitVec.ofNat 64) 0 objs ∧ objs.Perm [1, 2] := by
  have fresh : unlinkedObjects.Fresh 0 id [.sorted 1, .sortedKey64 2] :=
    unlinkedObjects_fresh (by decide)
  refine ⟨fresh, ?_⟩
  intro runs
  have short := (DListObj.runs_iff fresh).mp runs
  exact absurd short (by decide)

/-- A single linked list without elements, and links without owners. -/
def unlinkedSingles : SListObj Nat Nat := ⟨fun _ => none, ⟨0, none⟩, fun _ => none⟩

private theorem unlinkedSingles_fresh : unlinkedSingles.Fresh [.sorted 1 1] where
  empty := ⟨⟨rfl, rfl⟩, rfl⟩
  distinct := by decide
  unowned := fun _ _ => rfl

theorem sortedObjects_one :
    (∃ final outputs objs, (DListObj.machine (BitVec.ofNat 64) 0 id).Runs unlinkedObjects
      [.sorted 1] final outputs ∧ final.Ascends (BitVec.ofNat 64) 0 objs ∧ objs.Perm [1]) ∧
    ∃ final outputs objs, (SListObj.machine (BitVec.ofNat 64)).Runs unlinkedSingles
      [.sorted 1 1] final outputs ∧ final.Ascends (BitVec.ofNat 64) objs ∧ objs.Perm [1] := by
  refine ⟨?_, ?_⟩
  · apply ((sortedObjects_iff _).1 _ _ _ _ (unlinkedObjects_fresh (by decide))).mpr
    exact Nat.le_refl 1
  · apply ((sortedObjects_iff _).2 _ _ unlinkedSingles_fresh).mpr
    exact Nat.le_refl 1

end Tvntd
