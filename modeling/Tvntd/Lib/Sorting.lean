import Tvntd.Lib.Compare

/-! # Stable sorting

A sorted list has the elements of the list it comes from, and elements that
compare equal stay in their order. Whether it is ascending in another order as
well can be told from the pairs of the unsorted list.
-/

universe u

variable {α : Type u}

/-- The elements of the list are compared in three ways. -/
def ThreeWayOn (cmp : α → α → Int) (list : List α) : Prop :=
  ThreeWay fun a b : {a // a ∈ list} => cmp a b

structure StableSort (cmp : α → α → Int) (list sorted : List α) : Prop where
  perm : sorted.Perm list
  ascending : Ascending cmp sorted
  stable : ∀ a b, [a, b].Sublist list → cmp a b = 0 → [a, b].Sublist sorted

/-- A comparison never puts the greater one of two elements in front. -/
def Agrees (cmp : α → α → Int) (le : α → α → Prop) (a b : α) : Prop :=
  (cmp a b ≤ 0 → le a b) ∧ (0 < cmp a b → le b a)

instance (cmp : α → α → Int) (le : α → α → Prop) [∀ a b, Decidable (le a b)] (a b : α) :
    Decidable (Agrees cmp le a b) := inferInstanceAs (Decidable (_ ∧ _))

variable {cmp : α → α → Int} {list sorted : List α}

theorem ThreeWayOn.turned (order : ThreeWayOn cmp list) {a b : α} (left : a ∈ list)
    (right : b ∈ list) : cmp a b ≤ 0 ↔ 0 ≤ cmp b a :=
  ThreeWay.turned order ⟨a, left⟩ ⟨b, right⟩

theorem threeWayOn_nil (cmp : α → α → Int) : ThreeWayOn cmp [] where
  turned := fun a => absurd a.2 List.not_mem_nil
  trans := fun {a} => absurd a.2 List.not_mem_nil

/-- Three ways of comparing depend on the elements of the list only. -/
theorem ThreeWayOn.congr {other : α → α → Int} (order : ThreeWayOn cmp list)
    (same : ∀ a ∈ list, ∀ b ∈ list, other a b = cmp a b) : ThreeWayOn other list := by
  have equal : (fun a b : {a // a ∈ list} => other a b) = fun a b => cmp a.1 b.1 := by
    funext a b
    exact same a a.2 b b.2
  rw [ThreeWayOn, equal]
  exact order

/-- Sorting depends on how the elements of the list are compared. -/
theorem StableSort.congr {other : α → α → Int} (sort : StableSort cmp list sorted)
    (same : ∀ a ∈ list, ∀ b ∈ list, other a b = cmp a b) : StableSort other list sorted := by
  obtain ⟨perm, ascending, stable⟩ := sort
  refine ⟨perm, ?_, ?_⟩
  · refine List.Pairwise.imp_of_mem (fun {a b} left right le => ?_) ascending
    rw [same a (perm.mem_iff.mp left) b (perm.mem_iff.mp right)]
    exact le
  · intro a b front equal
    rw [same a (front.subset (by simp)) b (front.subset (by simp))] at equal
    exact stable a b front equal

/-- Merge sort is stable. -/
theorem stableSort_mergeSort (order : ThreeWayOn cmp list) :
    StableSort cmp list (list.mergeSort fun a b => decide (cmp a b ≤ 0)) := by
  let le : {a // a ∈ list} → {a // a ∈ list} → Bool := fun a b => decide (cmp a b ≤ 0)
  have trans : ∀ a b c, le a b = true → le b c = true → le a c = true := by
    intro a b c first second
    exact decide_eq_true (ThreeWay.trans order (of_decide_eq_true first) (of_decide_eq_true second))
  have total : ∀ a b, (le a b || le b a) = true := by
    intro a b
    rcases (ThreeWay.totalPreorder order).total a b with first | second
    · exact Bool.or_eq_true_iff.mpr (Or.inl (decide_eq_true first))
    · exact Bool.or_eq_true_iff.mpr (Or.inr (decide_eq_true second))
  have image : (list.attach.mergeSort le).map Subtype.val =
      list.mergeSort fun a b => decide (cmp a b ≤ 0) := by
    have moved := List.map_mergeSort (r := le) (s := fun a b => decide (cmp a b ≤ 0))
      (f := Subtype.val) (l := list.attach) fun a _ b _ => rfl
    rw [moved, List.attach_map_subtype_val]
  refine ⟨List.mergeSort_perm _ _, ?_, ?_⟩
  · rw [Ascending, ← image, List.pairwise_map]
    exact (List.pairwise_mergeSort trans total list.attach).imp of_decide_eq_true
  · intro a b front equal
    rw [← List.attach_map_subtype_val list] at front
    obtain ⟨pair, kept, same⟩ := List.sublist_map_iff.mp front
    obtain ⟨first, rest, rfl, rfl, more⟩ := List.map_eq_cons_iff.mp same.symm
    obtain ⟨second, last, rfl, rfl, done⟩ := List.map_eq_cons_iff.mp more
    obtain rfl := List.map_eq_nil_iff.mp done
    have moved := (List.pair_sublist_mergeSort trans total
      (decide_eq_true (Int.le_of_eq equal)) kept).map Subtype.val
    rw [image] at moved
    exact moved

private theorem pair_sublist_or {a b : α} (left : a ∈ list) (right : b ∈ list) (apart : a ≠ b) :
    [a, b].Sublist list ∨ [b, a].Sublist list := by
  induction list with
  | nil => cases left
  | cons first rest ih =>
      rcases List.mem_cons.mp left with rfl | inside
      · have later := (List.mem_cons.mp right).resolve_left (Ne.symm apart)
        exact Or.inl ((List.singleton_sublist.mpr later).cons_cons a)
      · rcases List.mem_cons.mp right with rfl | within
        · exact Or.inr ((List.singleton_sublist.mpr inside).cons_cons b)
        · exact (ih inside within).imp (fun front => front.cons first) fun front => front.cons first

private theorem not_pair_sublist {a b : α} (nodup : list.Nodup) (front : [a, b].Sublist list) :
    ¬ [b, a].Sublist list := by
  classical
  have early : list.Pairwise fun a b => list.idxOf a < list.idxOf b := by
    rw [List.pairwise_iff_getElem]
    intro first second inside within less
    rw [nodup.idxOf_getElem, nodup.idxOf_getElem]
    exact less
  intro behind
  exact Nat.lt_asymm (List.pairwise_iff_forall_sublist.mp early front)
    (List.pairwise_iff_forall_sublist.mp early behind)

/-- **Sorted another way.** -/
theorem StableSort.pairwise_iff {le : α → α → Prop} (sort : StableSort cmp list sorted)
    (order : ThreeWayOn cmp list) (nodup : list.Nodup) :
    sorted.Pairwise le ↔ list.Pairwise (Agrees cmp le) := by
  have still : sorted.Nodup := sort.perm.nodup_iff.mpr nodup
  have ascending : ∀ {a b}, [a, b].Sublist sorted → cmp a b ≤ 0 :=
    List.pairwise_iff_forall_sublist.mp sort.ascending
  rw [List.pairwise_iff_forall_sublist, List.pairwise_iff_forall_sublist]
  constructor
  · intro right a b front
    have left : a ∈ list := front.subset (by simp)
    have other : b ∈ list := front.subset (by simp)
    have apart : a ≠ b := by simpa using nodup.sublist front
    have placed := pair_sublist_or (sort.perm.mem_iff.mpr left) (sort.perm.mem_iff.mpr other) apart
    constructor
    · intro le
      rcases placed with front' | behind
      · exact right front'
      · have ge := (order.turned other left).mp (ascending behind)
        exact right (sort.stable a b front (Int.le_antisymm le ge))
    · intro greater
      rcases placed with front' | behind
      · exact absurd (ascending front') (Int.not_le.mpr greater)
      · exact right behind
  · intro agrees a b front
    have left : a ∈ list := sort.perm.mem_iff.mp (front.subset (by simp))
    have other : b ∈ list := sort.perm.mem_iff.mp (front.subset (by simp))
    have apart : a ≠ b := by simpa using still.sublist front
    have le := ascending front
    rcases pair_sublist_or left other apart with before | behind
    · exact (agrees before).1 le
    · have ge := (order.turned left other).mp le
      have apart : cmp b a ≠ 0 := fun equal =>
        not_pair_sublist still front (sort.stable b a behind equal)
      exact (agrees behind).2 (by omega)

/-- Lists of the same elements are equal if their images are, which tell the elements apart. -/
theorem eq_of_map_eq {β : Type*} {f : α → β} {arranged : List α} (apart : (sorted.map f).Nodup)
    (perm : arranged.Perm sorted) (same : arranged.map f = sorted.map f) : arranged = sorted := by
  refine List.ext_getElem perm.length_eq fun position inside within => ?_
  have images : f arranged[position] = f sorted[position] := by
    have both := congrArg (fun images => images[position]?) same
    simpa [inside, within] using both
  exact List.inj_on_of_nodup_map apart (perm.mem_iff.mp (List.getElem_mem inside))
    (List.getElem_mem within) images
