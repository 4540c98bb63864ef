import Tvntd.Front.SortedArray

/-! # Sorting by date

`compareByDate` of `ArticleSort` subtracts dates, and what is undefined has no
difference that is a number. An array stays sorted by insertions as long as all
that is in it has a date, and for a single element none is needed.
-/

namespace Tvntd.ArticleSort

open SortedArray

variable {Elm : Type} (createdDate : Elm → Option Int)

/-- `compareByDate`; `none` is not a number. -/
def compareByDate (anchor elm : Elm) : Option Int :=
  match createdDate elm, createdDate anchor with
  | some elm, some anchor => some (elm - anchor)
  | _, _ => none

/-- What is not a number is neither `cmp <= -1` nor `cmp >= 1`, like zero. -/
def compareFn : Option Elm → Elm → Int
  | none, _ => 0
  | some anchor, elm => (compareByDate createdDate anchor elm).getD 0

/-- `compareByDate(anchor, elm) <= 0` of all elements and those behind them. -/
def SortedByDate (list : List Elm) : Prop :=
  list.Pairwise fun anchor elm => (compareByDate createdDate anchor elm).any (· ≤ 0)

instance (list : List Elm) : Decidable (SortedByDate createdDate list) :=
  inferInstanceAs (Decidable (list.Pairwise _))

/-- Any two elements have dates. -/
def Dated (list : List Elm) : Prop :=
  list.Pairwise fun first second => (createdDate first).isSome ∧ (createdDate second).isSome

instance (list : List Elm) : Decidable (Dated createdDate list) :=
  inferInstanceAs (Decidable (list.Pairwise _))

variable {createdDate} {elm : Elm} {list after : List Elm}

private theorem any_compareByDate_iff {anchor : Elm} :
    (compareByDate createdDate anchor elm).any (· ≤ 0) ↔
      ∃ later earlier, createdDate anchor = some later ∧ createdDate elm = some earlier ∧
        earlier ≤ later := by
  unfold compareByDate
  split
  case h_1 earlier later there here =>
    simp only [Option.any_some, decide_eq_true_eq, here, there, Option.some.injEq]
    constructor
    · intro less
      exact ⟨later, earlier, rfl, rfl, by omega⟩
    · rintro ⟨_, _, rfl, rfl, less⟩
      omega
  case h_2 undefined =>
    refine iff_of_false nofun ?_
    rintro ⟨later, earlier, here, there, -⟩
    exact undefined earlier later there here

theorem SortedByDate.dated (sorted : SortedByDate createdDate list) : Dated createdDate list := by
  refine sorted.imp fun less => ?_
  obtain ⟨later, earlier, here, there, -⟩ := any_compareByDate_iff.mp less
  rw [here, there]
  exact ⟨rfl, rfl⟩

theorem Dated.perm (dated : Dated createdDate list) (perm : after.Perm list) :
    Dated createdDate after :=
  (perm.pairwise_iff fun both => both.symm).mpr dated

/-- The difference of dates, with zero for those that are undefined. -/
def total (createdDate : Elm → Option Int) : Option Elm → Elm → Int
  | none, _ => 0
  | some anchor, elm => (createdDate elm).getD 0 - (createdDate anchor).getD 0

private theorem threeWay_total : ThreeWay (SortedArray.order (total createdDate)) where
  turned := by
    intro first second
    simp only [SortedArray.order, total]
    omega
  trans := by
    intro first second third
    simp only [SortedArray.order, total]
    omega

private theorem total_eq_compareFn {anchor : Elm} (here : (createdDate anchor).isSome)
    (there : (createdDate elm).isSome) :
    total createdDate (some anchor) elm = compareFn createdDate (some anchor) elm := by
  obtain ⟨later, here⟩ := Option.isSome_iff_exists.mp here
  obtain ⟨earlier, there⟩ := Option.isSome_iff_exists.mp there
  simp only [total, compareFn, compareByDate, here, there, Option.getD_some]

/-- An insertion keeps an array sorted if there are dates to compare. -/
theorem SortedByDate.insertSorted (sorted : SortedByDate createdDate list)
    (dated : Dated createdDate (elm :: list))
    (inserted : insertSorted (compareFn createdDate) elm list = some after) :
    SortedByDate createdDate after := by
  have perm := insertSorted_perm inserted
  have dates := dated.perm perm
  have same : SortedArray.insertSorted (total createdDate) elm list =
      SortedArray.insertSorted (compareFn createdDate) elm list := by
    refine insertSorted_congr rfl fun pivot inside => ?_
    obtain ⟨here, there⟩ := (List.pairwise_cons.mp dated).1 pivot inside
    exact total_eq_compareFn there here
  have ascending : Ascending (SortedArray.order (total createdDate)) list := by
    refine sorted.imp fun less => ?_
    obtain ⟨later, earlier, here, there, less⟩ := any_compareByDate_iff.mp less
    simp only [SortedArray.order, total, here, there, Option.getD_some]
    omega
  have ordered := insertSorted_ascending threeWay_total ascending (same.trans inserted)
  refine List.Pairwise.imp₂ ?_ ordered dates
  rintro anchor elm less ⟨here, there⟩
  obtain ⟨later, here⟩ := Option.isSome_iff_exists.mp here
  obtain ⟨earlier, there⟩ := Option.isSome_iff_exists.mp there
  simp only [SortedArray.order, total, here, there, Option.getD_some] at less
  exact any_compareByDate_iff.mpr ⟨later, earlier, here, there, by omega⟩

end Tvntd.ArticleSort
