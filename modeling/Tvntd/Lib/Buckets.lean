import Mathlib.Data.List.Nodup
import Mathlib.Data.List.Range
import Mathlib.Logic.Function.Basic

/-! # Arrays of lists

A family of lists of which the first `size` count. A walk through it is *ready*
for bucket `k` when it stands at the first bucket from `k` on that has elements,
or has ended because there is none; that does not change when an empty bucket is
passed over.
-/

universe u

namespace Buckets

open Function

variable {α : Type u} {size k : Nat} {lists other : Nat → List α} {at_ : Option Nat}

/-- The elements, bucket by bucket. -/
def elements (size : Nat) (lists : Nat → List α) : List α := (List.range size).flatMap lists

theorem mem_elements {elm : α} : elm ∈ elements size lists ↔ ∃ i < size, elm ∈ lists i := by
  simp [elements, List.mem_flatMap]

theorem elements_congr (same : ∀ i < size, other i = lists i) :
    elements size other = elements size lists :=
  List.flatMap_congr fun i member => same i (List.mem_range.mp member)

theorem elements_succ (size : Nat) (lists : Nat → List α) :
    elements (size + 1) lists = elements size lists ++ lists size := by
  simp [elements, List.range_succ]

/-- Fewer elements in each bucket. -/
theorem elements_sublist (fewer : ∀ i < size, (other i).Sublist (lists i)) :
    (elements size other).Sublist (elements size lists) := by
  induction size with
  | zero => exact List.Sublist.refl _
  | succ size ih =>
      rw [elements_succ, elements_succ]
      exact (ih fun i inside => fewer i (by omega)).append (fewer size (Nat.lt_succ_self size))

/-- Where no element is twice in the buckets, no two buckets share one. -/
theorem disjoint_of_nodup (nodup : (elements size lists).Nodup) {i j : Nat} (first : i < j)
    (inside : j < size) : (lists i).Disjoint (lists j) := by
  have apart := List.pairwise_iff_getElem.mp (List.nodup_flatMap.mp nodup).2 i j
    (by simp only [List.length_range]; omega) (by simpa using inside) first
  simpa [Function.onFun] using apart

theorem eq_of_nodup (nodup : (elements size lists).Nodup) {i j : Nat} {elm : α} (inside : i < size)
    (bounded : j < size) (here : elm ∈ lists i) (there : elm ∈ lists j) : i = j := by
  rcases Nat.lt_trichotomy i j with before | same | behind
  · exact absurd there (disjoint_of_nodup nodup before bounded here)
  · exact same
  · exact absurd here (disjoint_of_nodup nodup behind inside there)

theorem nodup_of_elements (nodup : (elements size lists).Nodup) {i : Nat} (inside : i < size) :
    (lists i).Nodup := (List.nodup_flatMap.mp nodup).1 i (List.mem_range.mpr inside)

/-- Another list in one bucket, counted. -/
theorem length_elements_update (inside : k < size) (lists : Nat → List α) (list : List α) :
    (elements size (update lists k list)).length + (lists k).length =
      (elements size lists).length + list.length := by
  induction size with
  | zero => exact absurd inside (Nat.not_lt_zero k)
  | succ size ih =>
      rw [elements_succ, elements_succ, List.length_append, List.length_append]
      by_cases last : k = size
      · subst last
        have before : elements k (update lists k list) = elements k lists :=
          elements_congr fun i earlier => update_of_ne (Nat.ne_of_lt earlier) _ _
        rw [before, update_self]
        omega
      · have earlier := ih (by omega)
        rw [update_of_ne (Ne.symm last)]
        omega

/-- A filter that keeps the number of elements keeps all of them. -/
theorem length_elements_filter_iff (size : Nat) (lists : Nat → List α) (keep : Nat → α → Bool) :
    (elements size fun i => (lists i).filter (keep i)).length = (elements size lists).length ↔
      ∀ i < size, ∀ elm ∈ lists i, keep i elm = true := by
  induction size with
  | zero => simp [elements]
  | succ size ih =>
      rw [elements_succ, elements_succ, List.length_append, List.length_append,
        Nat.forall_lt_succ_right, ← ih, ← List.length_filter_eq_length_iff]
      have before := (elements_sublist fun i (_ : i < size) =>
        List.filter_sublist (p := keep i) (l := lists i)).length_le
      have last := List.length_filter_le (keep size) (lists size)
      omega

/-- The bucket is the first one from `k` on with elements; `none` when there is none. -/
def Ready (size : Nat) (lists : Nat → List α) (k : Nat) (at_ : Option Nat) : Prop :=
  match at_ with
  | none => ∀ i, k ≤ i → i < size → lists i = []
  | some j => (k ≤ j ∧ j < size) ∧ (∀ i, k ≤ i → i < j → lists i = []) ∧ lists j ≠ []

theorem ready_none : Ready size lists size none :=
  fun _ least inside => absurd inside (Nat.not_lt.mpr least)

theorem ready_self (inside : k < size) (linked : lists k ≠ []) : Ready size lists k (some k) :=
  ⟨⟨Nat.le_refl k, inside⟩, fun _ least before => absurd before (Nat.not_lt.mpr least), linked⟩

/-- An empty bucket is passed over. -/
theorem ready_succ_iff (empty : lists k = []) :
    Ready size lists (k + 1) at_ ↔ Ready size lists k at_ := by
  have here : ∀ {i}, k ≤ i → i = k ∨ k + 1 ≤ i := by omega
  cases at_ with
  | none =>
      constructor
      · intro ready i least inside
        rcases here least with rfl | later
        · exact empty
        · exact ready i later inside
      · exact fun ready i later inside => ready i (Nat.le_of_succ_le later) inside
  | some j =>
      constructor
      · rintro ⟨⟨later, inside⟩, before, linked⟩
        refine ⟨⟨Nat.le_of_succ_le later, inside⟩, ?_, linked⟩
        intro i least earlier
        rcases here least with rfl | next
        · exact empty
        · exact before i next earlier
      · rintro ⟨⟨least, inside⟩, before, linked⟩
        have later : k + 1 ≤ j := (here least).resolve_left fun same => linked (same ▸ empty)
        exact ⟨⟨later, inside⟩, fun i next => before i (Nat.le_of_succ_le next), linked⟩

/-- A walk that is ready for a bucket with elements stands there. -/
theorem Ready.eq_some (ready : Ready size lists k at_) (inside : k < size)
    (linked : lists k ≠ []) : at_ = some k := by
  cases at_ with
  | none => exact absurd (ready k (Nat.le_refl k) inside) linked
  | some j =>
      obtain ⟨⟨least, -⟩, before, -⟩ := ready
      by_contra other
      have less := Nat.lt_of_le_of_ne least fun same => other (same ▸ rfl)
      exact linked (before k (Nat.le_refl k) less)

/-- A walk that is ready behind the last bucket has ended. -/
theorem Ready.eq_none (ready : Ready size lists size at_) : at_ = none := by
  cases at_ with
  | none => rfl
  | some j =>
      obtain ⟨⟨least, inside⟩, -⟩ := ready
      exact absurd inside (Nat.not_lt.mpr least)

/-- The lists with the buckets from `k` on filtered. -/
def filteredFrom (keep : α → Bool) (lists : Nat → List α) (k : Nat) : Nat → List α :=
  fun i => if k ≤ i then (lists i).filter keep else lists i

theorem filteredFrom_succ (keep : α → Bool) (lists : Nat → List α) (k : Nat) :
    filteredFrom keep (update lists k ((lists k).filter keep)) (k + 1) =
      filteredFrom keep lists k := by
  funext i
  unfold filteredFrom
  rcases Nat.lt_trichotomy i k with before | rfl | later
  · rw [if_neg (by omega), if_neg (by omega), update_of_ne (by omega)]
  · rw [if_neg (by omega), if_pos (Nat.le_refl i), update_self]
  · rw [if_pos (by omega), if_pos (by omega), update_of_ne (by omega)]

end Buckets
