import Mathlib.Data.List.Basic
import Mathlib.Data.List.Perm.Basic

/-! # Selected elements of a list

A predicate cuts a list into runs of selected elements, each in front of an
element that is not selected, and one more at the end.
-/

universe u

namespace Selection

variable {α : Type u} {sel : α → Bool} {elm : α} {ahead : Nat} {rest list : List α}

/-- The elements that are not selected, each with the number of selected ones right in front of it.
`ahead` more are in front of the list. -/
def gaps (sel : α → Bool) : Nat → List α → List (α × Nat)
  | _, [] => []
  | ahead, elm :: rest =>
      if sel elm then gaps sel (ahead + 1) rest else (elm, ahead) :: gaps sel 0 rest

/-- The number of selected elements at the end. -/
def trailing (sel : α → Bool) : Nat → List α → Nat
  | ahead, [] => ahead
  | ahead, elm :: rest => trailing sel (if sel elm then ahead + 1 else 0) rest

theorem gaps_selected (selected : sel elm = true) :
    gaps sel ahead (elm :: rest) = gaps sel (ahead + 1) rest := by rw [gaps, if_pos selected]

theorem gaps_kept (kept : sel elm = false) :
    gaps sel ahead (elm :: rest) = (elm, ahead) :: gaps sel 0 rest := by
  rw [gaps, if_neg (Bool.not_eq_true _ ▸ kept)]

theorem trailing_selected (selected : sel elm = true) :
    trailing sel ahead (elm :: rest) = trailing sel (ahead + 1) rest := by
  rw [trailing, if_pos selected]

theorem trailing_kept (kept : sel elm = false) :
    trailing sel ahead (elm :: rest) = trailing sel 0 rest := by
  rw [trailing, if_neg (Bool.not_eq_true _ ▸ kept)]

/-- The gaps end at the elements that are not selected, in order. -/
theorem map_gaps (sel : α → Bool) (ahead : Nat) (list : List α) :
    (gaps sel ahead list).map Prod.fst = list.filter fun elm => !sel elm := by
  induction list generalizing ahead with
  | nil => rfl
  | cons elm rest ih =>
      cases selected : sel elm with
      | true => rw [gaps_selected selected, ih, List.filter_cons_of_neg (by simp [selected])]
      | false =>
          rw [gaps_kept selected, List.map_cons, ih, List.filter_cons_of_pos (by simp [selected])]

/-- Nothing is selected where all runs are empty. -/
theorem none_selected_iff (sel : α → Bool) (ahead : Nat) (list : List α) :
    ((∀ gap ∈ gaps sel ahead list, gap.2 = 0) ∧ trailing sel ahead list = 0) ↔
      ahead = 0 ∧ ∀ elm ∈ list, sel elm = false := by
  induction list generalizing ahead with
  | nil => simp [gaps, trailing]
  | cons elm rest ih =>
      cases selected : sel elm with
      | true =>
          rw [gaps_selected selected, trailing_selected selected, ih]
          simp [selected]
      | false =>
          have later := ih 0
          rw [gaps_kept selected, trailing_kept selected, List.forall_mem_cons,
            List.forall_mem_cons, and_assoc, later]
          simp [selected]

/-- Copies of distinct elements are those elements once if and only if each is copied once. -/
theorem replicate_perm_iff (copies : α × Nat → Nat) : ∀ {items : List (α × Nat)},
    (items.map Prod.fst).Nodup →
      ((items.flatMap fun item => List.replicate (copies item) item.1).Perm
        (items.map Prod.fst) ↔ ∀ item ∈ items, copies item = 1) := by
  classical
  intro items
  induction items with
  | nil => simp
  | cons item rest ih =>
      intro distinct
      rw [List.map_cons, List.nodup_cons] at distinct
      have later := ih distinct.2
      have absent : item.1 ∉ rest.flatMap fun item => List.replicate (copies item) item.1 := by
        intro member
        obtain ⟨other, among, copied⟩ := List.mem_flatMap.mp member
        rw [List.eq_of_mem_replicate copied] at distinct
        exact distinct.1 (List.mem_map_of_mem among)
      rw [List.flatMap_cons, List.map_cons, List.forall_mem_cons]
      constructor
      · intro same
        have once : copies item = 1 := by
          have counted := same.count_eq item.1
          rw [List.count_append, List.count_replicate_self, List.count_eq_zero_of_not_mem absent,
            List.count_cons_self, List.count_eq_zero_of_not_mem distinct.1] at counted
          exact counted
        rw [once, List.replicate_one, List.singleton_append] at same
        exact ⟨once, later.mp same.cons_inv⟩
      · rintro ⟨once, others⟩
        rw [once, List.replicate_one, List.singleton_append]
        exact (later.mpr others).cons _

end Selection
