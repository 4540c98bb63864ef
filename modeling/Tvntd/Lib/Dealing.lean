import Mathlib.Data.Int.CardIntervalMod
import Mathlib.Data.List.Basic

/-! # Lists dealt out in turn

The elements of a list go to some hands one after the other, and from the last
hand to the first again. Every hand gets its elements in the order of the list,
and none gets more than one element more than another.
-/

universe u

namespace Dealing

variable {α : Type u}

/-- The elements a hand gets: those at the places that are its number modulo the hands. -/
def dealt (hands : Nat) (elems : List α) (hand : Nat) : List α :=
  (elems.zipIdx.filter fun e => e.2 % hands = hand).map Prod.fst

@[simp] theorem dealt_nil (hands hand : Nat) : dealt hands ([] : List α) hand = [] := rfl

/-- The last element goes to the hand whose turn it is. -/
theorem dealt_concat (hands : Nat) (elems : List α) (last : α) (hand : Nat) :
    dealt hands (elems ++ [last]) hand =
      if elems.length % hands = hand then dealt hands elems hand ++ [last]
      else dealt hands elems hand := by
  unfold dealt
  rw [List.zipIdx_append, List.filter_append, List.map_append, List.zipIdx_singleton]
  by_cases turn : elems.length % hands = hand
  · simp [turn]
  · simp [turn]

private theorem length_dealt_eq_count (hands : Nat) (elems : List α) (hand : Nat) :
    (dealt hands elems hand).length =
      Nat.count (fun place => place % hands = hand) elems.length := by
  induction elems using List.reverseRecOn with
  | nil => rfl
  | append_singleton elems last ih =>
      rw [dealt_concat, List.length_append, List.length_singleton, Nat.count_succ, ← ih]
      split
      · rw [List.length_append, List.length_singleton]
      · rfl

private theorem length_dealt {hands hand : Nat} (inside : hand < hands) (elems : List α) :
    (dealt hands elems hand).length =
      elems.length / hands + if hand < elems.length % hands then 1 else 0 := by
  have positive : 0 < hands := Nat.lt_of_le_of_lt (Nat.zero_le hand) inside
  have counted := Nat.count_modEq_card elems.length positive hand
  simp only [Nat.ModEq, Nat.mod_eq_of_lt inside] at counted
  rw [length_dealt_eq_count, counted]

/-- No hand gets more than one element more than another. -/
theorem length_dealt_le {hands hand other : Nat} (inside : hand < hands)
    (otherInside : other < hands)
    (elems : List α) : (dealt hands elems hand).length ≤ (dealt hands elems other).length + 1 := by
  rw [length_dealt inside, length_dealt otherInside]
  split
  · omega
  · omega

end Dealing
