import Mathlib.Data.List.Lex
import Mathlib.Data.List.TakeWhile
import Mathlib.Tactic.Common

/-! # Iteration from a key

An iterator of an ordered map stands at an entry and goes on in the order of the
keys. Its seek to a key leaves the entries from the first key on that is not
less.
-/

namespace OrderedMap

variable {κ ν : Type} [Ord κ] [Std.TransOrd κ]

/-- The entries that an iterator visits after its seek. -/
def seek (map : Std.ExtTreeMap κ ν) (key : κ) : List (κ × ν) :=
  map.toList.dropWhile fun entry => (compare entry.1 key).isLT

private theorem isLE_of_not_isLT {key first : κ} (ahead : ¬ (compare first key).isLT = true) :
    (compare key first).isLE := by
  have swapped : compare key first = (compare first key).swap := Std.OrientedCmp.eq_swap
  rw [swapped]
  cases order : compare first key with
  | lt =>
      rw [order] at ahead
      exact absurd rfl ahead
  | eq => rfl
  | gt => rfl

theorem ne_of_compare_lt {key other : κ} (before : compare key other = .lt) : key ≠ other := by
  rintro rfl
  have here : compare key key = .eq := Std.ReflCmp.compare_self
  rw [here] at before
  cases before

theorem seek_ordered (map : Std.ExtTreeMap κ ν) (key : κ) :
    (seek map key).Pairwise fun left right => compare left.1 right.1 = .lt :=
  Std.ExtTreeMap.ordered_keys_toList.sublist (List.dropWhile_sublist _)

theorem isLE_of_mem_seek {map : Std.ExtTreeMap κ ν} {key : κ} {entry : κ × ν}
    (inside : entry ∈ seek map key) : (compare key entry.1).isLE := by
  have ordered := seek_ordered map key
  have ahead : ∀ first ∈ (seek map key).head?, ¬ (compare first.1 key).isLT = true := by
    intro first here
    have stopped := List.head?_dropWhile_not
      (fun entry : κ × ν => (compare entry.1 key).isLT) map.toList
    rw [show (map.toList.dropWhile _).head? = some first from here] at stopped
    exact Bool.eq_false_iff.mp stopped
  cases visited : seek map key with
  | nil =>
      rw [visited] at inside
      cases inside
  | cons first rest =>
      rw [visited] at inside ordered ahead
      have start : (compare key first.1).isLE := isLE_of_not_isLT (ahead first rfl)
      rcases List.mem_cons.mp inside with rfl | later
      · exact start
      · have beyond : compare key entry.1 = .lt :=
          Std.TransCmp.lt_of_isLE_of_lt start ((List.pairwise_cons.mp ordered).1 entry later)
        rw [beyond]
        rfl

variable [Std.LawfulEqOrd κ]

theorem getElem?_of_mem_seek {map : Std.ExtTreeMap κ ν} {key : κ} {entry : κ × ν}
    (inside : entry ∈ seek map key) : map[entry.1]? = some entry.2 :=
  Std.ExtTreeMap.mem_toList_iff_getElem?_eq_some.mp ((List.dropWhile_suffix _).subset inside)

/-- An iterator visits every entry that does not lie before the key. -/
theorem mem_seek_of_isLE {map : Std.ExtTreeMap κ ν} {key : κ} {entry : κ × ν}
    (held : map[entry.1]? = some entry.2) (ahead : (compare key entry.1).isLE) :
    entry ∈ seek map key := by
  have inside : entry ∈ map.toList := Std.ExtTreeMap.mem_toList_iff_getElem?_eq_some.mpr held
  rw [← @List.takeWhile_append_dropWhile _ (fun entry : κ × ν => (compare entry.1 key).isLT)
    map.toList] at inside
  rcases List.mem_append.mp inside with early | visited
  · have before : (compare entry.1 key).isLT := by
      simpa using List.mem_takeWhile_imp early
    have swapped : compare key entry.1 = (compare entry.1 key).swap := Std.OrientedCmp.eq_swap
    rw [swapped] at ahead
    cases order : compare entry.1 key with
    | lt =>
        rw [order] at ahead
        cases ahead
    | eq =>
        rw [order] at before
        cases before
    | gt =>
        rw [order] at before
        cases before
  · exact visited

/-- A seek to a present key stands at its entry, and goes on beyond it. -/
theorem seek_of_present {map : Std.ExtTreeMap κ ν} {key : κ} {value : ν}
    (present : map[key]? = some value) :
    ∃ rest, seek map key = (key, value) :: rest ∧
      ∀ entry ∈ rest, compare key entry.1 = .lt ∧ map[entry.1]? = some entry.2 := by
  have inside : (key, value) ∈ map.toList :=
    Std.ExtTreeMap.mem_toList_iff_getElem?_eq_some.mpr present
  obtain ⟨front, rest, parts⟩ := List.append_of_mem inside
  have ordered : (front ++ (key, value) :: rest).Pairwise
      fun left right => compare left.1 right.1 = .lt :=
    parts ▸ Std.ExtTreeMap.ordered_keys_toList
  rw [List.pairwise_append, List.pairwise_cons] at ordered
  obtain ⟨-, ⟨beyond, -⟩, crossing⟩ := ordered
  have passed : ∀ entry ∈ front, (compare entry.1 key).isLT = true := by
    intro entry early
    rw [crossing entry early (key, value) List.mem_cons_self]
    rfl
  have stands : seek map key = (key, value) :: rest := by
    have here : compare key key = .eq := Std.ReflCmp.compare_self
    rw [seek, parts, List.dropWhile_append_of_pos passed, List.dropWhile_cons_of_neg]
    rw [here]
    exact Bool.false_ne_true
  refine ⟨rest, stands, fun entry later => ⟨beyond entry later, ?_⟩⟩
  have visited : entry ∈ seek map key := stands ▸ List.mem_cons_of_mem _ later
  exact getElem?_of_mem_seek visited

/-- A seek to an absent key stands beyond it. -/
theorem lt_of_mem_seek_of_absent {map : Std.ExtTreeMap κ ν} {key : κ} {entry : κ × ν}
    (absent : map[key]? = none) (inside : entry ∈ seek map key) :
    compare key entry.1 = .lt := by
  have behind := isLE_of_mem_seek inside
  cases order : compare key entry.1 with
  | lt => rfl
  | gt =>
      rw [order] at behind
      cases behind
  | eq =>
      rw [Std.LawfulEqCmp.eq_of_compare order, getElem?_of_mem_seek inside] at absent
      cases absent

theorem getElem?_insert_ne {map : Std.ExtTreeMap κ ν} {key other : κ} (apart : key ≠ other)
    (value : ν) : (map.insert key value)[other]? = map[other]? := by
  rw [Std.ExtTreeMap.getElem?_insert, if_neg]
  exact fun same => apart (Std.LawfulEqCmp.eq_of_compare same)

theorem getElem?_erase_ne {map : Std.ExtTreeMap κ ν} {key other : κ} (apart : key ≠ other) :
    (map.erase key)[other]? = map[other]? := by
  rw [Std.ExtTreeMap.getElem?_erase, if_neg]
  exact fun same => apart (Std.LawfulEqCmp.eq_of_compare same)

end OrderedMap
