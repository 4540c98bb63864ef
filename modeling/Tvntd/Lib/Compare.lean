import Mathlib.Data.List.Sort

/-! # Comparison functions

A comparison gives a negative number, zero or a positive one. Inserting an
element in front of the first greater one of an ascending list keeps it
ascending, and every element that is not greater stays in front of it.
-/

universe u v

variable {α : Type u} {β : Type v}

/-- All values are compared, and not being greater is transitive. -/
structure TotalPreorder (cmp : α → α → Int) : Prop where
  total : ∀ a b, cmp a b ≤ 0 ∨ cmp b a ≤ 0
  trans : ∀ {a b c}, cmp a b ≤ 0 → cmp b c ≤ 0 → cmp a c ≤ 0

/-- Swapping the operands turns the sign, and not being greater is transitive. -/
structure ThreeWay (cmp : α → α → Int) : Prop where
  turned : ∀ a b, cmp a b ≤ 0 ↔ 0 ≤ cmp b a
  trans : ∀ {a b c}, cmp a b ≤ 0 → cmp b c ≤ 0 → cmp a c ≤ 0

/-- No element is greater than one behind it. -/
def Ascending (cmp : α → α → Int) (list : List α) : Prop := list.Pairwise fun a b => cmp a b ≤ 0

instance (cmp : α → α → Int) (list : List α) : Decidable (Ascending cmp list) :=
  inferInstanceAs (Decidable (list.Pairwise fun a b => cmp a b ≤ 0))

/-- The list with the element in front of the first greater one. -/
def insertBefore (cmp : α → α → Int) (elem : α) (list : List α) : List α :=
  list.orderedInsert (fun first second => 0 < cmp second first) elem

/-- The list with the element in front of the first one that is not smaller. -/
def insertAhead (cmp : α → α → Int) (elem : α) (list : List α) : List α :=
  list.orderedInsert (fun first second => cmp first second ≤ 0) elem

/-- The element stands behind those that are not greater and in front of the greater ones, which
keep their order. -/
def Placed (cmp : α → α → Int) (elem : α) (list placed : List α) : Prop :=
  ∃ front back, list = front ++ back ∧ placed = front ++ elem :: back ∧
    (∀ a ∈ front, cmp a elem ≤ 0) ∧ ∀ a ∈ back, 0 < cmp a elem

/-- The order of the images. -/
theorem TotalPreorder.comap {cmp : β → β → Int} (order : TotalPreorder cmp) (f : α → β) :
    TotalPreorder fun a b => cmp (f a) (f b) where
  total := fun a b => order.total (f a) (f b)
  trans := order.trans

variable {cmp : α → α → Int} {elem : α} {list placed : List α}

theorem insertBefore_eq (cmp : α → α → Int) (elem : α) (list : List α) :
    insertBefore cmp elem list =
      list.takeWhile (fun a => cmp a elem ≤ 0) ++
        elem :: list.dropWhile fun a => cmp a elem ≤ 0 := by
  have split := List.orderedInsert_eq_take_drop (fun first second => 0 < cmp second first) elem list
  simpa [insertBefore] using split

theorem Placed.perm (split : Placed cmp elem list placed) : placed.Perm (elem :: list) := by
  obtain ⟨front, back, rfl, rfl, -, -⟩ := split
  exact List.perm_middle

/-- Behind an element of an ascending list that is greater, all are greater. -/
theorem placed_insertBefore (elem : α) (order : TotalPreorder cmp)
    (ascending : Ascending cmp list) :
    Placed cmp elem list (insertBefore cmp elem list) := by
  refine ⟨_, _, (List.takeWhile_append_dropWhile ..).symm, insertBefore_eq cmp elem list, ?_, ?_⟩
  · intro a member
    have kept := @List.all_takeWhile α (fun a => decide (cmp a elem ≤ 0)) list
    exact of_decide_eq_true (List.all_eq_true.mp kept a member)
  · induction list with
    | nil => simp
    | cons first rest ih =>
        obtain ⟨least, later⟩ := List.pairwise_cons.mp ascending
        by_cases greater : 0 < cmp first elem
        · rw [List.dropWhile_cons_of_neg (by simpa using greater)]
          intro a member
          rcases List.mem_cons.mp member with rfl | member
          · exact greater
          · by_contra smaller
            exact absurd (order.trans (least a member) (Int.not_lt.mp smaller)) (by omega)
        · rw [List.dropWhile_cons_of_pos (by simpa using greater)]
          exact ih later

theorem Placed.ascending (order : TotalPreorder cmp) (ascending : Ascending cmp list)
    (split : Placed cmp elem list placed) : Ascending cmp placed := by
  obtain ⟨front, back, rfl, rfl, smaller, greater⟩ := split
  have apart := List.pairwise_append.mp ascending
  have behind : ∀ a ∈ back, cmp elem a ≤ 0 := by
    intro a member
    exact (order.total elem a).resolve_right (by have := greater a member; omega)
  refine List.pairwise_append.mpr ⟨apart.1, List.pairwise_cons.mpr ⟨behind, apart.2.1⟩, ?_⟩
  intro a member b inside
  rcases List.mem_cons.mp inside with rfl | inside
  · exact smaller a member
  · exact apart.2.2 a member b inside

/-- Where the last element is not greater, no element is. -/
theorem Ascending.not_greater_of_last (ascending : Ascending cmp list) (order : TotalPreorder cmp)
    {last : α} (ends : list.getLast? = some last) (smaller : cmp last elem ≤ 0) :
    ∀ a ∈ list, cmp a elem ≤ 0 := by
  obtain ⟨front, rfl⟩ := List.getLast?_eq_some_iff.mp ends
  intro a member
  rcases List.mem_append.mp member with inside | inside
  · exact order.trans ((List.pairwise_append.mp ascending).2.2 a inside last (by simp)) smaller
  · rw [List.mem_singleton.mp inside]
    exact smaller

/-- The order of images depends on the images of the elements only. -/
theorem Ascending.comap_congr {cmp : β → β → Int} {f g : α → β}
    (ascending : Ascending (fun a b => cmp (f a) (f b)) list) (agree : ∀ a ∈ list, g a = f a) :
    Ascending (fun a b => cmp (g a) (g b)) list := by
  refine List.Pairwise.imp_of_mem ?_ ascending
  intro a b first second le
  change cmp (g a) (g b) ≤ 0
  rw [agree a first, agree b second]
  exact le

theorem ThreeWay.totalPreorder (order : ThreeWay cmp) : TotalPreorder cmp where
  total := by
    intro a b
    rw [order.turned b a]
    exact Int.le_total (cmp a b) 0
  trans := order.trans

/-- In front of the first element that is not smaller, the new one keeps the order. -/
theorem Ascending.insertAhead (order : TotalPreorder cmp) (ascending : Ascending cmp list)
    (elem : α) : Ascending cmp (insertAhead cmp elem list) := by
  have total : Std.Total fun a b => cmp a b ≤ 0 := ⟨order.total⟩
  have trans : IsTrans α fun a b => cmp a b ≤ 0 := ⟨fun _ _ _ => order.trans⟩
  exact List.Pairwise.orderedInsert elem list ascending

theorem insertAhead_cons_of_le {first : α} (le : cmp elem first ≤ 0) (rest : List α) :
    insertAhead cmp elem (first :: rest) = elem :: first :: rest := if_pos le

theorem insertAhead_cons_of_gt {first : α} (gt : ¬ cmp elem first ≤ 0) (rest : List α) :
    insertAhead cmp elem (first :: rest) = first :: insertAhead cmp elem rest := if_neg gt

theorem insertAhead_perm (cmp : α → α → Int) (elem : α) (list : List α) :
    (insertAhead cmp elem list).Perm (elem :: list) := List.perm_orderedInsert _ elem list

/-- Where every element is smaller, the new one stands behind all of them. -/
theorem insertAhead_of_smaller (smaller : ∀ a ∈ list, 0 < cmp elem a) :
    insertAhead cmp elem list = list ++ [elem] := by
  induction list with
  | nil => rfl
  | cons first rest ih =>
      have here := smaller first List.mem_cons_self
      rw [insertAhead_cons_of_gt (Int.not_le.mpr here),
        ih fun a member => smaller a (List.mem_cons_of_mem _ member)]
      rfl
