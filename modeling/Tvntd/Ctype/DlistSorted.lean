import Tvntd.Ctype.Dlist

/-! # Sorted insertion into a circular list

`dlist_add_sorted` compares the last element first and appends where that one is
smaller. Otherwise its loop stops in front of the first element that is not
smaller than the new one: the comparison is three-way, so there is one.
-/

namespace Tvntd

namespace Dlinks

open TwoWay

variable {ρ : Type*} [DecidableEq ρ] {mem : Dlinks ρ} {list elm hdr : ρ} {elems rest : List ρ}
  {cmp : ρ → ρ → Int}

/-- The loop from an element on, one of the rest not being smaller than the new element. -/
theorem dlistAddSorted_walk (passed : List ρ) (ring : mem.Ring list (passed ++ rest))
    (off : elm ∉ list :: (passed ++ rest)) (stops : ∃ a ∈ rest, cmp elm a ≤ 0) :
    ∃ after, (dlistAddSorted mem list elm fun a b => some (cmp a b)).Returns
        (some (rest.head?.getD list)) after ∧
      after.Ring list (passed ++ insertAhead cmp elm rest) := by
  induction rest generalizing passed with
  | nil => simp at stops
  | cons cur rest ih =>
      have notHead : cur ≠ list := fun same => ring.notMem (same ▸ List.mem_cons_self)
      by_cases placed : cmp elm cur ≤ 0
      · obtain ⟨after, added, left⟩ := dlistAddBack_ring passed (cur :: rest) ring off
        refine ⟨after, ?_, ?_⟩
        · apply Loop.returns_of_done
          simp only [List.head?_cons, Option.getD_some] at added ⊢
          simp only [dlistAddSorted, notHead, if_false, Option.bind_some, placed, if_true, added,
            Option.map_some]
        · rw [insertAhead_cons_of_le placed]
          exact left
      · have goes : (dlistAddSorted mem list elm fun a b => some (cmp a b)).turn (some cur) =
            some (.inl (some (rest.head?.getD list))) := by
          simp only [dlistAddSorted, notHead, if_false, Option.bind_some, placed,
            ring.joined_behind.1, Option.map_some]
        rw [List.append_cons] at ring off
        have later : ∃ a ∈ rest, cmp elm a ≤ 0 := by
          obtain ⟨a, inside, le⟩ := stops
          rcases List.mem_cons.mp inside with rfl | inside
          · exact absurd le placed
          · exact ⟨a, inside, le⟩
        obtain ⟨after, returns, left⟩ := ih (passed ++ [cur]) ring off later
        refine ⟨after, returns.of_turn goes, ?_⟩
        rw [insertAhead_cons_of_gt placed]
        simpa using left

/-- The new element stands in front of the first one that is not smaller. -/
theorem dlistAddSorted_ring (order : ThreeWay cmp) (ring : mem.Ring list elems)
    (ascending : Ascending cmp elems) (off : elm ∉ list :: elems) :
    ∃ after, (dlistAddSorted mem list elm fun a b => some (cmp a b)).Returns none after ∧
      after.Ring list (insertAhead cmp elm elems) := by
  have entry : (dlistAddSorted mem list elm fun a b => some (cmp a b)).turn none =
      if elems = [] then (dlistAddFront mem list elm).map Sum.inr
      else if 0 ≤ cmp (elems.getLast?.getD list) elm then
        some (.inl (some (elems.head?.getD list)))
      else (dlistAddBack mem list elm).map Sum.inr := by
    simp only [dlistAddSorted, dlistEmpty_iff ring, List.isEmpty_iff, ring.joined_last.2,
      ring.joined_first.1, Option.bind_some, Option.map_some]
  cases ended : elems.getLast? with
  | none =>
      rw [List.getLast?_eq_none_iff] at ended
      subst ended
      obtain ⟨after, added, left⟩ := dlistAddFront_ring [] [] ring off
      rw [if_pos rfl] at entry
      refine ⟨after, Loop.returns_of_done ?_, left⟩
      exact entry.trans (congrArg (Option.map Sum.inr) added)
  | some last =>
      have filled : elems ≠ [] := by
        rintro rfl
        cases ended
      rw [if_neg filled, ended, Option.getD_some] at entry
      by_cases greater : 0 ≤ cmp last elm
      · rw [if_pos greater] at entry
        have stops : ∃ a ∈ elems, cmp elm a ≤ 0 :=
          ⟨last, List.mem_of_getLast? ended, (order.turned elm last).mpr greater⟩
        obtain ⟨after, returns, left⟩ := dlistAddSorted_walk [] ring off stops
        exact ⟨after, returns.of_turn entry, left⟩
      · -- the last element is smaller, and so is every other one
        rw [if_neg greater] at entry
        have smaller : ∀ a ∈ elems, 0 < cmp elm a := by
          intro a inside
          by_contra le
          obtain ⟨front, rfl⟩ := List.getLast?_eq_some_iff.mp ended
          have below : cmp elm last ≤ 0 := by
            rcases List.mem_append.mp inside with inside | same
            · exact order.trans (Int.not_lt.mp le)
                ((List.pairwise_append.mp ascending).2.2 a inside last List.mem_cons_self)
            · rw [List.mem_singleton.mp same] at le
              exact Int.not_lt.mp le
          exact greater ((order.turned elm last).mp below)
        rw [← List.append_nil elems] at ring off
        obtain ⟨after, added, left⟩ := dlistAddBack_ring elems [] ring off
        refine ⟨after, Loop.returns_of_done ?_, ?_⟩
        · exact entry.trans (congrArg (Option.map Sum.inr) added)
        · rw [insertAhead_of_smaller smaller]
          exact left

omit [DecidableEq ρ] in
private theorem inverse_of_rings (ring : mem.Ring hdr elems) (empty : mem.Ring list []) :
    ∀ link ∈ list :: hdr :: elems, mem.Inverse link := by
  intro link member
  rcases List.mem_cons.mp member with rfl | inside
  · exact empty.inverse List.mem_cons_self
  · exact ring.inverse inside

/-- **The operations on circular lists.** Sorted insertion gives an ascending permutation with the
new element; the two merges concatenate in their order and empty the second list; a split leaves
the elements in front and the others, and merging them restores the list; and on all these lists
the two links stay inverse to each other. -/
theorem dlist_operations_right :
    (∀ (mem : Dlinks ρ) (list elm : ρ) (elems : List ρ) (cmp : ρ → ρ → Int), ThreeWay cmp →
      mem.Ring list elems → Ascending cmp elems → elm ∉ list :: elems →
        ∃ after sorted, (dlistAddSorted mem list elm fun a b => some (cmp a b)).Returns none after ∧
          after.Ring list sorted ∧ sorted.Perm (elm :: elems) ∧ Ascending cmp sorted ∧
          ∀ link ∈ list :: sorted, after.Inverse link) ∧
    (∀ (mem : Dlinks ρ) (root list : ρ) (elems others : List ρ), mem.Ring root elems →
      mem.Ring list others → (root :: elems).Disjoint (list :: others) →
        (∃ after, dlistMerge mem root list = some after ∧ after.Ring root (elems ++ others) ∧
          after.Ring list [] ∧ ∀ link ∈ list :: root :: (elems ++ others), after.Inverse link) ∧
        ∃ after, dlistMergeFront mem root list = some after ∧ after.Ring root (others ++ elems) ∧
          after.Ring list [] ∧ ∀ link ∈ list :: root :: (others ++ elems), after.Inverse link) ∧
    ∀ (mem : Dlinks ρ) (hdr ptr res : ρ) (front back : List ρ),
      mem.Ring hdr (front ++ ptr :: back) → mem.Ring res [] →
      res ∉ hdr :: (front ++ ptr :: back) →
        ∃ parted, dlistSplit mem hdr ptr res = some parted ∧ parted.Ring hdr front ∧
          parted.Ring res (ptr :: back) ∧
          (∀ link ∈ res :: hdr :: (front ++ ptr :: back), parted.Inverse link) ∧
          ∃ after, dlistMerge parted hdr res = some after ∧
            after.Ring hdr (front ++ ptr :: back) ∧ after.Ring res [] ∧
            ∀ link ∈ res :: hdr :: (front ++ ptr :: back), after.Inverse link := by
  refine ⟨?_, ?_, ?_⟩
  · intro mem list elm elems cmp order ring ascending off
    obtain ⟨after, returns, left⟩ := dlistAddSorted_ring order ring ascending off
    exact ⟨after, _, returns, left, insertAhead_perm cmp elm elems,
      ascending.insertAhead order.totalPreorder elm, fun _ => left.inverse⟩
  · intro mem root list elems others ring appended apart
    refine ⟨?_, ?_⟩
    · obtain ⟨after, merged, left, emptied⟩ := dlistMerge_ring ring appended apart
      exact ⟨after, merged, left, emptied, inverse_of_rings left emptied⟩
    · obtain ⟨after, merged, left, emptied⟩ := dlistMergeFront_ring ring appended apart
      exact ⟨after, merged, left, emptied, inverse_of_rings left emptied⟩
  · intro mem hdr ptr res front back ring empty off
    obtain ⟨parted, split, left, right⟩ := dlistSplit_ring ring empty off
    have apart : (hdr :: front).Disjoint (res :: ptr :: back) := by
      have distinct := ring.nodup
      rw [← List.cons_append] at distinct
      refine List.disjoint_cons_right.mpr ⟨fun again => off (List.mem_append_left _ again), ?_⟩
      exact fun link first second =>
        (List.nodup_append.mp distinct).2.2 link first link second rfl
    obtain ⟨after, merged, whole, emptied⟩ := dlistMerge_ring left right apart
    refine ⟨parted, split, left, right, ?_, after, merged, whole, emptied,
      inverse_of_rings whole emptied⟩
    intro link member
    have either : link ∈ hdr :: front ∨ link ∈ res :: ptr :: back := by
      simp only [List.mem_cons, List.mem_append] at member ⊢
      tauto
    exact either.elim left.inverse right.inverse

/-- Circular lists with the heads 0, 2 and 6: 1 and 5 are in the first one, 4 in the second. -/
def threeRings : Dlinks Nat where
  next := fun link => [(0, 1), (1, 5), (5, 0), (2, 4), (4, 2), (6, 6)].lookup link
  prev := fun link => [(1, 0), (5, 1), (0, 5), (4, 2), (2, 4), (6, 6)].lookup link

private theorem threeRings_first : threeRings.Ring 0 [1, 5] := by
  refine ⟨?_, by decide⟩
  exact .cons_cons ⟨rfl, rfl⟩ (.cons_cons ⟨rfl, rfl⟩ (List.isChain_pair.mpr ⟨rfl, rfl⟩))

theorem dlist_operations_three :
    (∃ after sorted, (dlistAddSorted threeRings 0 3 fun a b => some ((a : Int) - b)).Returns
        none after ∧ after.Ring 0 sorted ∧ sorted.Perm [3, 1, 5]) ∧
      (∃ after, dlistMerge threeRings 0 2 = some after ∧ after.Ring 0 [1, 5, 4]) ∧
      ∃ parted, dlistSplit threeRings 0 5 6 = some parted ∧ parted.Ring 0 [1] ∧
        parted.Ring 6 [5] := by
  have order : ThreeWay fun a b : Nat => (a : Int) - b := ⟨fun a b => by omega, by intros; omega⟩
  have second : threeRings.Ring 2 [4] :=
    ⟨.cons_cons ⟨rfl, rfl⟩ (List.isChain_pair.mpr ⟨rfl, rfl⟩), by decide⟩
  have empty : threeRings.Ring 6 [] := ⟨List.isChain_pair.mpr ⟨rfl, rfl⟩, by decide⟩
  obtain ⟨sort, merge, split⟩ := dlist_operations_right (ρ := Nat)
  refine ⟨?_, ?_, ?_⟩
  · obtain ⟨after, sorted, returns, ring, perm, -⟩ := sort threeRings 0 3 [1, 5] _ order
      threeRings_first (by decide) (by decide)
    exact ⟨after, sorted, returns, ring, perm⟩
  · obtain ⟨⟨after, merged, ring, -⟩, -⟩ := merge threeRings 0 2 [1, 5] [4] threeRings_first
      second (List.disjoint_left.mpr (by decide))
    exact ⟨after, merged, ring⟩
  · obtain ⟨parted, ran, first, ring, -⟩ := split threeRings 0 5 6 [1] [] threeRings_first
      empty (by decide)
    exact ⟨parted, ran, first, ring⟩

end Dlinks

end Tvntd
