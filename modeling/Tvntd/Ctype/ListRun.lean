import Mathlib.Data.List.TakeWhile
import Tvntd.Lib.Compare
import Tvntd.Lib.Transition
import Tvntd.Ctype.List

/-! # Lists as sequences

`slist_insert_front`, `slist_insert_back`, `slist_rm_front` and the two sorted
insertions keep a list well formed, and what they do to it is what they say of
the sequence of its elements. The sorted insertion compares with the tail first;
on an ascending list that comparison decides for all elements.
-/

namespace Tvntd

open LinkedCells Function

variable {ρ δ : Type*} [DecidableEq ρ] {next : SlNext ρ} {list : Slist ρ} {elems : List ρ}
  {elem : ρ}

/-! ## The loop of the sorted insertion -/

/-- The loop walks over the elements that are not greater. -/
theorem slistInsertBefore_skip (list : Slist ρ) (elem : ρ) {after : ρ → Bool} {first prev : ρ}
    {before rest : List ρ} (smaller : ∀ curr ∈ before, after curr = false) (done : List ρ)
    (chain : ChainOf next first (done ++ prev :: (before ++ rest))) :
    ∃ front last, prev :: before = front ++ [last] ∧
      (slistInsertBefore next list elem after).Goes (some ⟨some prev, (before ++ rest).head?⟩)
        (some ⟨some last, rest.head?⟩) := by
  refine chain.walk (slistInsertBefore next list elem after)
    (fun prev curr _ => some ⟨some prev, curr⟩) ?_ done []
  intro prev curr passed member here
  simp [slistInsertBefore, smaller curr member, slinkIterNext]

/-- Where the tail is greater, the element goes in front of the first greater one and the tail
stays. -/
theorem SlistHolds.insertAhead_some {before rest : List ρ} {curr tail : ρ}
    (holds : SlistHolds next list (before ++ curr :: rest))
    (off : elem ∉ list.slHead :: (before ++ curr :: rest)) {after : ρ → Bool}
    (last : list.slTail = some tail) (entered : after tail = true)
    (smaller : ∀ other ∈ before, after other = false) (greater : after curr = true) :
    ∃ moved, (slistInsertBefore next list elem after).Returns none (moved, list) ∧
      SlistHolds moved list (before ++ elem :: curr :: rest) := by
  obtain ⟨done, prev, joined, later⟩ :=
    slistInsertBefore_skip list elem smaller [] holds.chain
  have enters : (slistInsertBefore next list elem after).turn none =
      some (.inl (some ⟨some list.slHead, (before ++ curr :: rest).head?⟩)) := by
    simp [slistInsertBefore, slistEmpty, slinkEmpty_iff holds.chain, last, entered, slinkIterInit,
      holds.head_eq]
  have leaves : (slistInsertBefore next list elem after).turn
      (some ⟨some prev, (curr :: rest).head?⟩) =
        some (.inr (update (update next prev (some elem)) elem (some curr),
          list)) := by
    simp [slistInsertBefore, greater]
  refine ⟨_, (later.head enters).returns_iff.mpr (Loop.returns_of_done leaves), ?_, ?_⟩
  · have chain := holds.chain
    rw [← List.cons_append, joined] at chain off ⊢
    rw [List.append_assoc, List.singleton_append] at chain off ⊢
    exact chain.insert' done off
  · simpa using holds.tail

/-- A sorted insertion whose shortcut through the tail is right puts the element in front of the
first greater one. -/
theorem SlistHolds.insertAhead (holds : SlistHolds next list elems)
    (off : elem ∉ list.slHead :: elems) {after : ρ → Bool}
    (shortcut : ∀ tail, list.slTail = some tail → after tail = false →
      ∀ curr ∈ elems, after curr = false) :
    ∃ moved left, (slistInsertBefore next list elem after).Returns none (moved, left) ∧
      left.slHead = list.slHead ∧ SlistHolds moved left
        (elems.takeWhile (fun curr => !after curr) ++
          elem :: elems.dropWhile fun curr => !after curr) := by
  cases last : list.slTail with
  | none =>
      have none := holds.tail
      rw [last] at none
      obtain rfl := List.getLast?_eq_none_iff.mp none.symm
      refine ⟨_, _, Loop.returns_of_done ?_, ?_, holds.insertFront off⟩
      · simp [slistInsertBefore, slistEmpty, slinkEmpty_iff holds.chain]
      · simp [slistInsertFront, slinkEmpty_iff holds.chain]
  | some tail =>
      obtain ⟨front, split, -⟩ := holds.tail_next last
      cases greater : after tail with
      | false =>
          have smaller := shortcut tail last greater
          obtain ⟨moved, inserted, held⟩ := holds.insertBack off
          refine ⟨moved, { list with slTail := some elem }, Loop.returns_of_done ?_, rfl, ?_⟩
          · have inhabited : elems ≠ [] := by simp [split]
            simp [slistInsertBefore, slistEmpty, slinkEmpty_iff holds.chain, inhabited, last,
              greater, inserted]
          · have all : ∀ curr ∈ elems, (!after curr) = true := by simpa using smaller
            rw [List.takeWhile_eq_self_iff.mpr all, List.dropWhile_eq_nil_iff.mpr all]
            exact held
      | true =>
          have found : (elems.find? after).isSome := by
            rw [List.find?_isSome]
            exact ⟨tail, by simp [split], greater⟩
          obtain ⟨curr, first⟩ := Option.isSome_iff_exists.mp found
          obtain ⟨stops, before, rest, rfl, others⟩ := List.find?_eq_some_iff_append.mp first
          obtain ⟨moved, returned, held⟩ :=
            holds.insertAhead_some off last greater (by simpa using others) stops
          refine ⟨moved, list, returned, rfl, ?_⟩
          rw [List.takeWhile_append_of_pos others, List.dropWhile_append_of_pos others,
            List.takeWhile_cons_of_neg (by simpa using stops),
            List.dropWhile_cons_of_neg (by simpa using stops), List.append_nil]
          exact held

/-! ## Operations and sequences -/

/-- The memory and one list in it. -/
structure SlistState (ρ δ : Type*) where
  next : SlNext ρ
  slData : ρ → δ
  list : Slist ρ

/-- The calls on one list; a sorted insertion brings its comparison. -/
inductive SlistOp (ρ δ : Type*) where
  | insertFront (elem : ρ)
  | insertBack (elem : ρ)
  | rmFront
  | insertSorted (elem : ρ) (cmp : ρ → ρ → Int)
  | insertSortedData (elem : ρ) (data : δ) (cmp : δ → δ → Int)

/-- What a call does, with what `slist_rm_front` returns. -/
def slistStep (state : SlistState ρ δ) (op : SlistOp ρ δ) (after : SlistState ρ δ)
    (output : Option ρ) : Prop :=
  match op with
  | .insertFront elem =>
      output = none ∧ after = ⟨(slistInsertFront state.next state.list elem).1, state.slData,
        (slistInsertFront state.next state.list elem).2⟩
  | .insertBack elem =>
      output = none ∧ after.slData = state.slData ∧
        slistInsertBack state.next state.list elem = some (after.next, after.list)
  | .rmFront =>
      after.slData = state.slData ∧
        slistRmFront state.next state.list = some (output, after.next, after.list)
  | .insertSorted elem cmp =>
      output = none ∧ after.slData = state.slData ∧
        (slistInsertSorted state.next state.list elem cmp).Returns none (after.next, after.list)
  | .insertSortedData elem data cmp =>
      output = none ∧ after.slData = update state.slData elem data ∧
        (slistInsertSortedData state.next after.slData state.list elem cmp).Returns none
          (after.next, after.list)

def slistTransition (ρ δ : Type*) [DecidableEq ρ] :
    Transition (SlistState ρ δ) (SlistOp ρ δ) (Option ρ) := ⟨slistStep⟩

/-- A finite sequence of nodes, and the data of every node. -/
structure SlistSeq (ρ δ : Type*) where
  elems : List ρ
  slData : ρ → δ

/-- The calls on a sequence. -/
def slistSeqNext (seq : SlistSeq ρ δ) : SlistOp ρ δ → SlistSeq ρ δ × Option ρ
  | .insertFront elem => (⟨elem :: seq.elems, seq.slData⟩, none)
  | .insertBack elem => (⟨seq.elems ++ [elem], seq.slData⟩, none)
  | .rmFront => (⟨seq.elems.tail, seq.slData⟩, seq.elems.head?)
  | .insertSorted elem cmp => (⟨insertBefore cmp elem seq.elems, seq.slData⟩, none)
  | .insertSortedData elem data cmp =>
      let slData := update seq.slData elem data
      (⟨insertBefore (fun a b => cmp (slData a) (slData b)) elem seq.elems, slData⟩, none)

/-- Nodes are inserted while they are in no list, and in sorted order into an ascending one. -/
def slistLegal (head : ρ) (seq : SlistSeq ρ δ) : SlistOp ρ δ → Prop
  | .insertFront elem | .insertBack elem => elem ∉ head :: seq.elems
  | .rmFront => True
  | .insertSorted elem cmp =>
      elem ∉ head :: seq.elems ∧ TotalPreorder cmp ∧ Ascending cmp seq.elems
  | .insertSortedData elem _ cmp =>
      elem ∉ head :: seq.elems ∧ TotalPreorder cmp ∧
        Ascending (fun a b => cmp (seq.slData a) (seq.slData b)) seq.elems

/-- The list in memory is the sequence. -/
structure SlistIs (head : ρ) (state : SlistState ρ δ) (seq : SlistSeq ρ δ) : Prop where
  head : state.list.slHead = head
  holds : SlistHolds state.next state.list seq.elems
  slData : state.slData = seq.slData

variable {head : ρ} {state : SlistState ρ δ} {seq : SlistSeq ρ δ}

/-- A sorted insertion into an ascending list, whatever it compares. -/
theorem SlistHolds.insertSorted (holds : SlistHolds next list elems)
    (off : elem ∉ list.slHead :: elems) {cmp : ρ → ρ → Int} (order : TotalPreorder cmp)
    (ascending : Ascending cmp elems) :
    ∃ moved left, (slistInsertBefore next list elem fun curr => 0 < cmp curr elem).Returns none
        (moved, left) ∧ left.slHead = list.slHead ∧
      SlistHolds moved left (insertBefore cmp elem elems) := by
  have shortcut : ∀ tail, list.slTail = some tail → decide (0 < cmp tail elem) = false →
      ∀ curr ∈ elems, decide (0 < cmp curr elem) = false := by
    intro tail last smaller
    rw [holds.tail] at last
    have none := ascending.not_greater_of_last order last (by simpa using smaller)
    simpa using none
  have kept : (fun curr => !decide (0 < cmp curr elem)) = fun curr =>
      decide (cmp curr elem ≤ 0) := by
    funext curr
    simp [← decide_not]
  rw [insertBefore_eq, ← kept]
  exact holds.insertAhead off shortcut

/-- Every legal call does to the list what it does to the sequence. -/
theorem slist_follows (head : ρ) :
    (slistTransition ρ δ).Follows slistSeqNext (slistLegal head) (SlistIs head) := by
  intro state seq op is legal
  obtain ⟨rfl, holds, same⟩ := is
  cases op with
  | insertFront elem =>
      refine ⟨⟨_, none, rfl, rfl⟩, ?_⟩
      rintro after output ⟨rfl, rfl⟩
      exact ⟨rfl, slistInsertFront_slHead .., holds.insertFront legal, same⟩
  | insertBack elem =>
      obtain ⟨moved, inserted, held⟩ := holds.insertBack legal
      refine ⟨⟨⟨moved, state.slData, _⟩, none, rfl, rfl, inserted⟩, ?_⟩
      rintro ⟨next, slData, list⟩ output ⟨rfl, kept, again⟩
      rw [inserted] at again
      cases again
      exact ⟨rfl, rfl, held, kept.trans same⟩
  | rmFront =>
      obtain ⟨moved, left, removed, head, held⟩ := holds.rmFront
      refine ⟨⟨⟨moved, state.slData, left⟩, _, rfl, removed⟩, ?_⟩
      rintro ⟨next, slData, list⟩ output ⟨kept, again⟩
      rw [removed] at again
      cases again
      exact ⟨rfl, head, held, kept.trans same⟩
  | insertSorted elem cmp =>
      obtain ⟨off, order, ascending⟩ := legal
      obtain ⟨moved, left, returned, head, held⟩ := holds.insertSorted off order ascending
      refine ⟨⟨⟨moved, state.slData, left⟩, none, rfl, rfl, returned⟩, ?_⟩
      rintro ⟨next, slData, list⟩ output ⟨rfl, kept, again⟩
      cases again.unique returned
      exact ⟨rfl, head, held, kept.trans same⟩
  | insertSortedData elem data cmp =>
      obtain ⟨off, order, ascending⟩ := legal
      have stored : Ascending (fun a b => cmp (update seq.slData elem data a)
          (update seq.slData elem data b)) seq.elems := by
        apply Ascending.comap_congr ascending
        intro a member
        apply update_of_ne
        rintro rfl
        exact off (List.mem_cons_of_mem _ member)
      obtain ⟨moved, left, returned, head, held⟩ := holds.insertSorted off (order.comap _) stored
      refine ⟨⟨⟨moved, update state.slData elem data, left⟩, none, rfl, rfl, ?_⟩, ?_⟩
      · rw [same]
        exact returned
      · rintro ⟨next, slData, list⟩ output ⟨rfl, kept, again⟩
        simp only [same] at kept
        subst kept
        cases again.unique returned
        exact ⟨rfl, head, held, rfl⟩

/-- **Lists are sequences.** Every list of legal calls on a well-formed list has a run, and every
run returns what the calls return on the sequence and ends with the list of that sequence. A
sorted insertion into an ascending sequence leaves an ascending one, a permutation in which the
new element follows exactly those that are not greater. -/
theorem slist_run {head : ρ} {state : SlistState ρ δ} {seq : SlistSeq ρ δ}
    (is : SlistIs head state seq) {ops : List (SlistOp ρ δ)}
    (legal : Machine.SpecMeets slistSeqNext (slistLegal head) seq ops) :
    ((∃ final outputs, (slistTransition ρ δ).Runs state ops final outputs) ∧
      ∀ final outputs, (slistTransition ρ δ).Runs state ops final outputs →
        outputs = (Machine.specRun slistSeqNext seq ops).2 ∧
          SlistIs head final (Machine.specRun slistSeqNext seq ops).1) ∧
    ∀ (cmp : ρ → ρ → Int) (elem : ρ) (elems : List ρ), TotalPreorder cmp → Ascending cmp elems →
      Ascending cmp (insertBefore cmp elem elems) ∧
        (insertBefore cmp elem elems).Perm (elem :: elems) ∧
        Placed cmp elem elems (insertBefore cmp elem elems) := by
  refine ⟨(slist_follows head).run is legal, ?_⟩
  intro cmp elem elems order ascending
  have placed := placed_insertBefore elem order ascending
  exact ⟨placed.ascending order ascending, placed.perm, placed⟩

private theorem totalPreorder_sub : TotalPreorder fun a b : Nat => (a : Int) - b where
  total := by omega
  trans := by omega

/-- Two elements in order, and the first one taken again. -/
theorem slist_run_three : ∃ final : SlistState Nat Unit,
    (slistTransition Nat Unit).Runs ⟨fun _ => none, fun _ => (), ⟨0, none⟩⟩
      [.insertBack 2, .insertSorted 1 fun a b => a - b, .rmFront] final [none, none, some 1] := by
  have empty : SlistIs 0 (⟨fun _ => none, fun _ => (), ⟨0, none⟩⟩ : SlistState Nat Unit)
      ⟨[], fun _ => ()⟩ := ⟨rfl, ⟨by decide, rfl⟩, rfl⟩
  have legal : Machine.SpecMeets slistSeqNext (slistLegal 0)
      (⟨[], fun _ => ()⟩ : SlistSeq Nat Unit)
      [.insertBack 2, .insertSorted 1 fun a b => a - b, .rmFront] :=
    ⟨(by decide : 2 ∉ [0]),
      ⟨(by decide : 1 ∉ [0, 2]), totalPreorder_sub, List.pairwise_singleton _ _⟩, trivial, trivial⟩
  obtain ⟨⟨⟨final, outputs, ran⟩, each⟩, -⟩ := slist_run empty legal
  have same : outputs = [none, none, some 1] := (each final outputs ran).1.trans (by decide)
  exact ⟨final, same ▸ ran⟩

end Tvntd
