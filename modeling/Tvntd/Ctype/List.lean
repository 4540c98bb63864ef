import Tvntd.Lib.LinkedCells
import Tvntd.Lib.Loop

/-! # Singly linked lists

The model of `include/ctype/list.h` and `common/ctype/list.c` over the links in
memory: a link is its address and the memory is the `sl_next` of every link. A
list head is a link too, so the links of a list are its head and its elements.

`none` in place of a result is a failed `assert` or a null pointer that is
followed.
-/

namespace Tvntd

open LinkedCells Function

variable {ρ : Type*}

/-- `sl_next` of every link; `none` is `NULL`. -/
abbrev SlNext (ρ : Type*) := ρ → Option ρ

structure SlinkIter (ρ : Type*) where
  slPrev : Option ρ
  slCurr : Option ρ

/-- `slink_iter_init` -/
def slinkIterInit (next : SlNext ρ) (head : Option ρ) : SlinkIter ρ := ⟨head, head.bind next⟩

/-- `slink_iter_term` -/
def slinkIterTerm (iter : SlinkIter ρ) : Bool := iter.slCurr.isNone

/-- `slink_iter_next` -/
def slinkIterNext (next : SlNext ρ) (iter : SlinkIter ρ) : Option (SlinkIter ρ) :=
  iter.slCurr.map fun curr => ⟨some curr, next curr⟩

/-- `slink_empty` -/
def slinkEmpty (next : SlNext ρ) (head : ρ) : Bool := (next head).isNone

/-- `slist_t`: the address of its head link, and the last element. -/
structure Slist (ρ : Type*) where
  slHead : ρ
  slTail : Option ρ

/-- `slist_empty` -/
def slistEmpty (next : SlNext ρ) (list : Slist ρ) : Bool := slinkEmpty next list.slHead

section Stores

variable [DecidableEq ρ]

/-- `slink_iter_rm_curr`: the link that was current, and the memory. -/
def slinkIterRmCurr (next : SlNext ρ) (iter : SlinkIter ρ) : Option (Option ρ × SlNext ρ) :=
  match iter.slCurr with
  | none => some (none, next)
  | some cur =>
      iter.slPrev.map fun prev =>
        (some cur, update (update next prev (next cur)) cur none)

/-- `slink_add_front` -/
def slinkAddFront (next : SlNext ρ) (head elm : ρ) : SlNext ρ :=
  update (update next elm (next head)) head (some elm)

/-- `slink_rm_front` -/
def slinkRmFront (next : SlNext ρ) (head : ρ) : Option ρ × SlNext ρ :=
  match next head with
  | none => (none, next)
  | some elm => (some elm, update (update next head (next elm)) elm none)

/-- What `slink_find` returns, what it stored through `prv`, and the memory. -/
structure SlinkFound (ρ : Type*) where
  found : Option ρ
  prv : Option (Option ρ)
  next : SlNext ρ

/-- The loop of `slink_find`, from the link whose successor is looked at. -/
def slinkFindLoop (next : SlNext ρ) (orig elm : ρ) (cmp : ρ → ρ → Int) (rm : Bool) :
    Loop ρ (SlinkFound ρ) where
  turn head :=
    match next head with
    | none => some (.inr ⟨none, none, next⟩)
    | some link =>
        if cmp link elm = 0 then
          if rm then
            some (.inr ⟨some link, some (if head = orig then none else some head),
              update (update next head (next link)) link none⟩)
          else some (.inr ⟨some link, none, next⟩)
        else some (.inl link)

/-- What `slist_find` returns, the memory and the list. -/
structure SlistFound (ρ : Type*) where
  ptr : Option ρ
  next : SlNext ρ
  list : Slist ρ

/-- `slist_find`. The local `prev` is not initialised: it holds `stale` until `slink_find` stores
to it. -/
def slistFind (next : SlNext ρ) (list : Slist ρ) (data : ρ) (cmp : ρ → ρ → Int) (rm : Bool)
    (stale : Option ρ) : Loop ρ (SlistFound ρ) :=
  (slinkFindLoop next list.slHead data cmp rm).andThen fun found =>
    some ⟨found.found, found.next,
      if rm ∧ found.found = list.slTail then { list with slTail := found.prv.getD stale } else list⟩

/-- What `slist_find_data` returns, the node it frees, the memory and the list. -/
structure SlistFoundData (ρ δ : Type*) where
  res : Option δ
  freed : Option ρ
  next : SlNext ρ
  list : Slist ρ

/-- `slist_find_data`. The probe is a node on the stack, of which `slist_iter_data_cmp` uses the
data only. -/
def slistFindData {δ : Type*} (next : SlNext ρ) (slData : ρ → Option δ) (list : Slist ρ)
    (iterDummy : ρ) (data : Option δ) (cmp : Option δ → Option δ → Int) (rm : Bool)
    (stale : Option ρ) : Loop ρ (SlistFoundData ρ δ) :=
  (slistFind next list iterDummy (fun elm _ => cmp (slData elm) data) rm stale).andThen fun found =>
    some ⟨found.ptr.bind slData, found.ptr, found.next, found.list⟩

/-- `slist_insert_back` -/
def slistInsertBack (next : SlNext ρ) (list : Slist ρ) (elem : ρ) : Option (SlNext ρ × Slist ρ) :=
  match list.slTail with
  | none =>
      some (update (slinkAddFront next list.slHead elem) elem none,
        { list with slTail := some elem })
  | some tail =>
      if next tail = none then
        some (update (update next tail (some elem)) elem none,
          { list with slTail := some elem })
      else none

/-- `slist_insert_front` -/
def slistInsertFront (next : SlNext ρ) (list : Slist ρ) (elem : ρ) : SlNext ρ × Slist ρ :=
  (slinkAddFront next list.slHead elem,
    if slinkEmpty next list.slHead then { list with slTail := some elem } else list)

/-- `slist_rm_front` -/
def slistRmFront (next : SlNext ρ) (list : Slist ρ) : Option (Option ρ × SlNext ρ × Slist ρ) :=
  let removed := slinkRmFront next list.slHead
  match removed.1 with
  | none => some (none, removed.2, list)
  | some elem =>
      if list.slTail = some elem then
        if slinkEmpty removed.2 list.slHead then
          some (some elem, removed.2, { list with slTail := none })
        else none
      else some (some elem, removed.2, list)

/-- `slist_insert_sorted`. The state of the loop is its iterator, and `none` at the entry of the
function. `after` says that the comparison with `elem` is positive. -/
def slistInsertBefore (next : SlNext ρ) (list : Slist ρ) (elem : ρ) (after : ρ → Bool) :
    Loop (Option (SlinkIter ρ)) (SlNext ρ × Slist ρ) where
  turn
    | none =>
        if slistEmpty next list then some (.inr (slistInsertFront next list elem))
        else
          list.slTail.bind fun tail =>
            if after tail then some (.inl (some (slinkIterInit next (some list.slHead))))
            else (slistInsertBack next list elem).map Sum.inr
    | some iter =>
        match iter.slCurr with
        | none => (slistInsertBack next list elem).map Sum.inr
        | some curr =>
            if after curr then
              match iter.slPrev with
              | some prev =>
                  some (.inr (update (update next prev (some elem)) elem
                    (some curr), list))
              | none => some (.inr (slinkAddFront next curr elem, list))
            else (slinkIterNext next iter).map fun moved => .inl (some moved)

def slistInsertSorted (next : SlNext ρ) (list : Slist ρ) (elem : ρ) (cmp : ρ → ρ → Int) :
    Loop (Option (SlinkIter ρ)) (SlNext ρ × Slist ρ) :=
  slistInsertBefore next list elem fun curr => 0 < cmp curr elem

/-- `slist_insert_sorted_data` on the node `elem` that `malloc` returned, whose data is set. -/
def slistInsertSortedData {δ : Type*} (next : SlNext ρ) (slData : ρ → δ) (list : Slist ρ)
    (elem : ρ) (cmp : δ → δ → Int) : Loop (Option (SlinkIter ρ)) (SlNext ρ × Slist ρ) :=
  slistInsertBefore next list elem fun curr => 0 < cmp (slData curr) (slData elem)

end Stores

/-! ## Well-formed lists -/

/-- The links of a list are its head and the elements, and `sl_tail` is the last element. -/
structure SlistHolds (next : SlNext ρ) (list : Slist ρ) (elems : List ρ) : Prop where
  chain : ChainOf next list.slHead (list.slHead :: elems)
  tail : list.slTail = elems.getLast?

variable {next : SlNext ρ} {list : Slist ρ} {elems : List ρ} {head elem : ρ}

theorem SlistHolds.head_eq (holds : SlistHolds next list elems) :
    next list.slHead = elems.head? := ChainOf.head_eq holds.chain

theorem slinkEmpty_iff (chain : ChainOf next head (head :: elems)) :
    slinkEmpty next head = elems.isEmpty := by
  rw [slinkEmpty, ChainOf.head_eq chain]
  cases elems with
  | nil => rfl
  | cons elem rest => rfl

/-- The last element is found at `sl_tail`, and nothing is linked behind it. -/
theorem SlistHolds.tail_next (holds : SlistHolds next list elems) {tail : ρ}
    (last : list.slTail = some tail) : ∃ front, elems = front ++ [tail] ∧ next tail = none := by
  have found := holds.tail
  rw [last] at found
  obtain ⟨front, split⟩ := List.getLast?_eq_some_iff.mp found.symm
  refine ⟨front, split, ?_⟩
  have chain := holds.chain
  rw [split] at chain
  exact ChainOf.next_eq (list.slHead :: front) chain

variable [DecidableEq ρ]

theorem chain_slinkAddFront (chain : ChainOf next head (head :: elems))
    (off : elem ∉ head :: elems) :
    ChainOf (slinkAddFront next head elem) head (head :: elem :: elems) := by
  unfold slinkAddFront
  rw [ChainOf.head_eq chain]
  exact ChainOf.insert [] chain off

private theorem slinkRmFront_cons (chain : ChainOf next head (head :: elem :: elems)) :
    ∃ after, slinkRmFront next head = (some elem, after) ∧ after elem = none ∧
      ChainOf after head (head :: elems) := by
  refine ⟨update (update next head (next elem)) elem none, ?_, ?_, ?_⟩
  · unfold slinkRmFront
    rw [ChainOf.head_eq chain, List.head?_cons]
  · exact update_self ..
  · exact ChainOf.remove [] chain

theorem slistInsertFront_slHead (next : SlNext ρ) (list : Slist ρ) (elem : ρ) :
    (slistInsertFront next list elem).2.slHead = list.slHead := by
  unfold slistInsertFront
  split
  · rfl
  · rfl

theorem SlistHolds.insertFront (holds : SlistHolds next list elems)
    (off : elem ∉ list.slHead :: elems) :
    SlistHolds (slistInsertFront next list elem).1 (slistInsertFront next list elem).2
      (elem :: elems) := by
  unfold slistInsertFront
  rw [slinkEmpty_iff holds.chain]
  have linked := chain_slinkAddFront holds.chain off
  cases elems with
  | nil => exact ⟨linked, rfl⟩
  | cons first rest => exact ⟨linked, by simpa using holds.tail⟩

theorem SlistHolds.insertBack (holds : SlistHolds next list elems)
    (off : elem ∉ list.slHead :: elems) :
    ∃ after, slistInsertBack next list elem = some (after, { list with slTail := some elem }) ∧
      SlistHolds after { list with slTail := some elem } (elems ++ [elem]) := by
  unfold slistInsertBack
  cases last : list.slTail with
  | none =>
      have none := holds.tail
      rw [last] at none
      obtain rfl := List.getLast?_eq_none_iff.mp none.symm
      refine ⟨_, rfl, ?_, rfl⟩
      have linked := chain_slinkAddFront holds.chain off
      exact ChainOf.store [list.slHead] linked rfl List.not_mem_nil
  | some tail =>
      obtain ⟨front, rfl, ended⟩ := holds.tail_next last
      refine ⟨_, if_pos ended, ?_, by simp⟩
      have linked := ChainOf.insert' (list.slHead :: front) holds.chain off
      simpa using linked

/-- An insertion at the back writes to the new element and to the link in front of it. -/
theorem slistInsertBack_frame {after : SlNext ρ} {left : Slist ρ}
    (inserted : slistInsertBack next list elem = some (after, left)) {cell : ρ}
    (notHead : cell ≠ list.slHead) (notTail : list.slTail ≠ some cell) (notElem : cell ≠ elem) :
    after cell = next cell := by
  unfold slistInsertBack slinkAddFront at inserted
  split at inserted
  · cases inserted
    rw [update_of_ne notElem, update_of_ne notHead, update_of_ne notElem]
  · next tail last =>
      split at inserted
      · cases inserted
        have apart : cell ≠ tail := fun same => notTail (same ▸ last)
        rw [update_of_ne notElem, update_of_ne apart]
      · cases inserted

theorem SlistHolds.rmFront (holds : SlistHolds next list elems) :
    ∃ after left, slistRmFront next list = some (elems.head?, after, left) ∧
      left.slHead = list.slHead ∧ SlistHolds after left elems.tail := by
  unfold slistRmFront
  cases elems with
  | nil =>
      refine ⟨next, list, ?_, rfl, holds⟩
      have none := holds.head_eq
      simp only [slinkRmFront, none, List.head?_nil]
  | cons first rest =>
      obtain ⟨after, removed, -, chain⟩ := slinkRmFront_cons holds.chain
      have last := holds.tail
      simp only [removed, slinkEmpty_iff chain, List.head?_cons, List.tail_cons]
      cases rest with
      | nil =>
          rw [if_pos (by simpa using last)]
          exact ⟨after, _, rfl, rfl, chain, rfl⟩
      | cons second rest =>
          have other : list.slTail ≠ some first := by
            intro same
            rw [same] at last
            rw [List.getLast?_cons_cons] at last
            have again : first ∈ second :: rest := List.mem_of_getLast? last.symm
            exact (List.nodup_cons.mp (List.nodup_cons.mp holds.chain.nodup).2).1 again
          rw [if_neg other]
          exact ⟨after, list, rfl, rfl, chain, by simpa using last⟩

end Tvntd
