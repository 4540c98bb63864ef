import Tvntd.Ctype.List

/-! # Finding and removing in a list

`slink_find` reports the link in front of the one it removed, and only then:
`prv` is stored on one path. `slist_find` compares what it returns with `sl_tail`,
and on an empty list both are `NULL`, so a removing call takes the tail from a
local that was never written. `slist_find_data` frees the node it found also
when it was asked to leave it in the list.
-/

namespace Tvntd

open LinkedCells Function

variable {ρ δ : Type*} [DecidableEq ρ] {next : SlNext ρ} {list : Slist ρ} {elems : List ρ}
  {head : ρ}

/-- The loop of `slink_find` walks over the links that do not match. -/
theorem slinkFindLoop_skip (orig elm : ρ) (cmp : ρ → ρ → Int) (rm : Bool) {first prev : ρ}
    {before rest : List ρ} (differs : ∀ link ∈ before, cmp link elm ≠ 0) (done : List ρ)
    (chain : ChainOf next first (done ++ prev :: (before ++ rest))) :
    ∃ front last, prev :: before = front ++ [last] ∧
      (slinkFindLoop next orig elm cmp rm).Goes prev last := by
  refine chain.walk (slinkFindLoop next orig elm cmp rm) (fun prev _ _ => prev) ?_ done []
  intro prev link passed member here
  simp only [slinkFindLoop, here, differs link member, if_false]

/-- A probe that matches nothing. -/
theorem slinkFindLoop_none (chain : ChainOf next head (head :: elems)) (elm : ρ)
    (cmp : ρ → ρ → Int) (rm : Bool) (differs : ∀ link ∈ elems, cmp link elm ≠ 0) :
    (slinkFindLoop next head elm cmp rm).Returns head ⟨none, none, next⟩ := by
  have whole : ChainOf next head ([] ++ head :: (elems ++ [])) := by simpa using chain
  obtain ⟨front, last, split, later⟩ := slinkFindLoop_skip head elm cmp rm differs [] whole
  apply later.returns_iff.mpr
  apply Loop.returns_of_done
  have ended : next last = none := by
    rw [split] at chain
    exact ChainOf.next_eq _ chain
  simp only [slinkFindLoop, ended]

/-- A probe that matches takes the first match, and `prv` is the element in front of it. -/
theorem slinkFindLoop_some {before rest : List ρ} {link : ρ}
    (chain : ChainOf next head (head :: (before ++ link :: rest))) (elm : ρ)
    (cmp : ρ → ρ → Int) (rm : Bool) (differs : ∀ other ∈ before, cmp other elm ≠ 0)
    (equal : cmp link elm = 0) :
    ∃ front last, head :: before = front ++ [last] ∧
      (slinkFindLoop next head elm cmp rm).Returns head
        (if rm then ⟨some link, some before.getLast?,
          update (update next last (next link)) link none⟩
        else ⟨some link, none, next⟩) := by
  obtain ⟨front, last, split, later⟩ := slinkFindLoop_skip head elm cmp rm differs [] chain
  refine ⟨front, last, split, later.returns_iff.mpr ?_⟩
  apply Loop.returns_of_done
  have behind : next last = some link := by
    rw [← List.cons_append, split] at chain
    exact ChainOf.next_eq front (by simpa using chain)
  -- only the head of the list has no element in front of it
  have reported : (if last = head then none else some last) = before.getLast? := by
    cases front with
    | nil =>
        obtain ⟨rfl, rfl⟩ := List.cons.inj split
        exact if_pos rfl
    | cons head front =>
        rw [List.cons_append] at split
        obtain ⟨rfl, rfl⟩ := List.cons.inj split
        have distinct := (List.nodup_cons.mp chain.nodup).1
        rw [if_neg, List.getLast?_concat]
        rintro rfl
        simp at distinct
  cases rm with
  | true => simp only [slinkFindLoop, behind, equal, if_true, reported]
  | false => simp [slinkFindLoop, behind, equal]

/-- What is to be left of a list: without the first match, or as it was. -/
structure FindLeaves (next : SlNext ρ) (list : Slist ρ) (elems : List ρ) (same : ρ → Bool)
    (rm : Bool) (after : SlNext ρ) (left : Slist ρ) : Prop where
  head : left.slHead = list.slHead
  holds : SlistHolds after left (if rm then elems.eraseP same else elems)
  untouched : rm = false ∨ elems.find? same = none → after = next ∧ left = list
  others : ∀ cell ∉ list.slHead :: elems, after cell = next cell

/-- `slist_find` returns the first match and removes it exactly if it is asked to, whatever is in
its local variable. -/
def SlistFindRight (next : SlNext ρ) (list : Slist ρ) (elems : List ρ) (data : ρ)
    (cmp : ρ → ρ → Int) (rm : Bool) : Prop :=
  ∀ stale, ∃ result, (slistFind next list data cmp rm stale).Returns list.slHead result ∧
    result.ptr = elems.find? (fun elm => cmp elm data = 0) ∧
    FindLeaves next list elems (fun elm => cmp elm data = 0) rm result.next result.list

/-- `slist_find_data` returns the data of the first match, and removes and frees its node exactly
if it is asked to. -/
def SlistFindDataRight (next : SlNext ρ) (slData : ρ → Option δ) (list : Slist ρ)
    (elems : List ρ) (data : Option δ) (cmp : Option δ → Option δ → Int) (rm : Bool) : Prop :=
  ∀ iterDummy stale, ∃ result,
    (slistFindData next slData list iterDummy data cmp rm stale).Returns list.slHead result ∧
    result.res = (elems.find? fun elm => cmp (slData elm) data = 0).bind slData ∧
    (result.freed = if rm then elems.find? (fun elm => cmp (slData elm) data = 0) else none) ∧
    FindLeaves next list elems (fun elm => cmp (slData elm) data = 0) rm result.next result.list

/-- On an empty list a removing call leaves its uninitialised local in `sl_tail`. -/
theorem slistFind_empty (holds : SlistHolds next list []) (data : ρ) (cmp : ρ → ρ → Int)
    (rm : Bool) (stale : Option ρ) :
    (slistFind next list data cmp rm stale).Returns list.slHead
      ⟨none, next, if rm then { list with slTail := stale } else list⟩ := by
  apply (slinkFindLoop_none holds.chain data cmp rm (by simp)).andThen
  have empty : list.slTail = none := holds.tail
  simp [empty]

/-- Where nothing matches, a list stays as it is, unless it is empty and the call removes. -/
theorem slistFind_none (holds : SlistHolds next list elems) (data : ρ) (cmp : ρ → ρ → Int)
    (rm : Bool) (stale : Option ρ) (safe : rm = false ∨ elems ≠ [])
    (differs : ∀ link ∈ elems, cmp link data ≠ 0) :
    (slistFind next list data cmp rm stale).Returns list.slHead ⟨none, next, list⟩ := by
  apply (slinkFindLoop_none holds.chain data cmp rm differs).andThen
  have kept : ¬ (rm = true ∧ none = list.slTail) := by
    rintro ⟨rfl, empty⟩
    have last := holds.tail
    rw [← empty] at last
    have emptied := List.getLast?_eq_none_iff.mp last.symm
    exact safe.elim (by simp) fun some => some emptied
  simp only [kept, if_false]

omit [DecidableEq ρ] in
/-- `sl_tail` is the last element and no other one. -/
theorem SlistHolds.tail_eq_iff {before rest : List ρ} {link : ρ}
    (holds : SlistHolds next list (before ++ link :: rest)) :
    some link = list.slTail ↔ rest = [] := by
  rw [holds.tail]
  cases rest with
  | nil => simp
  | cons second rest =>
      have distinct := (List.nodup_cons.mp holds.chain.nodup).2
      have apart := (List.nodup_cons.mp (List.nodup_append.mp distinct).2.1).1
      rw [List.getLast?_append_cons, List.getLast?_cons_cons]
      constructor
      · intro last
        exact absurd (List.mem_of_getLast? last.symm) apart
      · rintro ⟨⟩

/-- The memory behind the removal of the first match, off the list as before. -/
theorem slinkFindLoop_removes {before rest : List ρ} {link : ρ}
    (chain : ChainOf next head (head :: (before ++ link :: rest))) (elm : ρ)
    (cmp : ρ → ρ → Int) (differs : ∀ other ∈ before, cmp other elm ≠ 0)
    (equal : cmp link elm = 0) :
    ∃ after, (slinkFindLoop next head elm cmp true).Returns head
        ⟨some link, some before.getLast?, after⟩ ∧
      ChainOf after head (head :: (before ++ rest)) ∧
      ∀ cell ∉ head :: (before ++ link :: rest), after cell = next cell := by
  obtain ⟨front, last, split, returned⟩ := slinkFindLoop_some chain elm cmp true differs equal
  rw [← List.cons_append, split] at chain
  refine ⟨_, returned, ?_, ?_⟩
  · have unlinked := ChainOf.remove front (by simpa using chain)
    rw [← List.cons_append, split]
    simpa using unlinked
  · intro cell off
    rw [← List.cons_append, split] at off
    rw [update_of_ne (by rintro rfl; simp at off),
      update_of_ne (by rintro rfl; simp at off)]

/-- A removing call takes the first match out, and the tail follows when it was the last element. -/
theorem slistFind_removes {before rest : List ρ} {link : ρ}
    (holds : SlistHolds next list (before ++ link :: rest)) (data : ρ) (cmp : ρ → ρ → Int)
    (stale : Option ρ) (differs : ∀ other ∈ before, cmp other data ≠ 0)
    (equal : cmp link data = 0) :
    ∃ after left, (slistFind next list data cmp true stale).Returns list.slHead
        ⟨some link, after, left⟩ ∧
      left.slHead = list.slHead ∧ SlistHolds after left (before ++ rest) ∧
      ∀ cell ∉ list.slHead :: (before ++ link :: rest), after cell = next cell := by
  obtain ⟨after, returned, joined, others⟩ :=
    slinkFindLoop_removes holds.chain data cmp differs equal
  have at_ := holds.tail_eq_iff
  have tail := holds.tail
  cases rest with
  | nil =>
      refine ⟨after, { list with slTail := before.getLast? }, returned.andThen ?_, rfl,
        ⟨joined, by simp⟩, others⟩
      simp [at_.mpr rfl]
  | cons second rest =>
      have other : some link ≠ list.slTail := fun same => by cases at_.mp same
      refine ⟨after, list, returned.andThen ?_, rfl, ⟨joined, by simpa using tail⟩, others⟩
      simp [other]

/-- On a list with elements, and without removal on any list, `slist_find` is right. -/
theorem slistFind_right (holds : SlistHolds next list elems) (data : ρ) (cmp : ρ → ρ → Int)
    (rm : Bool) (stale : Option ρ) (safe : rm = false ∨ elems ≠ []) :
    ∃ result, (slistFind next list data cmp rm stale).Returns list.slHead result ∧
      result.ptr = elems.find? (fun elm => cmp elm data = 0) ∧
      FindLeaves next list elems (fun elm => cmp elm data = 0) rm result.next result.list := by
  cases found : elems.find? fun elm => decide (cmp elm data = 0) with
  | none =>
      have differs := List.find?_eq_none.mp found
      have returned := slistFind_none holds data cmp rm stale safe (by simpa using differs)
      refine ⟨_, returned, rfl, rfl, ?_, fun _ => ⟨rfl, rfl⟩, fun _ _ => rfl⟩
      rw [List.eraseP_of_forall_not differs, ite_self]
      exact holds
  | some link =>
      obtain ⟨equal, before, rest, rfl, others⟩ := List.find?_eq_some_iff_append.mp found
      have differs : ∀ other ∈ before, cmp other data ≠ 0 := by simpa using others
      have same : cmp link data = 0 := of_decide_eq_true equal
      cases rm with
      | false =>
          obtain ⟨front, last, -, returned⟩ :=
            slinkFindLoop_some holds.chain data cmp false differs same
          exact ⟨⟨some link, next, list⟩, returned.andThen (by simp), rfl, rfl, holds,
            fun _ => ⟨rfl, rfl⟩, fun _ _ => rfl⟩
      | true =>
          have erased : (before ++ link :: rest).eraseP (fun elm => decide (cmp elm data = 0)) =
              before ++ rest := by
            rw [List.eraseP_append_right _ (by simpa using differs)]
            exact congrArg _ (List.eraseP_cons_of_pos equal)
          obtain ⟨after, left, returned, head, held, unchanged⟩ :=
            slistFind_removes holds data cmp stale differs same
          refine ⟨_, returned, rfl, head, ?_, by simp [found], unchanged⟩
          rw [if_pos rfl, erased]
          exact held

/-- `slist_find` is right exactly where it does not remove, or has a list with elements. -/
theorem slistFindRight_iff (holds : SlistHolds next list elems) (data : ρ) (cmp : ρ → ρ → Int)
    (rm : Bool) : SlistFindRight next list elems data cmp rm ↔ rm = false ∨ elems ≠ [] := by
  constructor
  · intro right
    by_contra unmet
    rw [not_or, Bool.not_eq_false, not_not] at unmet
    obtain ⟨rfl, rfl⟩ := unmet
    obtain ⟨result, returned, -, left⟩ := right (some list.slHead)
    have same := returned.unique (slistFind_empty holds data cmp true (some list.slHead))
    subst same
    have tail := left.holds.tail
    cases tail
  · intro safe stale
    exact slistFind_right holds data cmp rm stale safe

/-- `slist_find_data` is right exactly where it removes from a list with elements, or does not
remove and finds nothing. -/
theorem slistFindDataRight_iff (holds : SlistHolds next list elems) (slData : ρ → Option δ)
    (data : Option δ) (cmp : Option δ → Option δ → Int) (rm : Bool) :
    SlistFindDataRight next slData list elems data cmp rm ↔
      (rm = true ∧ elems ≠ []) ∨ (rm = false ∧ ∀ elm ∈ elems, cmp (slData elm) data ≠ 0) := by
  constructor
  · intro right
    cases rm with
    | true =>
        refine Or.inl ⟨rfl, ?_⟩
        rintro rfl
        obtain ⟨result, returned, -, -, left⟩ := right list.slHead (some list.slHead)
        have empty := slistFind_empty holds list.slHead (fun elm _ => cmp (slData elm) data) true
          (some list.slHead)
        have same := returned.unique (empty.andThen rfl)
        subst same
        have tail := left.holds.tail
        cases tail
    | false =>
        refine Or.inr ⟨rfl, ?_⟩
        obtain ⟨result, returned, -, freed, -⟩ := right list.slHead none
        obtain ⟨found, finds, ptr, -⟩ := slistFind_right holds list.slHead
          (fun elm _ => cmp (slData elm) data) false none (Or.inl rfl)
        have same := returned.unique (finds.andThen rfl)
        subst same
        have nothing := ptr.symm.trans freed
        simpa using nothing
  · intro safe iterDummy stale
    have some : rm = false ∨ elems ≠ [] :=
        safe.elim (fun both => Or.inr both.2) fun both => Or.inl both.1
    obtain ⟨found, finds, ptr, left⟩ := slistFind_right holds iterDummy
      (fun elm _ => cmp (slData elm) data) rm stale some
    refine ⟨_, finds.andThen rfl, by rw [ptr], ?_, left⟩
    rcases safe with ⟨rfl, -⟩ | ⟨rfl, differs⟩
    · exact ptr
    · rw [ptr]
      simpa using differs

/-- The findings of both functions, exactly. -/
theorem slist_find_iff (holds : SlistHolds next list elems) (slData : ρ → Option δ) (rm : Bool)
    (probe : ρ) (cmpLink : ρ → ρ → Int) (data : Option δ) (cmpData : Option δ → Option δ → Int) :
    (SlistFindRight next list elems probe cmpLink rm ↔ rm = false ∨ elems ≠ []) ∧
      (SlistFindDataRight next slData list elems data cmpData rm ↔
        (rm = true ∧ elems ≠ []) ∨
          (rm = false ∧ ∀ elm ∈ elems, cmpData (slData elm) data ≠ 0)) :=
  ⟨slistFindRight_iff holds probe cmpLink rm, slistFindDataRight_iff holds slData data cmpData rm⟩

/-- A list of one element in memory. -/
private theorem slistHolds_single :
    SlistHolds (update (fun _ => none) 0 (some 1)) ⟨0, some 1⟩ [1] :=
  ⟨by decide, by decide⟩

theorem slist_find_iff_single :
    SlistFindRight (update (fun _ => none) 0 (some 1)) ⟨0, some 1⟩ [1] 1
        (fun first second : Nat => first - second) true ∧
      SlistFindDataRight (update (fun _ => none) 0 (some 1)) some ⟨0, some 1⟩ [1] (some 1)
        (fun _ _ => 0) true := by
  have both := slist_find_iff slistHolds_single some true 1 (fun first second => first - second)
    (some 1) fun _ _ => 0
  exact ⟨both.1.mpr (by decide), both.2.mpr (by decide)⟩

/-- A removing call loses the tail of an empty list, and a node that stays linked is freed. -/
theorem slist_find_wrong :
    ¬ SlistFindRight (fun _ => none) ⟨0, none⟩ [] 1 (fun first second : Nat => first - second)
        true ∧
      ¬ SlistFindDataRight (update (fun _ => none) 0 (some 1)) some ⟨0, some 1⟩ [1]
        (some 1) (fun _ _ => 0) false := by
  constructor
  · intro right
    have empty : SlistHolds (fun _ => none) ⟨0, none⟩ ([] : List Nat) := ⟨by decide, rfl⟩
    exact absurd ((slistFindRight_iff empty _ _ _).mp right) (by decide)
  · intro right
    exact absurd ((slistFindDataRight_iff slistHolds_single _ _ _ _).mp right) (by decide)

end Tvntd
