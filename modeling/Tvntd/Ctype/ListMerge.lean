import Tvntd.Ctype.List

/-! # Merging and splitting singly linked lists

`slist_merge` and `slist_split` of `common/ctype/list.c`. A merge takes the tail
of the appended list also where that list is empty and has none, and a split
leaves the tail of the old list at the last element of the new one: the links
are right, the tails are not.
-/

namespace Tvntd

open LinkedCells Function

variable {ρ : Type*}

/-- The memory and the two lists that `slist_merge` and `slist_split` work on. -/
structure SlistPair (ρ : Type*) where
  next : SlNext ρ
  first : Slist ρ
  second : Slist ρ

/-- Both lists are well formed and hold these elements. -/
def SlistPair.Hold (pair : SlistPair ρ) (firsts seconds : List ρ) : Prop :=
  SlistHolds pair.next pair.first firsts ∧ SlistHolds pair.next pair.second seconds

variable {next : SlNext ρ} {root list old nlst : Slist ρ} {firsts seconds front back : List ρ}
  {split : ρ}

/-- The last link of a list, which is its head where it has no element. -/
theorem SlistHolds.last_link (holds : SlistHolds next root firsts) :
    ∃ done, root.slHead :: firsts = done ++ [root.slTail.getD root.slHead] := by
  rw [holds.tail]
  cases last : firsts.getLast? with
  | none =>
      rw [List.getLast?_eq_none_iff.mp last]
      exact ⟨[], rfl⟩
  | some tail =>
      obtain ⟨before, rfl⟩ := List.getLast?_eq_some_iff.mp last
      exact ⟨root.slHead :: before, rfl⟩

/-- The last element is behind each one that has another one behind it. -/
theorem SlistHolds.tail_behind {behind : ρ}
    (holds : SlistHolds next old (front ++ split :: behind :: back)) :
    ∃ tail, old.slTail = some tail ∧ tail ≠ split := by
  have last := holds.tail
  rw [List.getLast?_append_cons, List.getLast?_cons_cons,
    List.getLast?_eq_some_getLast (List.cons_ne_nil behind back)] at last
  refine ⟨_, last, ?_⟩
  intro same
  have again : split ∈ behind :: back := same ▸ List.getLast_mem (List.cons_ne_nil behind back)
  have distinct := (List.nodup_cons.mp holds.chain.nodup).2
  exact (List.nodup_cons.mp (List.nodup_append.mp distinct).2.1).1 again

variable [DecidableEq ρ]

/-- `slink_init` -/
def slinkInit (next : SlNext ρ) (head : ρ) : SlNext ρ := update next head none

/-- `slist_merge`. An assignment of the whole list head copies its link and its tail. -/
def slistMerge (next : SlNext ρ) (root list : Slist ρ) : SlistPair ρ :=
  match root.slTail with
  | some tail =>
      ⟨slinkInit (update next tail (next list.slHead)) list.slHead,
        { root with slTail := list.slTail }, { list with slTail := none }⟩
  | none =>
      ⟨slinkInit (update next root.slHead (next list.slHead)) list.slHead,
        { root with slTail := list.slTail }, { list with slTail := none }⟩

/-- `slist_split` -/
def slistSplit (next : SlNext ρ) (old : Slist ρ) (split : Option ρ) (nlst : Slist ρ) :
    Option (SlistPair ρ) :=
  split.bind fun split =>
    if slistEmpty next nlst then
      match next split with
      | some behind =>
          some ⟨update (update next nlst.slHead (some behind)) split none, old,
            { nlst with slTail := old.slTail }⟩
      | none => some ⟨next, old, nlst⟩
    else none

/-- Both branches link the elements of `list` behind the last link of `root`. -/
theorem slistMerge_eq (next : SlNext ρ) (root list : Slist ρ) :
    slistMerge next root list =
      ⟨slinkInit (update next (root.slTail.getD root.slHead) (next list.slHead))
        list.slHead, { root with slTail := list.slTail }, { list with slTail := none }⟩ := by
  unfold slistMerge
  cases root.slTail with
  | none => rfl
  | some tail => rfl

/-- The links of a merge are those of the concatenation. -/
theorem slistMerge_chain (holds : SlistHolds next root firsts)
    (appended : SlistHolds next list seconds)
    (apart : (root.slHead :: firsts).Disjoint (list.slHead :: seconds)) :
    ChainOf (slistMerge next root list).next root.slHead
      (root.slHead :: (firsts ++ seconds)) := by
  rw [slistMerge_eq]
  obtain ⟨done, links⟩ := holds.last_link
  have chain := holds.chain
  rw [links] at chain
  have offLast : root.slTail.getD root.slHead ∉ seconds := by
    intro inside
    have linked : root.slTail.getD root.slHead ∈ root.slHead :: firsts := by
      rw [links]
      exact List.mem_append_right _ List.mem_cons_self
    exact apart linked (List.mem_cons_of_mem _ inside)
  have behind : Segment next (next list.slHead) seconds none := appended.chain.2
  have joined := chain.store done behind offLast
  have same : done ++ root.slTail.getD root.slHead :: seconds =
      root.slHead :: (firsts ++ seconds) := by
    rw [← List.cons_append, links, List.append_assoc, List.singleton_append]
  rw [same] at joined
  apply joined.update
  rw [← List.cons_append]
  intro inside
  rcases List.mem_append.mp inside with inside | inside
  · exact apart inside List.mem_cons_self
  · exact (List.nodup_cons.mp appended.chain.nodup).1 inside

/-- The merged list is empty. -/
theorem slistMerge_emptied (next : SlNext ρ) (root list : Slist ρ) :
    SlistHolds (slistMerge next root list).next (slistMerge next root list).second [] := by
  rw [slistMerge_eq]
  exact ⟨⟨rfl, update_self ..⟩, rfl⟩

/-- A merge is right where the appended list has an element, or neither list has one. -/
theorem slistMerge_hold_iff (holds : SlistHolds next root firsts)
    (appended : SlistHolds next list seconds)
    (apart : (root.slHead :: firsts).Disjoint (list.slHead :: seconds)) :
    (slistMerge next root list).Hold (firsts ++ seconds) [] ↔ seconds ≠ [] ∨ firsts = [] := by
  have chain := slistMerge_chain holds appended apart
  have left : (slistMerge next root list).first = { root with slTail := list.slTail } := by
    rw [slistMerge_eq]
  constructor
  · intro right
    by_contra neither
    rw [not_or, not_not] at neither
    have tail := right.1.tail
    rw [left, appended.tail, neither.1, List.append_nil] at tail
    exact neither.2 (List.getLast?_eq_none_iff.mp tail.symm)
  · intro either
    refine ⟨⟨?_, ?_⟩, slistMerge_emptied next root list⟩
    · rw [left]
      exact chain
    · rw [left, appended.tail]
      rcases either with some | none
      · exact (List.getLast?_append_of_ne_nil firsts some).symm
      · rw [none, List.nil_append]

private theorem slistSplit_last (holds : SlistHolds next old (front ++ [split]))
    (empty : SlistHolds next nlst []) :
    slistSplit next old (some split) nlst = some ⟨next, old, nlst⟩ := by
  have ended : next split = none := ChainOf.next_eq (old.slHead :: front) holds.chain
  have fresh : slistEmpty next nlst = true := slinkEmpty_iff empty.chain
  simp only [slistSplit, Option.bind_some, fresh, if_true, ended]

private theorem slistSplit_middle {behind : ρ}
    (holds : SlistHolds next old (front ++ split :: behind :: back))
    (empty : SlistHolds next nlst []) :
    slistSplit next old (some split) nlst =
      some ⟨update (update next nlst.slHead (some behind)) split none, old,
        { nlst with slTail := old.slTail }⟩ := by
  have linked : next split = some behind := ChainOf.next_eq (old.slHead :: front) holds.chain
  have fresh : slistEmpty next nlst = true := slinkEmpty_iff empty.chain
  simp only [slistSplit, Option.bind_some, fresh, if_true, linked]

/-- **Merging and splitting.** A merge is right where the appended list has an element or neither
has one. A split leaves two well-formed lists where it splits at the last element only, and
merging its two parts never gives the list back: the tail of the old list is stale, and where the
split was at its last element the merge takes the missing tail of the empty part. -/
theorem slistMerge_slistSplit_right_iff :
    (∀ (next : SlNext ρ) (root list : Slist ρ) (firsts seconds : List ρ),
      SlistHolds next root firsts → SlistHolds next list seconds →
      (root.slHead :: firsts).Disjoint (list.slHead :: seconds) →
        ((slistMerge next root list).Hold (firsts ++ seconds) [] ↔
          seconds ≠ [] ∨ firsts = [])) ∧
    ∀ (next : SlNext ρ) (old nlst : Slist ρ) (front back : List ρ) (split : ρ),
      SlistHolds next old (front ++ split :: back) → SlistHolds next nlst [] →
      nlst.slHead ∉ old.slHead :: (front ++ split :: back) →
        ∃ parts, slistSplit next old (some split) nlst = some parts ∧
          (parts.Hold (front ++ [split]) back ↔ back = []) ∧
          ¬ (slistMerge parts.next parts.first parts.second).Hold (front ++ split :: back) [] := by
  refine ⟨fun _ _ _ _ _ => slistMerge_hold_iff, ?_⟩
  intro next old nlst front back split holds empty off
  cases back with
  | nil =>
      refine ⟨_, slistSplit_last holds empty, ⟨fun _ => rfl, fun _ => ⟨holds, empty⟩⟩, ?_⟩
      have apart : (old.slHead :: (front ++ [split])).Disjoint [nlst.slHead] :=
        List.disjoint_singleton.mpr off
      have merged := slistMerge_hold_iff holds empty apart
      rw [List.append_nil] at merged
      rw [merged]
      simp
  | cons behind back =>
      obtain ⟨tail, last, other⟩ := holds.tail_behind
      refine ⟨_, slistSplit_middle holds empty, ?_, ?_⟩
      · refine ⟨fun right => ?_, fun none => (List.cons_ne_nil _ _ none).elim⟩
        have ends : old.slTail = (front ++ [split]).getLast? := right.1.tail
        rw [last, List.getLast?_append_cons, List.getLast?_singleton] at ends
        exact (other (Option.some.inj ends)).elim
      · -- the link of `split` stays reset: the merge writes behind the old tail
        intro right
        rw [slistMerge_eq, last] at right
        have linked := ChainOf.next_eq (old.slHead :: front) right.1.chain
        have notHead : split ≠ nlst.slHead := by
          rintro rfl
          exact off (by simp)
        simp only [slinkInit, Option.getD_some] at linked
        rw [update_of_ne notHead, update_of_ne other.symm, update_self]
          at linked
        cases linked

/-- Two lists with the heads 0 and 2: one element, 1, is in the first one. -/
def oneElement : SlNext Nat := fun link => if link = 0 then some 1 else none

private theorem oneElement_holds : SlistHolds oneElement ⟨0, some 1⟩ [1] := ⟨by decide, rfl⟩

private theorem oneElement_empty : SlistHolds oneElement ⟨2, none⟩ [] := ⟨by decide, rfl⟩

/-- The merge of the list without elements loses the tail of the other one. -/
theorem slistMerge_loses_tail :
    SlistHolds oneElement ⟨0, some 1⟩ [1] ∧ SlistHolds oneElement ⟨2, none⟩ [] ∧
      [0, 1].Disjoint [2] ∧
        ¬ (slistMerge oneElement ⟨0, some 1⟩ ⟨2, none⟩).Hold ([1] ++ []) [] := by
  refine ⟨oneElement_holds, oneElement_empty, List.disjoint_singleton.mpr (by decide), ?_⟩
  intro right
  have tail : none = some 1 := right.1.tail
  cases tail

/-- Two lists with the heads 0 and 2 and one element each, 1 and 3. -/
def pairLists : SlNext Nat := fun link =>
  if link = 0 then some 1 else if link = 2 then some 3 else none

/-- The elements 1 and 3 in the list with the head 0. -/
def pairElements : SlNext Nat := fun link =>
  if link = 0 then some 1 else if link = 1 then some 3 else none

theorem slistMerge_slistSplit_two :
    (slistMerge pairLists ⟨0, some 1⟩ ⟨2, some 3⟩).Hold ([1] ++ [3]) [] ∧
      ∃ parts, slistSplit pairElements ⟨0, some 3⟩ (some 3) ⟨2, none⟩ = some parts ∧
        parts.Hold ([1] ++ [3]) [] := by
  refine ⟨(slistMerge_slistSplit_right_iff.1 pairLists _ _ [1] [3] ⟨by decide, rfl⟩
    ⟨by decide, rfl⟩ (List.disjoint_left.mpr (by decide))).mpr (.inl (List.cons_ne_nil _ _)), ?_⟩
  obtain ⟨parts, split, right, -⟩ := slistMerge_slistSplit_right_iff.2 pairElements ⟨0, some 3⟩
    ⟨2, none⟩ [1] [] 3 ⟨by decide, rfl⟩ ⟨by decide, rfl⟩ (by decide)
  exact ⟨parts, split, right.mpr rfl⟩

end Tvntd
