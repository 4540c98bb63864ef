import Mathlib.Data.List.Perm.Subperm
import Tvntd.Ctype.ShmSlistUpdate

/-! # Repairing a list of offsets

`isl_fixup_list` of `common/ctype/shm-slist.c` with its iterator. The repair
first makes the root's tail agree with its head and then counts the elements.
The iterator stops at offsets above the bound, so the bound itself is read as an
element, and nothing compares the tail with the last element counted.
-/

namespace Tvntd

open Bytewise

structure IslistIter where
  islBound : BitVec 32
  islCurr : Nat

def islIterInit (mem : Bytes) (bound : BitVec 32) (root : Nat) : IslistIter :=
  ⟨bound, islHead mem root⟩

/-- What `islist_iter_next` returns and sets. The link is the word it reads. -/
structure IslistNext where
  ret : Int
  next : Nat
  link : Option Nat
  iter : IslistIter

def islistIterNext (mem : Bytes) (iter : IslistIter) : IslistNext :=
  if iter.islCurr = idxNil ∨ iter.islBound.toNat < iter.islCurr then
    ⟨if iter.islCurr = idxNil then -1 else -2, idxNil, none, iter⟩
  else ⟨0, iter.islCurr, some iter.islCurr, { iter with islCurr := ilNext mem iter.islCurr }⟩

/-- The loop of `isl_fixup_list`: the return value, the count and the words read; `none` when it
has not ended after so many turns. -/
def fixupCount (mem : Bytes) : Nat → IslistIter → BitVec 32 → Option (Int × BitVec 32 × List Nat)
  | 0, _, _ => none
  | turns + 1, iter, cnt =>
      let step := islistIterNext mem iter
      if step.ret = -2 then some (-2, 0, step.link.toList)
      else if step.ret = 0 then
        (fixupCount mem turns step.iter (cnt + 1)).map fun (ret, total, reads) =>
          (ret, total, step.link.toList ++ reads)
      else some (0, cnt + 1 - 1, step.link.toList)

/-- The first half of `isl_fixup_list`: the return value where it gives up, its stores and the
words read. -/
def fixupTail (mem : Bytes) (bound : BitVec 32) (root : Nat) : Option Int × List Store × List Nat :=
  let head := islHead mem root
  let elm := islTail mem root
  if elm = idxNil then
    -- When adding 1st elm to the front, only the head was updated.
    if head ≠ idxNil then (none, [setTail root head], []) else (none, [], [])
  else if head = idxNil then
    -- When removing the last elem, only the head was updated.
    if ilNext mem elm = idxNil then (none, [setTail root idxNil], [elm]) else (some (-1), [], [elm])
  else
    let nxt := ilNext mem elm
    if nxt ≠ idxNil then
      if bound.toNat < nxt then (some (-2), [], [elm])
      -- When adding back, the tail wasn't updated.
      else if ilNext mem nxt = idxNil then (none, [setTail root nxt], [elm, nxt])
      else (some (-1), [], [elm, nxt])
    else (none, [], [elm])

structure Fixup where
  ret : Int
  cnt : BitVec 32
  mem : Bytes
  reads : List Nat

def islFixupList (turns : Nat) (mem : Bytes) (bound : BitVec 32) (root : Nat) : Option Fixup :=
  if bound.toNat ≤ islHead mem root ∨ bound.toNat ≤ islTail mem root then some ⟨-2, 0, mem, []⟩
  else
    match fixupTail mem bound root with
    | (some ret, written, reads) => some ⟨ret, 0, stores mem written, reads⟩
    | (none, written, reads) =>
        let fixed := stores mem written
        (fixupCount fixed turns (islIterInit fixed bound root) 0).map fun (ret, cnt, later) =>
          ⟨ret, cnt, fixed, reads ++ later⟩

variable {mem : Bytes} {bound : BitVec 32} {root : Nat} {elms : List Nat}

/-! ## Counting -/

/-- The iterator takes the offset for an element. -/
def Visited (bound : BitVec 32) (off : Nat) : Prop := off ≠ idxNil ∧ off ≤ bound.toNat

/-- What the loop returns once it stopped at an offset. -/
def counted (cnt : BitVec 32) (elms : List Nat) (last : Nat) : Int × BitVec 32 × List Nat :=
  if last = idxNil then (0, cnt + BitVec.ofNat 32 elms.length, elms) else (-2, 0, elms)

private theorem islistIterNext_visited {curr : Nat} (visited : Visited bound curr) :
    islistIterNext mem ⟨bound, curr⟩ = ⟨0, curr, some curr, ⟨bound, ilNext mem curr⟩⟩ :=
  if_neg fun stops => stops.elim visited.1 (Nat.not_lt.mpr visited.2)

private theorem fixupCount_visited {curr : Nat} (visited : Visited bound curr) (turns : Nat)
    (cnt : BitVec 32) : fixupCount mem (turns + 1) ⟨bound, curr⟩ cnt =
      (fixupCount mem turns ⟨bound, ilNext mem curr⟩ (cnt + 1)).map fun r =>
        (r.1, r.2.1, curr :: r.2.2) := by
  rw [fixupCount, islistIterNext_visited visited]
  rfl

private theorem fixupCount_stopped {curr : Nat} (stopped : ¬ Visited bound curr) (turns : Nat)
    (cnt : BitVec 32) :
    fixupCount mem (turns + 1) ⟨bound, curr⟩ cnt = some (counted cnt [] curr) := by
  have stops : curr = idxNil ∨ bound.toNat < curr := by
    by_contra going
    exact stopped ⟨fun none => going (.inl none), Nat.not_lt.mp fun above => going (.inr above)⟩
  rw [fixupCount, islistIterNext, if_pos stops]
  by_cases ended : curr = idxNil
  · simp [counted, ended, BitVec.add_sub_cancel]
  · simp [counted, ended]

private theorem counted_cons (cnt : BitVec 32) (elm : Nat) (rest : List Nat) (last : Nat) :
    counted cnt (elm :: rest) last =
      ((counted (cnt + 1) rest last).1, (counted (cnt + 1) rest last).2.1,
        elm :: (counted (cnt + 1) rest last).2.2) := by
  unfold counted
  by_cases ended : last = idxNil
  · rw [if_pos ended, if_pos ended, List.length_cons, Nat.add_comm, BitVec.ofNat_add,
      ← BitVec.add_assoc]
    rfl
  · rw [if_neg ended, if_neg ended]

/-- The loop ends on every walk to an offset that is no element. -/
theorem fixupCount_of_walk {last : Nat} (stopped : ¬ Visited bound last) :
    ∀ {elms : List Nat} {first : Nat} (cnt : BitVec 32), Walk mem last first elms →
      (∀ elm ∈ elms, Visited bound elm) →
        fixupCount mem (elms.length + 1) ⟨bound, first⟩ cnt = some (counted cnt elms last) := by
  intro elms
  induction elms with
  | nil =>
      intro first cnt walk _
      rw [show first = last from walk]
      exact fixupCount_stopped stopped 0 cnt
  | cons elm rest ih =>
      intro first cnt walk visited
      obtain ⟨here, later⟩ := List.forall_mem_cons.mp visited
      rw [walk.1, List.length_cons, fixupCount_visited here, ih (cnt + 1) walk.2 later,
        Option.map_some, counted_cons]

/-- Every loop that ends has walked over what it read. -/
theorem walk_of_fixupCount : ∀ {turns first : Nat} {cnt : BitVec 32}
    {result : Int × BitVec 32 × List Nat}, fixupCount mem turns ⟨bound, first⟩ cnt = some result →
      ∃ elms last, Walk mem last first elms ∧ (∀ elm ∈ elms, Visited bound elm) ∧
        ¬ Visited bound last ∧ result = counted cnt elms last := by
  intro turns
  induction turns with
  | zero => exact fun ended => nomatch ended
  | succ turns ih =>
      intro first cnt result ended
      by_cases visited : Visited bound first
      · rw [fixupCount_visited visited] at ended
        obtain ⟨later, rest, rfl⟩ := Option.map_eq_some_iff.mp ended
        obtain ⟨elms, last, walk, inside, stopped, rfl⟩ := ih rest
        exact ⟨first :: elms, last, ⟨rfl, walk⟩, List.forall_mem_cons.mpr ⟨visited, inside⟩,
          stopped, (counted_cons cnt first elms last).symm⟩
      · rw [fixupCount_stopped visited, Option.some.injEq] at ended
        exact ⟨[], first, rfl, fun _ none => (List.not_mem_nil none).elim, visited, ended.symm⟩

theorem visited_of_inside {off : Nat} (inside : off < bound.toNat) : Visited bound off :=
  ⟨ne_idxNil inside, Nat.le_of_lt inside⟩

theorem not_visited_idxNil : ¬ Visited bound idxNil := fun visited => visited.1 rfl

/-! ## The tail of the root -/

/-- The repair goes on to count, with this offset as the tail: the tail of the root, or the
element behind it. -/
structure Settles (mem : Bytes) (bound : BitVec 32) (root last : Nat) : Prop where
  head : islHead mem root < bound.toNat
  tail : islTail mem root < bound.toNat
  last : (last = islTail mem root ∧ ilNext mem (islTail mem root) = idxNil) ∨
    (last = ilNext mem (islTail mem root) ∧ last < bound.toNat ∧ ilNext mem last = idxNil)

theorem Settles.inside {last : Nat} (settles : Settles mem bound root last) :
    last < bound.toNat := by
  rcases settles.last with ⟨rfl, -⟩ | ⟨-, inside, -⟩
  · exact settles.tail
  · exact inside

theorem Settles.started {last : Nat} (settles : Settles mem bound root last) :
    ¬ (bound.toNat ≤ islHead mem root ∨ bound.toNat ≤ islTail mem root) := by
  have head := settles.head
  have tail := settles.tail
  omega

theorem stores_setTail_self (mem : Bytes) (root : Nat) :
    stores mem [setTail root (islTail mem root)] = mem := write_read mem (root + 4) 4

/-- The repaired memory and the words read on the way there. -/
theorem Settles.run {last : Nat} (settles : Settles mem bound root last) :
    ∃ reads, (∀ off ∈ reads, off < bound.toNat) ∧ ∀ turns, islFixupList turns mem bound root =
      (fixupCount (stores mem [setTail root last]) turns ⟨bound, islHead mem root⟩ 0).map
        fun r => ⟨r.1, r.2.1, stores mem [setTail root last], reads ++ r.2.2⟩ := by
  have head := ne_idxNil settles.head
  have tail := ne_idxNil settles.tail
  have first : islIterInit (stores mem [setTail root last]) bound root =
      ⟨bound, islHead mem root⟩ := by
    rw [islIterInit, islHead_setTail]
  rcases settles.last with ⟨rfl, ended⟩ | ⟨behind, inside, ended⟩
  · refine ⟨[islTail mem root], List.forall_mem_singleton.mpr settles.tail, ?_⟩
    have fixed : fixupTail mem bound root = (none, [], [islTail mem root]) := by
      simp only [fixupTail, tail, head, ended, ne_eq, not_true_eq_false, if_false]
    intro turns
    rw [stores_setTail_self] at first ⊢
    rw [islFixupList, if_neg settles.started, fixed]
    exact congrArg (fun iter => (fixupCount mem turns iter 0).map _) first
  · refine ⟨[islTail mem root, last], List.forall_mem_cons.mpr
      ⟨settles.tail, List.forall_mem_singleton.mpr inside⟩, ?_⟩
    have fixed : fixupTail mem bound root =
        (none, [setTail root last], [islTail mem root, last]) := by
      simp only [fixupTail, tail, head, ← behind, ended, ne_idxNil inside,
        Nat.not_lt.mpr (Nat.le_of_lt inside), ne_eq, not_false_eq_true, if_true, if_false]
    intro turns
    rw [islFixupList, if_neg settles.started, fixed]
    exact congrArg (fun iter => (fixupCount _ turns iter 0).map _) first

/-! ## Contents that are vetted -/

/-- What a repair that returned did. -/
structure Vetted (mem : Bytes) (bound : BitVec 32) (root : Nat) (out : Fixup) : Prop where
  reads : ∀ off ∈ out.reads, off < bound.toNat
  writes : ∀ address, address < root + 4 ∨ root + 8 ≤ address → out.mem address = mem address
  list : out.ret = 0 → ∃ elms, Chain out.mem (islHead out.mem root) elms ∧ elms.Nodup ∧
    (∀ elm ∈ elms, elm < bound.toNat) ∧ islTail out.mem root = elms.getLast?.getD idxNil ∧
      out.cnt.toNat = elms.length

/-- The repair terminates, and vets the content. -/
def Vets (mem : Bytes) (bound : BitVec 32) (root : Nat) : Prop :=
  ∃ turns out, islFixupList turns mem bound root = some out ∧ Vetted mem bound root out

/-- The bound itself is not linked, and once the tail is settled the elements from the head on
end there or leave the segment. -/
structure Sane (mem : Bytes) (bound : BitVec 32) (root : Nat) : Prop where
  behind : islHead mem root < bound.toNat → islTail mem root < bound.toNat →
    ilNext mem (islTail mem root) ≠ idxNil → ilNext mem (islTail mem root) ≠ bound.toNat
  walk : ∀ last, Settles mem bound root last → ∃ elms stop,
    Walk (stores mem [setTail root last]) stop (islHead mem root) elms ∧
      (∀ elm ∈ elms, elm < bound.toNat) ∧
        ((stop = idxNil ∧ elms.getLast? = some last) ∨ (stop ≠ idxNil ∧ bound.toNat < stop))

private theorem counted_reads (cnt : BitVec 32) (elms : List Nat) (last : Nat) :
    (counted cnt elms last).2.2 = elms := by
  unfold counted
  by_cases ended : last = idxNil
  · rw [if_pos ended]
  · rw [if_neg ended]

/-- A root that leads out of the segment, or to `IDX_NIL`, is refused at once. -/
theorem islFixupList_refused
    (outside : bound.toNat ≤ islHead mem root ∨ bound.toNat ≤ islTail mem root) (turns : Nat) :
    islFixupList turns mem bound root = some ⟨-2, 0, mem, []⟩ := if_pos outside

/-- A list of distinct elements inside the segment is shorter than the bound. -/
theorem length_lt_of_nodup {elms : List Nat} (nodup : elms.Nodup)
    (inside : ∀ elm ∈ elms, elm < bound.toNat) : elms.length < 2 ^ 32 := by
  have within : elms ⊆ List.range bound.toNat :=
    fun elm member => List.mem_range.mpr (inside elm member)
  have shorter := (nodup.subperm within).length_le
  rw [List.length_range] at shorter
  exact Nat.lt_of_le_of_lt shorter bound.isLt

/-- A settled content is vetted when its elements end at the tail or leave the segment. -/
theorem Settles.vets {last stop : Nat} (settles : Settles mem bound root last)
    (walk : Walk (stores mem [setTail root last]) stop (islHead mem root) elms)
    (inside : ∀ elm ∈ elms, elm < bound.toNat)
    (stops : (stop = idxNil ∧ elms.getLast? = some last) ∨ (stop ≠ idxNil ∧ bound.toNat < stop)) :
    Vets mem bound root := by
  obtain ⟨reads, readInside, run⟩ := settles.run
  have stopped : ¬ Visited bound stop := by
    rcases stops with ⟨rfl, -⟩ | ⟨-, above⟩
    · exact not_visited_idxNil
    · exact fun visited => Nat.not_lt.mpr visited.2 above
  have ended := fixupCount_of_walk stopped 0 walk fun elm member =>
      visited_of_inside (inside elm member)
  refine ⟨elms.length + 1, _, (run _).trans (congrArg (Option.map _) ended), ?_⟩
  refine ⟨?_, ?_, ?_⟩
  · dsimp only
    rw [counted_reads]
    exact List.forall_mem_append.mpr ⟨readInside, inside⟩
  · exact fun address outside => write_of_outside last (outside.imp_right id)
  · intro returned
    rcases stops with ⟨rfl, lastElm⟩ | ⟨some, -⟩
    · have chain : Chain (stores mem [setTail root last])
          (islHead (stores mem [setTail root last]) root) elms := by
        rw [islHead_setTail]
        exact walk
      have nodup := Walk.nodup (fun elm member => ne_idxNil (inside elm member)) chain
      refine ⟨elms, chain, nodup, inside, ?_, ?_⟩
      · rw [islTail_setTail mem (inside_fits settles.inside), lastElm]
        rfl
      · rw [counted, if_pos rfl]
        change (0#32 + BitVec.ofNat 32 elms.length).toNat = elms.length
        rw [BitVec.zero_add, BitVec.toNat_ofNat]
        exact Nat.mod_eq_of_lt (length_lt_of_nodup nodup inside)
    · dsimp only at returned
      rw [counted, if_neg some] at returned
      cases returned

private theorem vets_of_sane (sane : Sane mem bound root) : Vets mem bound root := by
  by_cases started : bound.toNat ≤ islHead mem root ∨ bound.toNat ≤ islTail mem root
  · refine ⟨0, _, islFixupList_refused started 0, ?_, fun _ _ => rfl, fun returned => nomatch returned⟩
    exact fun _ none => (List.not_mem_nil none).elim
  · have head : islHead mem root < bound.toNat := by omega
    have tail : islTail mem root < bound.toNat := by omega
    by_cases ended : ilNext mem (islTail mem root) = idxNil
    · have settles : Settles mem bound root (islTail mem root) := ⟨head, tail, .inl ⟨rfl, ended⟩⟩
      obtain ⟨elms, stop, walk, inside, stops⟩ := sane.walk _ settles
      exact settles.vets walk inside stops
    · have differs := sane.behind head tail ended
      by_cases above : bound.toNat < ilNext mem (islTail mem root)
      · have gave : fixupTail mem bound root = (some (-2), [], [islTail mem root]) := by
          simp only [fixupTail, ne_idxNil head, ne_idxNil tail, ended, above, ne_eq,
            not_false_eq_true, if_true, if_false]
        refine ⟨0, ⟨-2, 0, mem, [islTail mem root]⟩, ?_, ?_, fun _ _ => rfl,
          fun returned => nomatch returned⟩
        · rw [islFixupList, if_neg started, gave]
          rfl
        · exact List.forall_mem_singleton.mpr tail
      · have inside : ilNext mem (islTail mem root) < bound.toNat := by omega
        by_cases last : ilNext mem (ilNext mem (islTail mem root)) = idxNil
        · have settles : Settles mem bound root (ilNext mem (islTail mem root)) :=
            ⟨head, tail, .inr ⟨rfl, inside, last⟩⟩
          obtain ⟨elms, stop, walk, walkInside, stops⟩ := sane.walk _ settles
          exact settles.vets walk walkInside stops
        · have gave : fixupTail mem bound root =
              (some (-1), [], [islTail mem root, ilNext mem (islTail mem root)]) := by
            simp only [fixupTail, ne_idxNil head, ne_idxNil tail, ended, above, last, ne_eq,
              not_false_eq_true, if_true, if_false]
          refine ⟨0, ⟨-1, 0, mem, [islTail mem root, ilNext mem (islTail mem root)]⟩, ?_, ?_,
            fun _ _ => rfl, fun returned => nomatch returned⟩
          · rw [islFixupList, if_neg started, gave]
            rfl
          · exact List.forall_mem_cons.mpr ⟨tail, List.forall_mem_singleton.mpr inside⟩

/-- An offset behind the tail that is not above the bound is read. -/
theorem behind_read {turns : Nat} {out : Fixup} (ran : islFixupList turns mem bound root = some out)
    (head : islHead mem root < bound.toNat) (tail : islTail mem root < bound.toNat)
    (some : ilNext mem (islTail mem root) ≠ idxNil)
    (below : ilNext mem (islTail mem root) ≤ bound.toNat) :
    ilNext mem (islTail mem root) ∈ out.reads := by
  have started : ¬ (bound.toNat ≤ islHead mem root ∨ bound.toNat ≤ islTail mem root) := by omega
  by_cases last : ilNext mem (ilNext mem (islTail mem root)) = idxNil
  · have fixed : fixupTail mem bound root = (none, [setTail root (ilNext mem (islTail mem root))],
        [islTail mem root, ilNext mem (islTail mem root)]) := by
      simp only [fixupTail, ne_idxNil head, ne_idxNil tail, some, Nat.not_lt.mpr below, last, ne_eq,
        not_false_eq_true, if_true, if_false]
    rw [islFixupList, if_neg started, fixed] at ran
    obtain ⟨result, -, rfl⟩ := Option.map_eq_some_iff.mp ran
    exact List.mem_append_left _ (List.mem_cons_of_mem _ List.mem_cons_self)
  · have gave : fixupTail mem bound root =
        (.some (-1), [], [islTail mem root, ilNext mem (islTail mem root)]) := by
      simp only [fixupTail, ne_idxNil head, ne_idxNil tail, some, Nat.not_lt.mpr below, last, ne_eq,
        not_false_eq_true, if_true, if_false]
    rw [islFixupList, if_neg started, gave] at ran
    cases ran
    exact List.mem_cons_of_mem _ List.mem_cons_self

private theorem sane_of_vets (vets : Vets mem bound root) : Sane mem bound root := by
  obtain ⟨turns, out, ran, vetted⟩ := vets
  constructor
  · intro head tail some same
    have member := behind_read ran head tail some (Nat.le_of_eq same)
    exact Nat.lt_irrefl _ (same ▸ vetted.reads _ member)
  · intro last settles
    obtain ⟨reads, -, run⟩ := settles.run
    rw [run] at ran
    obtain ⟨result, count, rfl⟩ := Option.map_eq_some_iff.mp ran
    obtain ⟨elms, stop, walk, -, stopped, rfl⟩ := walk_of_fixupCount count
    have inside : ∀ elm ∈ elms, elm < bound.toNat := by
      intro elm member
      refine vetted.reads elm (List.mem_append_right _ ?_)
      rw [counted_reads]
      exact member
    refine ⟨elms, stop, walk, inside, ?_⟩
    by_cases ended : stop = idxNil
    · refine .inl ⟨ended, ?_⟩
      subst ended
      obtain ⟨others, chain, -, otherInside, tail, -⟩ := vetted.list (by rw [counted, if_pos rfl])
      dsimp only at chain tail
      rw [islHead_setTail] at chain
      have same := Walk.unique (fun elm member => ne_idxNil (inside elm member))
        (fun elm member => ne_idxNil (otherInside elm member)) walk chain
      rw [islTail_setTail mem (inside_fits settles.inside), ← same] at tail
      cases lastElm : elms.getLast? with
      | none =>
          rw [lastElm] at tail
          exact (ne_idxNil settles.inside tail).elim
      | some elm =>
          rw [lastElm] at tail
          exact congrArg some tail.symm
    · refine .inr ⟨ended, ?_⟩
      by_contra below
      exact stopped ⟨ended, Nat.not_lt.mp below⟩

/-- **The repair vets exactly the sane contents.** -/
theorem vets_iff_sane (mem : Bytes) (bound : BitVec 32) (root : Nat) :
    Vets mem bound root ↔ Sane mem bound root := ⟨sane_of_vets, vets_of_sane⟩

/-- Two elements without a successor: the head of the root is one of them, its tail the other. -/
def strayTail : Bytes :=
  stores (fun _ => 0) [setNext 0 idxNil, setNext 4 idxNil, setHead 16 0, setTail 16 4]

/-- The tail is not compared with the last element. -/
theorem strayTail_not_vets : ¬ Vets strayTail 16 16 := by
  intro vets
  have settles : Settles strayTail 16 16 4 := ⟨by decide, by decide, .inl (by decide)⟩
  obtain ⟨elms, stop, walk, inside, stops⟩ := (sane_of_vets vets).walk 4 settles
  have head : islHead strayTail 16 = 0 := by decide
  have next : ilNext (stores strayTail [setTail 16 4]) 0 = idxNil := by decide
  rw [head] at walk
  cases elms with
  | nil =>
      have same : 0 = stop := walk
      subst same
      exact absurd stops (by decide)
  | cons elm rest =>
      obtain ⟨rfl, linked⟩ := walk
      rw [next] at linked
      cases rest with
      | nil =>
          have same : idxNil = stop := linked
          subst same
          exact absurd stops (by decide)
      | cons other later =>
          have outside := inside other (List.mem_cons_of_mem _ List.mem_cons_self)
          exact ne_idxNil outside linked.1.symm

end Tvntd
