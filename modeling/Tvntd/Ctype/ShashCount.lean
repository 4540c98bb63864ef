import Tvntd.Lib.Transition
import Tvntd.Ctype.Shash
import Tvntd.Ctype.ListFind
import Tvntd.Ctype.ShashFilter
import Tvntd.Ctype.ShashIter

/-! # The element count of a table

Insertions, `shash_rm`, `shash_rm_bucket` and `shash_takeout_elm` keep
`sh_elm_cnt` in step with the links, and the removed link is `NULL` afterwards.
`shash_iter_rm_curr` does neither, so the `clear` methods do neither, and
`shash_filter` does not count. A history keeps the count right as long as nothing
leaves the table on one of these paths.
-/

namespace Tvntd

open LinkedCells Buckets Function

variable {ρ : Type*} [DecidableEq ρ]

/-! ## The operations -/

/-- `shash_insert_bucket`, and `shash_insert_elm` after its hash: the memory and the table. -/
def shashAddBucket (next : SlNext ρ) (table : ShashTable ρ) (elm : ρ) (index : Nat) :
    Option (SlNext ρ × ShashTable ρ) :=
  if index < table.shBkSize then
    (intValue (table.shElmCnt + 1)).map fun count =>
      (slinkAddFront next (table.shBucket index) elm, { table with shElmCnt := count })
  else none

/-- What a removal returns, the memory and the table. -/
structure ShashRemoved (ρ : Type*) where
  curr : Option ρ
  next : SlNext ρ
  table : ShashTable ρ

/-- `shash_rm_bucket`, and `shash_rm_elm` after its hash. The loop starts at the bucket head. -/
def shashRmBucket (next : SlNext ρ) (table : ShashTable ρ) (elm : ρ) (index : Nat)
    (cmp : ρ → ρ → Int) : Loop ρ (ShashRemoved ρ) where
  turn head :=
    if index < table.shBkSize then
      ((slinkFindLoop next (table.shBucket index) elm cmp true).andThen fun found =>
        some ⟨found.found, found.next, if found.found = none then table else
          { table with shElmCnt := table.shElmCnt - 1 }⟩).turn head
    else none

/-- `shash_takeout_elm` after its hash. -/
def shashTakeoutElm (next : SlNext ρ) (table : ShashTable ρ) (elm : ρ) (index : Nat)
    (cmp : ρ → ρ → Int) : Loop ρ (ShashRemoved ρ) where
  turn head :=
    if index < table.shBkSize then
      ((slinkFindLoop next (table.shBucket index) elm cmp true).andThen fun found =>
        if found.found = some elm then
          some ⟨some elm, found.next, { table with shElmCnt := table.shElmCnt - 1 }⟩
        else none).turn head
    else none

/-- The calls on one table. An iterator removal brings its iterator and a filter the list that takes
the selected elements; `clear` is the method of the three classes that have one. -/
inductive ShashOp (ρ : Type*) where
  | insertElm (elm : ρ)
  | insertBucket (elm : ρ) (index : Nat)
  | rm (elm : ρ)
  | rmBucket (elm : ρ) (index : Nat)
  | takeoutElm (elm : ρ)
  | iterRmCurr (iter : ShashIter ρ)
  | filter (newlst : ρ) (selectFn : ρ → Nat → Bool)
  | clear

/-- The memory and one table in it. -/
structure ShashState (ρ : Type*) where
  next : SlNext ρ
  table : ShashTable ρ

/-- What a call does, with the elements it takes out of the table. -/
def shashStep (fn : ShashFn ρ) (state : ShashState ρ) (op : ShashOp ρ) (after : ShashState ρ)
    (taken : List ρ) : Prop :=
  let index := fn.shHashFn state.table.shBkSize
  match op with
  | .insertElm elm =>
      taken = [] ∧
        shashAddBucket state.next state.table elm (index elm) = some (after.next, after.table)
  | .insertBucket elm bucket =>
      taken = [] ∧ shashAddBucket state.next state.table elm bucket = some (after.next, after.table)
  | .rm elm =>
      ∃ curr, taken = curr.toList ∧
        (shashRmBucket state.next state.table elm (index elm) fn.shCmpFn).Returns
          (state.table.shBucket (index elm)) ⟨curr, after.next, after.table⟩
  | .rmBucket elm bucket =>
      ∃ curr, taken = curr.toList ∧
        (shashRmBucket state.next state.table elm bucket fn.shCmpFn).Returns
          (state.table.shBucket bucket) ⟨curr, after.next, after.table⟩
  | .takeoutElm elm =>
      ∃ curr, taken = curr.toList ∧
        (shashTakeoutElm state.next state.table elm (index elm) fn.shCmpFn).Returns
          (state.table.shBucket (index elm)) ⟨curr, after.next, after.table⟩
  | .iterRmCurr iter =>
      ∃ curr back, taken = curr.toList ∧ after.table = state.table ∧
        shashIterRmCurr state.next state.table iter = some (curr, after.next, back)
  | .filter newlst selectFn =>
      ∃ vars : ShashFilterVars ρ, taken = vars.moved ∧ after = ⟨vars.next, state.table⟩ ∧
        (shashFilter state.table newlst selectFn).Returns (shashFilterStart state.next) vars
  | .clear =>
      after.table = state.table ∧
        (shashIterLoop state.table fun _ => true).Returns (shashIterStart state.next state.table)
          (after.next, taken)

def shashTransition (fn : ShashFn ρ) : Transition (ShashState ρ) (ShashOp ρ) (List ρ) :=
  ⟨shashStep fn⟩

/-! ## The law -/

/-- `sh_elm_cnt` is the number of the elements linked in the table. -/
def ShashCounts (state : ShashState ρ) : Prop :=
  ∃ lists, ShashHolds state.next state.table lists ∧
    state.table.shElmCnt = (elements state.table.shBkSize lists).length

/-- A call leaves the count right and `NULL` in the link of every element it took out. -/
def ShashRight (_ : ShashState ρ) (_ : ShashOp ρ) (after : ShashState ρ) (taken : List ρ) : Prop :=
  ShashCounts after ∧ ∀ elm ∈ taken, after.next elm = none

/-- A link that is in no bucket and is no bucket head, while the count has room. -/
def ShashFresh (state : ShashState ρ) (lists : Nat → List ρ) (elm : ρ) : Prop :=
  (∀ i < state.table.shBkSize, elm ∉ state.table.shBucket i :: lists i) ∧
    state.table.shElmCnt + 1 < 2 ^ 31

/-- Callers insert links that are in no list while the count is an `int`, they hash to a bucket and
take out the element the comparison finds. Nothing leaves the table through an iterator, a filter
or `clear`. -/
def ShashKeeps (fn : ShashFn ρ) (state : ShashState ρ) (lists : Nat → List ρ) :
    ShashOp ρ → Prop
  | .insertElm elm =>
      fn.shHashFn state.table.shBkSize elm < state.table.shBkSize ∧ ShashFresh state lists elm
  | .insertBucket elm index => index < state.table.shBkSize ∧ ShashFresh state lists elm
  | .rm elm => fn.shHashFn state.table.shBkSize elm < state.table.shBkSize
  | .rmBucket _ index => index < state.table.shBkSize
  | .takeoutElm elm =>
      fn.shHashFn state.table.shBkSize elm < state.table.shBkSize ∧
        (lists (fn.shHashFn state.table.shBkSize elm)).find?
          (fun other => fn.shCmpFn other elm = 0) = some elm
  | .iterRmCurr iter => iter.shIter.slCurr = none
  | .filter _ selectFn => ∀ i < state.table.shBkSize, ∀ elm ∈ lists i, selectFn elm i = false
  | .clear => elements state.table.shBkSize lists = []

/-- The same of the lists that are in the memory. -/
def ShashGuard (fn : ShashFn ρ) (state : ShashState ρ) (op : ShashOp ρ) : Prop :=
  ∃ lists, ShashHolds state.next state.table lists ∧ ShashKeeps fn state lists op

variable {fn : ShashFn ρ} {next : SlNext ρ} {table : ShashTable ρ} {lists : Nat → List ρ}
  {elm : ρ} {index : Nat}

omit [DecidableEq ρ] in
/-- The count is the one of the lists in the memory. -/
theorem ShashCounts.of_holds (counts : ShashCounts ⟨next, table⟩)
    (holds : ShashHolds next table lists) :
    table.shElmCnt = (elements table.shBkSize lists).length := by
  obtain ⟨other, also, counted⟩ := counts
  rw [← elements_congr (holds.unique also)]
  exact counted

/-! ## Each operation -/

/-- An insertion of a fresh link counts it. -/
theorem shashAddBucket_counts (holds : ShashHolds next table lists)
    (counted : table.shElmCnt = (elements table.shBkSize lists).length)
    (inside : index < table.shBkSize) (fresh : ShashFresh ⟨next, table⟩ lists elm) :
    ∃ after left, shashAddBucket next table elm index = some (after, left) ∧
      ShashCounts ⟨after, left⟩ := by
  refine ⟨slinkAddFront next (table.shBucket index) elm,
    { table with shElmCnt := table.shElmCnt + 1 }, ?_, ?_⟩
  · unfold shashAddBucket intValue
    rw [if_pos inside, if_pos fresh.2]
    rfl
  · have added := holds.addFront inside fresh.1
    refine ⟨_, ⟨added.positive, added.chain, added.apart⟩, ?_⟩
    have length := length_elements_update inside lists (elm :: lists index)
    rw [List.length_cons] at length
    change table.shElmCnt + 1 = _
    simp only
    omega

/-- An element that is found in its bucket is taken out, and its link is `NULL`. -/
theorem slinkFindLoop_takes (holds : ShashHolds next table lists)
    (counted : table.shElmCnt = (elements table.shBkSize lists).length)
    (inside : index < table.shBkSize) {cmp : ρ → ρ → Int} {link : ρ}
    (found : (lists index).find? (fun other => cmp other elm = 0) = some link) :
    ∃ result, (slinkFindLoop next (table.shBucket index) elm cmp true).Returns
        (table.shBucket index) result ∧ result.found = some link ∧ result.next link = none ∧
      ShashCounts ⟨result.next, { table with shElmCnt := table.shElmCnt - 1 }⟩ := by
  obtain ⟨equal, before, rest, split, others⟩ := List.find?_eq_some_iff_append.mp found
  have chain := holds.chain index inside
  rw [split] at chain
  obtain ⟨front, last, joined, returned⟩ := slinkFindLoop_some chain elm cmp true
    (by simpa using others) (of_decide_eq_true equal)
  rw [if_pos rfl] at returned
  refine ⟨_, returned, rfl, update_self .., ?_⟩
  have cells : table.shBucket index :: lists index = front ++ last :: link :: rest := by
    rw [split, ← List.cons_append, joined, List.append_assoc, List.singleton_append]
  have removed := holds.remove inside cells (before ++ rest)
    (by rw [← List.cons_append, joined, List.append_assoc, List.singleton_append])
  refine ⟨_, ⟨removed.positive, removed.chain, removed.apart⟩, ?_⟩
  have length := length_elements_update inside lists (before ++ rest)
  rw [split] at length
  simp only [List.length_append, List.length_cons] at length
  change table.shElmCnt - 1 = _
  simp only
  omega

private theorem shashRmBucket_eq (next : SlNext ρ) (elm : ρ) (inside : index < table.shBkSize)
    (cmp : ρ → ρ → Int) : shashRmBucket next table elm index cmp =
      (slinkFindLoop next (table.shBucket index) elm cmp true).andThen fun found =>
        some ⟨found.found, found.next, if found.found = none then table else
          { table with shElmCnt := table.shElmCnt - 1 }⟩ := by
  simp only [shashRmBucket, inside, if_true]

private theorem shashTakeoutElm_eq (next : SlNext ρ) (elm : ρ) (inside : index < table.shBkSize)
    (cmp : ρ → ρ → Int) : shashTakeoutElm next table elm index cmp =
      (slinkFindLoop next (table.shBucket index) elm cmp true).andThen fun found =>
        if found.found = some elm then
          some ⟨some elm, found.next, { table with shElmCnt := table.shElmCnt - 1 }⟩
        else none := by
  simp only [shashTakeoutElm, inside, if_true]

/-- `shash_rm` and `shash_rm_bucket`. -/
theorem shashRmBucket_right (holds : ShashHolds next table lists)
    (counted : table.shElmCnt = (elements table.shBkSize lists).length)
    (inside : index < table.shBkSize) (elm : ρ) (cmp : ρ → ρ → Int) :
    ∃ result, (shashRmBucket next table elm index cmp).Returns (table.shBucket index) result ∧
      ShashCounts ⟨result.next, result.table⟩ ∧ ∀ link ∈ result.curr, result.next link = none := by
  rw [shashRmBucket_eq next elm inside cmp]
  cases found : (lists index).find? fun other => cmp other elm = 0 with
  | none =>
      have returned := slinkFindLoop_none (holds.chain index inside) elm cmp true
        (by simpa using List.find?_eq_none.mp found)
      exact ⟨_, returned.andThen rfl, ⟨lists, holds, counted⟩, by simp⟩
  | some link =>
      obtain ⟨result, returned, same, reset, counts⟩ :=
        slinkFindLoop_takes holds counted inside found
      refine ⟨_, returned.andThen rfl, ?_, ?_⟩
      · simpa [same] using counts
      · simpa [same] using reset

/-- `shash_takeout_elm` of the element that the comparison finds. -/
theorem shashTakeoutElm_right (holds : ShashHolds next table lists)
    (counted : table.shElmCnt = (elements table.shBkSize lists).length)
    (inside : index < table.shBkSize) {cmp : ρ → ρ → Int}
    (found : (lists index).find? (fun other => cmp other elm = 0) = some elm) :
    ∃ result, (shashTakeoutElm next table elm index cmp).Returns (table.shBucket index) result ∧
      ShashCounts ⟨result.next, result.table⟩ ∧ ∀ link ∈ result.curr, result.next link = none := by
  obtain ⟨result, returned, same, reset, counts⟩ := slinkFindLoop_takes holds counted inside found
  rw [shashTakeoutElm_eq next elm inside cmp]
  exact ⟨_, returned.andThen (if_pos same), counts, by simpa using reset⟩

/-- `clear` on a table without elements. -/
theorem clear_right (holds : ShashHolds next table lists)
    (counted : table.shElmCnt = (elements table.shBkSize lists).length)
    (empty : elements table.shBkSize lists = []) :
    ∃ after, (shashIterLoop table fun _ => true).Returns (shashIterStart next table) (after, []) ∧
      ShashCounts ⟨after, table⟩ := by
  obtain ⟨after, returned, held⟩ := shashIterLoop_returns holds fun _ => true
  rw [empty] at returned
  refine ⟨after, returned, _, held, ?_⟩
  have none : elements table.shBkSize (fun i => (lists i).filter fun _ => !true) = [] := by
    simp [elements]
  rw [counted, empty, none]

variable {state : ShashState ρ} {op : ShashOp ρ}

omit [DecidableEq ρ] in
/-- An insertion has one outcome. -/
theorem shashRight_of_adds {added : Option (SlNext ρ × ShashTable ρ)}
    (counts : ∃ after left, added = some (after, left) ∧ ShashCounts ⟨after, left⟩) :
    (∃ (after : ShashState ρ) (taken : List ρ),
        taken = [] ∧ added = some (after.next, after.table)) ∧
      ∀ (after : ShashState ρ) (taken : List ρ),
        taken = [] ∧ added = some (after.next, after.table) → ShashRight state op after taken := by
  obtain ⟨after, left, rfl, right⟩ := counts
  refine ⟨⟨⟨after, left⟩, [], rfl, rfl⟩, ?_⟩
  rintro ⟨other, result⟩ taken ⟨rfl, again⟩
  cases again
  exact ⟨right, by simp⟩

omit [DecidableEq ρ] in
/-- A removal that compares has one outcome. -/
theorem shashRight_of_takes {removal : Loop ρ (ShashRemoved ρ)} {head : ρ}
    (counts : ∃ result, removal.Returns head result ∧ ShashCounts ⟨result.next, result.table⟩ ∧
      ∀ link ∈ result.curr, result.next link = none) :
    (∃ (after : ShashState ρ) (taken : List ρ) (curr : Option ρ),
        taken = curr.toList ∧ removal.Returns head ⟨curr, after.next, after.table⟩) ∧
      ∀ (after : ShashState ρ) (taken : List ρ),
        (∃ curr : Option ρ,
          taken = curr.toList ∧ removal.Returns head ⟨curr, after.next, after.table⟩) →
            ShashRight state op after taken := by
  obtain ⟨result, returned, right, reset⟩ := counts
  refine ⟨⟨⟨result.next, result.table⟩, _, result.curr, rfl, returned⟩, ?_⟩
  rintro ⟨other, last⟩ taken ⟨curr, rfl, again⟩
  cases returned.unique again
  exact ⟨right, by simpa using reset⟩

/-- A call that meets the guard has an outcome, and all its outcomes are right. -/
theorem shashStep_right (fn : ShashFn ρ) (state : ShashState ρ) (op : ShashOp ρ)
    (counts : ShashCounts state) (guard : ShashGuard fn state op) :
    (∃ after taken, shashStep fn state op after taken) ∧
      ∀ after taken, shashStep fn state op after taken → ShashRight state op after taken := by
  obtain ⟨next, table⟩ := state
  obtain ⟨lists, holds, keeps⟩ := guard
  have counted := counts.of_holds holds
  cases op with
  | insertElm elm =>
      exact shashRight_of_adds (shashAddBucket_counts holds counted keeps.1 keeps.2)
  | insertBucket elm index =>
      exact shashRight_of_adds (shashAddBucket_counts holds counted keeps.1 keeps.2)
  | rm elm => exact shashRight_of_takes (shashRmBucket_right holds counted keeps elm fn.shCmpFn)
  | rmBucket elm index =>
      exact shashRight_of_takes (shashRmBucket_right holds counted keeps elm fn.shCmpFn)
  | takeoutElm elm =>
      exact shashRight_of_takes (shashTakeoutElm_right holds counted keeps.1 keeps.2)
  | iterRmCurr iter =>
      have nothing : shashIterRmCurr next table iter = some (none, next, iter) := by
        have ended : iter.shIter.slCurr = none := keeps
        simp only [shashIterRmCurr, ended]
      refine ⟨⟨⟨next, table⟩, _, none, iter, rfl, rfl, nothing⟩, ?_⟩
      rintro ⟨other, last⟩ taken ⟨curr, back, rfl, rfl, again⟩
      rw [nothing] at again
      cases again
      exact ⟨counts, by simp⟩
  | filter newlst selectFn =>
      have returned := shashFilter_none newlst holds keeps
      refine ⟨⟨_, _, _, rfl, rfl, returned⟩, ?_⟩
      rintro after taken ⟨vars, rfl, rfl, again⟩
      cases returned.unique again
      exact ⟨counts, by simp⟩
  | clear =>
      obtain ⟨after, returned, right⟩ := clear_right holds counted keeps
      refine ⟨⟨⟨after, table⟩, _, rfl, returned⟩, ?_⟩
      rintro ⟨other, last⟩ taken ⟨rfl, again⟩
      cases returned.unique again
      exact ⟨right, by simp⟩

/-- **The count and the links.** In a history whose calls all meet the guard, every call has an
outcome, and after every call `sh_elm_cnt` is the number of the linked elements and the link of
every element taken out is `NULL`. -/
theorem shash_history (fn : ShashFn ρ) {state : ShashState ρ} (counts : ShashCounts state)
    {ops : List (ShashOp ρ)} (meets : (shashTransition fn).Meets (ShashGuard fn) state ops) :
    (shashTransition fn).Answers ShashRight state ops := by
  refine Transition.answers_of_meets ?_ counts meets
  intro before op still guard
  obtain ⟨goes, each⟩ := shashStep_right fn before op still guard
  exact ⟨goes, fun after taken stepped => ⟨(each after taken stepped).1, each after taken stepped⟩⟩

/-- Links are compared by their addresses, and there is one bucket. -/
private def byAddress : ShashFn Nat := ⟨fun _ _ => 0, fun a b => a - b⟩

/-- A table of one bucket at address 0, without elements. -/
private def oneBucket : ShashState Nat := ⟨fun _ => none, ⟨fun _ => 0, 1, 0⟩⟩

private theorem oneBucket_holds : ShashHolds oneBucket.next oneBucket.table fun _ => [] where
  positive := by decide
  chain := by decide
  apart := by
    intro i first j second differ
    change i < 1 at first
    change j < 1 at second
    omega

/-- A link goes in and the table is filtered. -/
theorem shash_history_two : (shashTransition byAddress).Answers ShashRight
    oneBucket [.insertElm 5, .filter 9 fun elm _ => elm = 7] := by
  have added : ShashHolds (slinkAddFront oneBucket.next 0 5) ⟨fun _ => 0, 1, 1⟩
      (update (fun _ => []) 0 [5]) := by
    have inside : 0 < oneBucket.table.shBkSize := by decide
    have fresh : ∀ i < oneBucket.table.shBkSize, 5 ∉ oneBucket.table.shBucket i :: [] := by decide
    have holds := oneBucket_holds.addFront inside fresh
    exact ⟨holds.positive, holds.chain, holds.apart⟩
  apply shash_history _ ⟨_, oneBucket_holds, rfl⟩
  refine ⟨⟨_, oneBucket_holds, by decide, by decide, by decide⟩, ?_⟩
  rintro ⟨next, table⟩ taken ⟨rfl, inserted⟩
  cases inserted
  have unselected : ∀ i < 1, ∀ elm ∈ update (fun _ => ([] : List Nat)) 0 [5] i,
      decide (elm = 7) = false := by decide
  exact ⟨⟨_, added, unselected⟩, fun _ _ _ => trivial⟩

/-- The same table with two elements. -/
private def twoLinked : ShashState Nat :=
  ⟨slinkAddFront (slinkAddFront oneBucket.next 0 5) 0 6, ⟨fun _ => 0, 1, 2⟩⟩

/-- The first of two elements is removed through an iterator: its link still points to the other
one. -/
theorem shash_history_wrong : ¬ (shashTransition byAddress).Answers ShashRight oneBucket
    [.insertElm 5, .insertElm 6, .iterRmCurr ⟨some 0, ⟨some 0, some 6⟩⟩] := by
  rintro ⟨-, first⟩
  obtain ⟨-, -, second⟩ :=
    first ⟨slinkAddFront oneBucket.next 0 5, ⟨fun _ => 0, 1, 1⟩⟩ [] ⟨rfl, rfl⟩
  obtain ⟨-, -, third⟩ := second twoLinked [] ⟨rfl, rfl⟩
  have removed : shashIterRmCurr twoLinked.next twoLinked.table ⟨some 0, ⟨some 0, some 6⟩⟩ =
      some (some 6, update twoLinked.next 0 (some 5), ⟨some 0, ⟨some 0, some 0⟩⟩) := by
    rfl
  obtain ⟨⟨-, reset⟩, -⟩ := third ⟨update twoLinked.next 0 (some 5), twoLinked.table⟩ [6]
    ⟨some 6, _, rfl, rfl, removed⟩
  exact absurd (reset 6 (by decide)) (by decide)

end Tvntd
