import Mathlib.Tactic.IntervalCases
import Tvntd.Ctype.ShashLinks

/-! # Removing while iterating

The loop that walks a table with `shash_iter_next` and unlinks the selected
elements with `shash_iter_rm_curr`. A removal moves the iterator back to the link
in front, or, when it emptied its bucket, to the end of the bucket before. From
either place the next step reaches the element behind the one that is gone.
-/

namespace Tvntd

open LinkedCells Buckets Function

variable {ρ : Type*} [DecidableEq ρ]

/-- The variables of the loop, and the elements it looked at. -/
structure ShashWalk (ρ : Type*) where
  next : SlNext ρ
  iter : ShashIter ρ
  visited : List ρ

/-- `for (shash_iter_init; !shash_iter_term; shash_iter_next)`, where the selected elements are
removed. -/
def shashIterLoop (table : ShashTable ρ) (sel : ρ → Bool) :
    Loop (ShashWalk ρ) (SlNext ρ × List ρ) where
  turn walk :=
    if shashIterTerm walk.iter then some (.inr (walk.next, walk.visited))
    else
      walk.iter.shIter.slCurr.bind fun curr =>
        if sel curr then
          (shashIterRmCurr walk.next table walk.iter).map fun (_, next, back) =>
            .inl ⟨next, shashIterNext next table back, walk.visited ++ [curr]⟩
        else
          some (.inl ⟨walk.next, shashIterNext walk.next table walk.iter,
            walk.visited ++ [curr]⟩)

def shashIterStart (next : SlNext ρ) (table : ShashTable ρ) : ShashWalk ρ :=
  ⟨next, shashIterInit next table, []⟩

variable {next : SlNext ρ} {table : ShashTable ρ} {lists : Nat → List ρ} {sel : ρ → Bool}
  {iter : ShashIter ρ} {visited : List ρ}

/-! ## Where the iterator stands -/

/-- The iterator stands at the first element of the buckets from `k` on, or has ended and they are
empty. -/
structure ShashReady (table : ShashTable ρ) (lists : Nat → List ρ) (k : Nat)
    (iter : ShashIter ρ) : Prop where
  ready : Ready table.shBkSize lists k iter.shCurr
  position : ∀ j, iter.shCurr = some j →
    iter.shIter = ⟨some (table.shBucket j), (lists j).head?⟩

omit [DecidableEq ρ] in
theorem shashReady_succ_iff {k : Nat} (empty : lists k = []) :
    ShashReady table lists (k + 1) iter ↔ ShashReady table lists k iter :=
  ⟨fun ready => ⟨(ready_succ_iff empty).mp ready.ready, ready.position⟩,
    fun ready => ⟨(ready_succ_iff empty).mpr ready.ready, ready.position⟩⟩

omit [DecidableEq ρ] in
private theorem slinkIterInit_bucket (holds : ShashHolds next table lists) {k : Nat}
    (inside : k < table.shBkSize) : slinkIterInit next (some (table.shBucket k)) =
      ⟨some (table.shBucket k), (lists k).head?⟩ := by
  unfold slinkIterInit
  rw [Option.bind_some, ChainOf.head_eq (holds.chain k inside)]

omit [DecidableEq ρ] in
private theorem shashIterSkip_ready (holds : ShashHolds next table lists) (position : SlinkIter ρ)
    {left : Nat} : ∀ {k : Nat}, k + left = table.shBkSize →
      ShashReady table lists k (shashIterSkip next table position left k) := by
  induction left with
  | zero =>
      rintro k rfl
      exact ⟨ready_none, fun j none => by cases none⟩
  | succ left ih =>
      intro k sum
      have inside : k < table.shBkSize := by omega
      rw [shashIterSkip, holds.empty_iff inside]
      cases here : lists k with
      | nil =>
          rw [List.isEmpty_nil, if_pos rfl]
          exact (shashReady_succ_iff here).mp (ih (by omega))
      | cons first rest =>
          rw [List.isEmpty_cons, if_neg Bool.false_ne_true, slinkIterInit_bucket holds inside]
          refine ⟨ready_self inside (by simp [here]), ?_⟩
          intro j same
          cases same
          rfl

omit [DecidableEq ρ] in
/-- From the end of a bucket the iterator goes on to the next one. -/
theorem shashIterNext_ready (holds : ShashHolds next table lists) {k : Nat}
    (inside : k < table.shBkSize) {position : SlinkIter ρ}
    (ended : slinkIterTerm ((slinkIterNext next position).getD position) = true) :
    ShashReady table lists (k + 1) (shashIterNext next table ⟨some k, position⟩) := by
  simp only [shashIterNext, ended, if_true]
  exact shashIterSkip_ready holds _ (by omega)

omit [DecidableEq ρ] in
theorem shashIterInit_ready (holds : ShashHolds next table lists) :
    ShashReady table lists 0 (shashIterInit next table) := by
  unfold shashIterInit
  have position := slinkIterInit_bucket holds holds.positive
  rw [position]
  cases here : lists 0 with
  | nil =>
      have first : ShashReady table lists 1
          (shashIterNext next table ⟨some 0, ⟨some (table.shBucket 0), none⟩⟩) :=
        shashIterNext_ready holds holds.positive rfl
      exact (shashReady_succ_iff here).mp first
  | cons elm rest =>
      rw [if_neg (by simp [slinkIterTerm])]
      refine ⟨ready_self holds.positive (by simp [here]), ?_⟩
      rintro j same
      cases same
      rw [here]

/-! ## One turn -/

/-- The position in bucket `k` behind `kept`, in front of `rest`. -/
structure ShashAt (next : SlNext ρ) (table : ShashTable ρ) (lists : Nat → List ρ) (k : Nat)
    (kept rest : List ρ) (iter : ShashIter ρ) : Prop where
  holds : ShashHolds next table lists
  inside : k < table.shBkSize
  list : lists k = kept ++ rest
  position : ∃ front prev, table.shBucket k :: kept = front ++ [prev] ∧
    iter = ⟨some k, ⟨some prev, rest.head?⟩⟩

/-- Behind the current element: at the next one of its bucket, or at the next bucket. -/
def ShashBehind (next : SlNext ρ) (table : ShashTable ρ) (lists : Nat → List ρ) (k : Nat)
    (kept rest : List ρ) (iter : ShashIter ρ) : Prop :=
  if rest = [] then ShashHolds next table lists ∧ lists k = kept ∧
    ShashReady table lists (k + 1) iter
  else ShashAt next table lists k kept rest iter

variable {k : Nat} {kept rest : List ρ} {curr : ρ}

omit [DecidableEq ρ] in
/-- A step of the iterator from a link in front of `rest`. -/
theorem shashIterNext_behind (holds : ShashHolds next table lists) (inside : k < table.shBkSize)
    (list : lists k = kept ++ rest) {front : List ρ} {prev : ρ}
    (split : table.shBucket k :: kept = front ++ [prev]) (before : Option ρ) :
    ShashBehind next table lists k kept rest
      (shashIterNext next table ⟨some k, ⟨before, some prev⟩⟩) := by
  have chain := holds.chain k inside
  rw [list, ← List.cons_append, split] at chain
  have behind : next prev = rest.head? := ChainOf.next_eq front (by simpa using chain)
  cases rest with
  | nil =>
      rw [ShashBehind, if_pos rfl]
      refine ⟨holds, by rw [list, List.append_nil], shashIterNext_ready holds inside ?_⟩
      simp [slinkIterNext, slinkIterTerm, behind]
  | cons elm rest =>
      rw [ShashBehind, if_neg (List.cons_ne_nil elm rest)]
      refine ⟨holds, inside, list, front, prev, split, ?_⟩
      simp [shashIterNext, slinkIterNext, slinkIterTerm, behind]

omit [DecidableEq ρ] in
/-- Keeping the current element. -/
theorem ShashAt.keep (at_ : ShashAt next table lists k kept (curr :: rest) iter) :
    ShashBehind next table lists k (kept ++ [curr]) rest (shashIterNext next table iter) := by
  obtain ⟨holds, inside, list, front, prev, split, rfl⟩ := at_
  have moved : table.shBucket k :: (kept ++ [curr]) = (front ++ [prev]) ++ [curr] := by
    rw [← List.cons_append, split]
  apply shashIterNext_behind holds inside _ moved
  rw [list, List.append_assoc, List.singleton_append]

/-- A removal that emptied its bucket puts the iterator at the end of the bucket before, and the
next step goes past the emptied one. -/
theorem shashIterBack_ready (holds : ShashHolds next table lists) (inside : k < table.shBkSize)
    (empty : lists k = []) : ShashReady table lists (k + 1) (shashIterNext next table
      (shashIterBack next table (some k) (table.shBucket k))) := by
  have ended : next (table.shBucket k) = none := by
    rw [ChainOf.head_eq (holds.chain k inside), empty]
    rfl
  obtain ⟨position, back, stops⟩ : ∃ position,
      shashIterBack next table (some k) (table.shBucket k) = ⟨some (k - 1), position⟩ ∧
        slinkIterTerm ((slinkIterNext next position).getD position) = true := by
    unfold shashIterBack
    simp only [ended, and_self, if_true]
    cases vacant : slinkEmpty next (table.shBucket (k - 1)) with
    | true =>
        refine ⟨_, if_pos rfl, ?_⟩
        have last : next (table.shBucket (k - 1)) = none := by
          simpa [slinkEmpty] using vacant
        simp [slinkIterInit, slinkIterNext, slinkIterTerm, last]
    | false => exact ⟨_, if_neg Bool.false_ne_true, rfl⟩
  rw [back]
  cases k with
  | zero => exact shashIterNext_ready holds inside stops
  | succ k =>
      apply (shashReady_succ_iff empty).mpr
      exact shashIterNext_ready holds (Nat.lt_of_succ_lt inside) stops

/-- Removing the current element. -/
theorem ShashAt.remove (at_ : ShashAt next table lists k kept (curr :: rest) iter) :
    ∃ after back, shashIterRmCurr next table iter = some (some curr, after, back) ∧
      ShashBehind after table (update lists k (kept ++ rest)) k kept rest
        (shashIterNext after table back) := by
  obtain ⟨holds, inside, list, front, prev, split, rfl⟩ := at_
  have cells : table.shBucket k :: lists k = front ++ prev :: curr :: rest := by
    rw [list, ← List.cons_append, split, List.append_assoc, List.singleton_append]
  have chain := holds.chain k inside
  rw [cells] at chain
  have unlinked := holds.unlink inside cells (kept ++ rest)
    (by rw [← List.cons_append, split, List.append_assoc, List.singleton_append])
  have here : update lists k (kept ++ rest) k = kept ++ rest := update_self ..
  have behind : update next prev (next curr) prev = rest.head? := by
    rw [update_self]
    exact ChainOf.next_eq (front ++ [prev]) (by simpa using chain)
  have removed : shashIterRmCurr next table ⟨some k, ⟨some prev, some curr⟩⟩ =
      some (some curr, update next prev (next curr),
        shashIterBack (update next prev (next curr)) table (some k) prev) := by
    simp [shashIterRmCurr, chain.next_eq _]
  refine ⟨_, _, removed, ?_⟩
  by_cases emptied : update next prev (next curr) prev = none ∧ prev = table.shBucket k
  · -- the removed element was the only one of its bucket
    obtain ⟨last, rfl⟩ := emptied
    rw [behind, List.head?_eq_none_iff] at last
    subst last
    have alone : kept = [] := by
      cases front with
      | nil => exact (List.cons.inj split).2
      | cons head front =>
          obtain ⟨rfl, -⟩ := List.cons.inj split
          simpa using chain.nodup
    subst alone
    rw [ShashBehind, if_pos rfl]
    exact ⟨unlinked, here, shashIterBack_ready unlinked inside here⟩
  · unfold shashIterBack
    simp only [emptied, if_false]
    exact shashIterNext_behind unlinked inside here split _

/-! ## The whole walk -/

/-- One turn: the current element is looked at, and kept or removed. -/
theorem ShashAt.turn (at_ : ShashAt next table lists k kept (curr :: rest) iter)
    (sel : ρ → Bool) (visited : List ρ) :
    ∃ after moved, (shashIterLoop table sel).turn ⟨next, iter, visited⟩ =
        some (.inl ⟨after, moved, visited ++ [curr]⟩) ∧
      ShashBehind after table
        (update lists k ((kept ++ [curr].filter fun elm => !sel elm) ++ rest)) k
        (kept ++ [curr].filter fun elm => !sel elm) rest moved := by
  have current : iter.shIter.slCurr = some curr ∧ shashIterTerm iter = false := by
    obtain ⟨-, -, -, front, prev, -, rfl⟩ := at_
    exact ⟨rfl, rfl⟩
  cases selected : sel curr with
  | true =>
      obtain ⟨after, back, removed, behind⟩ := at_.remove
      refine ⟨after, _, ?_, by simpa [selected] using behind⟩
      simp [shashIterLoop, current, selected, removed]
  | false =>
      have same : update lists k ((kept ++ [curr]) ++ rest) = lists := by
        rw [List.append_assoc, List.singleton_append, ← at_.list, update_eq_self]
      have left : ([curr].filter fun elm => !sel elm) = [curr] := by simp [selected]
      rw [left, same]
      exact ⟨next, _, by simp [shashIterLoop, current, selected], at_.keep⟩

/-- The walk through one bucket. -/
theorem ShashAt.bucket (sel : ρ → Bool) {rest : List ρ} : ∀ {next : SlNext ρ}
    {lists : Nat → List ρ} {kept : List ρ} {iter : ShashIter ρ} (visited : List ρ),
    ShashAt next table lists k kept rest iter → rest ≠ [] →
      ∃ after moved, (shashIterLoop table sel).Goes ⟨next, iter, visited⟩
          ⟨after, moved, visited ++ rest⟩ ∧
        ShashHolds after table
          (update lists k (kept ++ rest.filter fun elm => !sel elm)) ∧
        ShashReady table (update lists k (kept ++ rest.filter fun elm => !sel elm))
          (k + 1) moved := by
  induction rest with
  | nil => exact fun _ _ linked => absurd rfl linked
  | cons curr rest ih =>
      intro next lists kept iter visited at_ _
      obtain ⟨after, moved, goes, behind⟩ := at_.turn sel visited
      have joined : (kept ++ [curr].filter fun elm => !sel elm) ++
          (rest.filter fun elm => !sel elm) = kept ++ (curr :: rest).filter fun elm =>
            !sel elm := by
        rw [List.append_assoc, ← List.filter_append, List.singleton_append]
      unfold ShashBehind at behind
      by_cases last : rest = []
      · subst last
        rw [if_pos rfl, List.append_nil] at behind
        exact ⟨after, moved, .head goes (.refl _), behind.1, behind.2.2⟩
      · rw [if_neg last] at behind
        obtain ⟨final, ends, later, holds, ready⟩ := ih (visited ++ [curr]) behind last
        rw [update_idem, joined] at holds ready
        rw [List.append_assoc, List.singleton_append] at later
        exact ⟨final, ends, later.head goes, holds, ready⟩

omit [DecidableEq ρ] in
/-- Ready for a bucket with elements, the iterator stands at the first of them. -/
theorem ShashReady.at_front (ready : ShashReady table lists k iter)
    (holds : ShashHolds next table lists) (inside : k < table.shBkSize) (some : lists k ≠ []) :
    ShashAt next table lists k [] (lists k) iter := by
  have at_ := ready.ready.eq_some inside some
  refine ⟨holds, inside, rfl, [], table.shBucket k, rfl, ?_⟩
  rw [← at_, ← ready.position k at_]

/-- The walk through the buckets from `k` on. -/
theorem ShashReady.walk (sel : ρ → Bool) {left : Nat} : ∀ {k : Nat} {next : SlNext ρ}
    {lists : Nat → List ρ} {iter : ShashIter ρ} (visited : List ρ), k + left = table.shBkSize →
    ShashHolds next table lists → ShashReady table lists k iter →
      ∃ after, (shashIterLoop table sel).Returns ⟨next, iter, visited⟩
          (after, visited ++ (List.range' k left).flatMap lists) ∧
        ShashHolds after table (filteredFrom (fun elm => !sel elm) lists k) := by
  induction left with
  | zero =>
      intro k next lists iter visited sum holds ready
      have ended : shashIterTerm iter = true := by
        rw [Nat.add_zero] at sum
        subst sum
        simp [shashIterTerm, ready.ready.eq_none]
      have same : ∀ i < table.shBkSize, filteredFrom (fun elm => !sel elm) lists k i = lists i :=
        fun i inside => if_neg (by omega)
      refine ⟨next, Loop.returns_of_done ?_, ?_⟩
      · simp [shashIterLoop, ended]
      · exact holds.congr same
  | succ left ih =>
      intro k next lists iter visited sum holds ready
      have inside : k < table.shBkSize := by omega
      cases here : lists k with
      | nil =>
          obtain ⟨after, returned, held⟩ := ih visited (by omega) holds
            ((shashReady_succ_iff here).mpr ready)
          have same : update lists k ((lists k).filter fun elm => !sel elm) = lists := by
            rw [here, List.filter_nil, ← here, update_eq_self]
          rw [← filteredFrom_succ, same]
          refine ⟨after, ?_, held⟩
          rw [List.range'_succ, List.flatMap_cons, here, List.nil_append]
          exact returned
      | cons curr rest =>
          have some : lists k ≠ [] := by simp [here]
          obtain ⟨after, moved, goes, held, later⟩ :=
            (ready.at_front holds inside some).bucket sel visited some
          obtain ⟨final, returned, ends⟩ := ih _ (by omega) held later
          rw [List.nil_append, filteredFrom_succ] at ends
          refine ⟨final, ?_, ends⟩
          have beyond : (List.range' (k + 1) left).flatMap
              (update lists k ([] ++ (lists k).filter fun elm => !sel elm)) =
                (List.range' (k + 1) left).flatMap lists := by
            apply List.flatMap_congr
            intro i member
            rw [List.mem_range'_1] at member
            rw [update_of_ne (by omega)]
          rw [beyond, List.append_assoc] at returned
          rw [List.range'_succ, List.flatMap_cons]
          exact goes.returns_iff.mpr returned

/-- The loop looks at the elements bucket by bucket and removes the selected ones. -/
theorem shashIterLoop_returns (holds : ShashHolds next table lists) (sel : ρ → Bool) :
    ∃ after, (shashIterLoop table sel).Returns (shashIterStart next table)
        (after, elements table.shBkSize lists) ∧
      ShashHolds after table fun i => (lists i).filter fun elm => !sel elm := by
  obtain ⟨after, returned, held⟩ :=
    (shashIterInit_ready holds).walk sel [] (Nat.zero_add _) holds
  rw [← List.range_eq_range'] at returned
  exact ⟨after, returned, held.congr fun i _ => (if_pos (Nat.zero_le i)).symm⟩

/-- **Removing while iterating.** For every table and every predicate the loop returns, having
looked at every element once; it leaves the buckets with the elements that do not satisfy the
predicate, in their order. -/
theorem shash_iter_removes (holds : ShashHolds next table lists) (sel : ρ → Bool) :
    (elements table.shBkSize lists).Nodup ∧
    ∃ after, (shashIterLoop table sel).Returns (shashIterStart next table)
        (after, elements table.shBkSize lists) ∧
      ShashHolds after table fun i => (lists i).filter fun elm => !sel elm :=
  ⟨holds.nodup, shashIterLoop_returns holds sel⟩

/-- Two buckets, with one and two elements; the first element of the second one goes. -/
theorem shash_iter_removes_three :
    ∃ after, (shashIterLoop ⟨id, 2, 3⟩ fun elm => elm = 11).Returns
        (shashIterStart (fun link => if link = 0 then some 10 else if link = 1 then some 11
          else if link = 11 then some 12 else none) ⟨id, 2, 3⟩) (after, [10, 11, 12]) ∧
      after 1 = some 12 := by
  have holds : ShashHolds (fun link => if link = 0 then some 10 else if link = 1 then some 11
      else if link = 11 then some 12 else none) ⟨id, 2, 3⟩
        fun i => if i = 0 then [10] else [11, 12] := by
    constructor
    · decide
    · decide
    · intro i first j second differ
      change i < 2 at first
      change j < 2 at second
      interval_cases i <;> interval_cases j <;> simp_all
  obtain ⟨-, after, returned, held⟩ := shash_iter_removes holds fun elm => elm = 11
  exact ⟨after, returned, ChainOf.head_eq (held.chain 1 (by decide))⟩

end Tvntd
