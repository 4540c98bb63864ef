import Tvntd.Lib.Buckets
import Tvntd.Lib.Loop
import Tvntd.Ctype.DhashRehash

/-! # Removing while iterating over rings

`dhash_iter_rm_curr` moves the iterator to the link in front. In front of the
first link of a bucket is the head of the bucket, and there the iterator is moved
to the first link of the bucket before, not to its end: the next step goes on
with the second link of that bucket, and the links from there on are visited
again. Every removal at the front of a bucket costs one such round.
-/

namespace Tvntd

open Buckets Function

variable {ε : Type*} [DecidableEq ε]

/-- The variables of the loop, and the elements it looked at. -/
structure DhashWalk (ε : Type*) where
  table : Dhash ε
  iter : DhashIter
  visited : List ε

/-- `for (dhash_iter_init; !dhash_iter_term; dhash_iter_next)`, where the selected elements are
removed. A position on a list head is no element. -/
def dhashIterLoop (sel : ε → Bool) : Loop (DhashWalk ε) (Dhash ε × List ε) where
  turn walk :=
    match walk.iter.dhCurr with
    | none => some (.inr (walk.table, walk.visited))
    | some curr =>
        if walk.iter.dhIter = 0 then none
        else
          (walk.table.dhBucket curr)[walk.iter.dhIter - 1]?.bind fun elm =>
            if sel elm then
              (dhashIterRmCurr walk.table walk.iter).map fun (_, rest, back) =>
                .inl ⟨rest, dhashIterNext rest back, walk.visited ++ [elm]⟩
            else
              some (.inl ⟨walk.table, dhashIterNext walk.table walk.iter,
                walk.visited ++ [elm]⟩)

def dhashIterStart (table : Dhash ε) : DhashWalk ε := ⟨table, dhashIterInit table, []⟩

/-- The buckets of a table hold these lists, every link once, and all are counted. -/
structure DhashHolds (table : Dhash ε) (size : Nat) (lists : Nat → List ε) : Prop where
  positive : 0 < size
  sized : table.dhBkSize = size
  bucket : ∀ i < size, table.dhBucket i = lists i
  nodup : (elements size lists).Nodup
  count : table.dhElmCnt = (elements size lists).length

variable {table : Dhash ε} {size k : Nat} {lists : Nat → List ε} {sel : ε → Bool}
  {iter : DhashIter} {visited done rest : List ε} {elm : ε}

omit [DecidableEq ε] in
/-- Only the buckets of the table count. -/
theorem DhashHolds.congr (holds : DhashHolds table size lists) {other : Nat → List ε}
    (same : ∀ i < size, other i = lists i) : DhashHolds table size other where
  positive := holds.positive
  sized := holds.sized
  bucket := fun i inside => (holds.bucket i inside).trans (same i inside).symm
  nodup := by
    rw [elements_congr same]
    exact holds.nodup
  count := by
    rw [elements_congr same]
    exact holds.count

/-- `dhash_takeout_elm` of a link of the table. -/
theorem DhashHolds.takeout (holds : DhashHolds table size lists) (inside : k < size)
    (list : lists k = done ++ elm :: rest) :
    DhashHolds (dhashTakeoutElm table elm) size (update lists k (done ++ rest)) := by
  have here : elm ∈ lists k := by simp [list]
  have distinct := nodup_of_elements holds.nodup inside
  rw [list] at distinct
  have ahead : elm ∉ done := fun member =>
    (List.nodup_append.mp distinct).2.2 elm member elm List.mem_cons_self rfl
  have length := length_elements_update inside lists (done ++ rest)
  rw [list, List.length_append, List.length_append, List.length_cons] at length
  constructor
  · exact holds.positive
  · exact holds.sized
  · intro i bounded
    change (table.dhBucket i).erase elm = _
    rw [holds.bucket i bounded]
    by_cases same : i = k
    · subst same
      rw [update_self, list, List.erase_append_right _ ahead, List.erase_cons_head]
    · rw [update_of_ne same]
      apply List.erase_of_not_mem
      exact fun member => same (eq_of_nodup holds.nodup bounded inside member here)
  · refine List.Nodup.sublist (elements_sublist ?_) holds.nodup
    intro i bounded
    by_cases same : i = k
    · subst same
      rw [update_self, list]
      exact List.Sublist.append_left (List.sublist_cons_self elm rest) done
    · rw [update_of_ne same]
  · change table.dhElmCnt - 1 = _
    rw [holds.count]
    omega

/-! ## Where the iterator stands -/

/-- The iterator stands at the first element of the buckets from `k` on, or has ended and they are
empty. -/
structure DhashReady (size : Nat) (lists : Nat → List ε) (k : Nat) (iter : DhashIter) : Prop where
  ready : Ready size lists k iter.dhCurr
  position : ∀ j, iter.dhCurr = some j → iter.dhIter = 1

/-- The position in bucket `k` behind `done`, in front of `rest`. -/
structure DhashAt (table : Dhash ε) (size : Nat) (lists : Nat → List ε) (k : Nat)
    (done rest : List ε) (iter : DhashIter) : Prop where
  holds : DhashHolds table size lists
  inside : k < size
  list : lists k = done ++ rest
  position : iter = ⟨some k, done.length + 1⟩

/-- Behind the current element: at the next one of its bucket, or at the next bucket. -/
def DhashBehind (table : Dhash ε) (size : Nat) (lists : Nat → List ε) (k : Nat)
    (done rest : List ε) (iter : DhashIter) : Prop :=
  if rest = [] then DhashHolds table size lists ∧ lists k = done ∧
    DhashReady size lists (k + 1) iter
  else DhashAt table size lists k done rest iter

omit [DecidableEq ε] in
private theorem dhashIterSkip_ready (holds : DhashHolds table size lists) {left : Nat} :
    ∀ {k : Nat}, k + left = size → DhashReady size lists k (dhashIterSkip table left k) := by
  induction left with
  | zero =>
      rintro k rfl
      exact ⟨ready_none, fun j none => by cases none⟩
  | succ left ih =>
      intro k sum
      have inside : k < size := by omega
      rw [dhashIterSkip, holds.bucket k inside]
      cases here : lists k with
      | nil =>
          rw [List.isEmpty_nil, if_pos rfl]
          have later := ih (k := k + 1) (by omega)
          exact ⟨(ready_succ_iff here).mp later.ready, later.position⟩
      | cons first rest =>
          rw [List.isEmpty_cons, if_neg Bool.false_ne_true]
          exact ⟨ready_self inside (by simp [here]), fun _ _ => rfl⟩

omit [DecidableEq ε] in
/-- A step of the iterator from behind `done`, which is the head of the ring only in bucket 0. -/
theorem dhashIterNext_behind (holds : DhashHolds table size lists) (inside : k < size)
    (list : lists k = done ++ rest) (entered : done ≠ [] ∨ k = 0) :
    DhashBehind table size lists k done rest (dhashIterNext table ⟨some k, done.length⟩) := by
  have bucket : table.dhBucket k = done ++ rest := (holds.bucket k inside).trans list
  have goes : (!dlistIterTerm done.length || decide (k = 0)) = true := by
    rcases entered with some | first
    · simp [dlistIterTerm, some]
    · simp [first]
  unfold DhashBehind
  cases rest with
  | nil =>
      rw [if_pos rfl]
      refine ⟨holds, by rw [list, List.append_nil], ?_⟩
      have ended : dlistIterNext (table.dhBucket k) done.length = 0 := by
        simp [dlistIterNext, bucket]
      simp only [dhashIterNext, ended, dlistIterTerm, holds.sized, decide_true, Bool.not_true,
        Bool.and_false, Bool.false_eq_true, if_false]
      exact dhashIterSkip_ready holds (by omega)
  | cons next rest =>
      rw [if_neg (List.cons_ne_nil next rest)]
      have moved : dlistIterNext (table.dhBucket k) done.length = done.length + 1 := by
        simp [dlistIterNext, bucket]
      refine ⟨holds, inside, list, ?_⟩
      simp only [dhashIterNext, moved, goes, Bool.true_and]
      rfl

omit [DecidableEq ε] in
/-- Keeping the current element. -/
theorem DhashAt.keep (at_ : DhashAt table size lists k done (elm :: rest) iter) :
    DhashBehind table size lists k (done ++ [elm]) rest (dhashIterNext table iter) := by
  obtain ⟨holds, inside, list, rfl⟩ := at_
  have passed : lists k = (done ++ [elm]) ++ rest := by
    rw [list, List.append_assoc, List.singleton_append]
  have moved := dhashIterNext_behind holds inside passed (Or.inl (by simp))
  rw [List.length_append, List.length_singleton] at moved
  exact moved

private theorem dhashIterRmCurr_eq (holds : DhashHolds table size lists) (inside : k < size)
    (list : lists k = done ++ elm :: rest) :
    dhashIterRmCurr table ⟨some k, done.length + 1⟩ = some (elm, dhashTakeoutElm table elm,
      if done = [] ∧ k ≠ 0 then
        ⟨some (k - 1), dlistIterInit ((dhashTakeoutElm table elm).dhBucket (k - 1))⟩
      else ⟨some k, done.length⟩) := by
  have current : (table.dhBucket k)[done.length]? = some elm := by
    rw [holds.bucket k inside, list, List.getElem?_append_right (Nat.le_refl _), Nat.sub_self]
    rfl
  unfold dhashIterRmCurr
  simp only [Option.bind_some, Nat.add_sub_cancel, current, Option.map_some, dlistIterPrev,
    Nat.add_one_ne_zero, if_false]
  cases done with
  | nil =>
      by_cases first : k = 0
      · simp [dlistIterTerm, first]
      · simp [dlistIterTerm, first, Nat.pos_of_ne_zero first]
  | cons head done => simp [dlistIterTerm]

/-- Removing an element that is not the first of its bucket, or one of bucket 0. -/
theorem DhashAt.remove (at_ : DhashAt table size lists k done (elm :: rest) iter)
    (entered : done ≠ [] ∨ k = 0) :
    ∃ after back, dhashIterRmCurr table iter = some (elm, after, back) ∧
      DhashBehind after size (update lists k (done ++ rest)) k done rest
        (dhashIterNext after back) := by
  obtain ⟨holds, inside, list, rfl⟩ := at_
  have removed := dhashIterRmCurr_eq holds inside list
  rw [if_neg (by rintro ⟨none, other⟩; exact entered.elim (· none) other)] at removed
  exact ⟨_, _, removed, dhashIterNext_behind (holds.takeout inside list) inside
    (update_self ..) entered⟩

/-- Removing the first element of a later bucket: the iterator goes on behind the first link of the
bucket before, if that has one. -/
theorem DhashAt.removeFirst (at_ : DhashAt table size lists (k + 1) [] (elm :: rest) iter) :
    ∃ after back, dhashIterRmCurr table iter = some (elm, after, back) ∧
      match lists k with
      | [] => DhashHolds after size (update lists (k + 1) rest) ∧
          DhashReady size (update lists (k + 1) rest) (k + 1) (dhashIterNext after back)
      | first :: again => DhashBehind after size (update lists (k + 1) rest) k [first]
          again (dhashIterNext after back) := by
  obtain ⟨holds, inside, list, rfl⟩ := at_
  have removed := dhashIterRmCurr_eq holds inside list
  rw [if_pos ⟨rfl, Nat.succ_ne_zero k⟩, Nat.add_sub_cancel] at removed
  have left := holds.takeout inside list
  rw [List.nil_append] at left
  have before : k < size := Nat.lt_of_succ_lt inside
  have same : update lists (k + 1) rest k = lists k := update_of_ne (by omega) _ _
  have bucket := (left.bucket k before).trans same
  refine ⟨_, _, removed, ?_⟩
  cases here : lists k with
  | nil =>
      rw [here] at bucket
      refine ⟨left, ?_⟩
      have head : dlistIterInit ((dhashTakeoutElm table elm).dhBucket k) = 0 := by
        rw [bucket]
        rfl
      rw [head, dhashIterNext_of_nil bucket]
      apply dhashIterSkip_ready left
      have sized := left.sized
      omega
  | cons first again =>
      rw [here] at bucket same
      have head : dlistIterInit ((dhashTakeoutElm table elm).dhBucket k) = [first].length := by
        rw [bucket]
        rfl
      rw [head]
      exact dhashIterNext_behind left before same (Or.inl (List.cons_ne_nil first []))

/-! ## Walks through a bucket -/

omit [DecidableEq ε] in
theorem DhashAt.current (at_ : DhashAt table size lists k done (elm :: rest) iter) :
    iter.dhCurr = some k ∧ iter.dhIter ≠ 0 ∧
      (table.dhBucket k)[iter.dhIter - 1]? = some elm := by
  obtain ⟨holds, inside, list, rfl⟩ := at_
  refine ⟨rfl, Nat.succ_ne_zero _, ?_⟩
  rw [holds.bucket k inside, list, Nat.add_sub_cancel, List.getElem?_append_right (Nat.le_refl _),
    Nat.sub_self]
  rfl

/-- A turn at an element that stays. -/
theorem DhashAt.turn_keep (at_ : DhashAt table size lists k done (elm :: rest) iter)
    (stays : sel elm = false) : (dhashIterLoop sel).turn ⟨table, iter, visited⟩ =
      some (.inl ⟨table, dhashIterNext table iter, visited ++ [elm]⟩) := by
  obtain ⟨bucket, link, current⟩ := at_.current
  simp [dhashIterLoop, bucket, link, current, stays]

/-- A turn at an element that goes. -/
theorem DhashAt.turn_remove (at_ : DhashAt table size lists k done (elm :: rest) iter)
    (goes : sel elm = true) {after : Dhash ε} {back : DhashIter}
    (removed : dhashIterRmCurr table iter = some (elm, after, back)) :
    (dhashIterLoop sel).turn ⟨table, iter, visited⟩ =
      some (.inl ⟨after, dhashIterNext after back, visited ++ [elm]⟩) := by
  obtain ⟨bucket, link, current⟩ := at_.current
  simp [dhashIterLoop, bucket, link, current, goes, removed]

/-- The loop gets from one place to another with these visits, and leaves these lists. -/
def DhashPasses (sel : ε → Bool) (size : Nat) (table : Dhash ε) (iter : DhashIter)
    (visits : List ε) (lists : Nat → List ε) (k : Nat) : Prop :=
  ∀ visited, ∃ after moved, (dhashIterLoop sel).Goes ⟨table, iter, visited⟩
      ⟨after, moved, visited ++ visits⟩ ∧
    DhashHolds after size lists ∧ DhashReady size lists k moved

theorem DhashPasses.head {after : Dhash ε} {moved : DhashIter} {visits : List ε}
    (passes : DhashPasses sel size after moved visits lists k)
    (turn : ∀ visited, (dhashIterLoop sel).turn ⟨table, iter, visited⟩ =
      some (.inl ⟨after, moved, visited ++ [elm]⟩)) :
    DhashPasses sel size table iter (elm :: visits) lists k := by
  intro visited
  obtain ⟨last, ends, goes, holds, ready⟩ := passes (visited ++ [elm])
  rw [List.append_assoc, List.singleton_append] at goes
  exact ⟨last, ends, goes.head (turn visited), holds, ready⟩

private theorem dhashPasses_nil (holds : DhashHolds table size lists)
    (ready : DhashReady size lists k iter) :
    DhashPasses sel size table iter [] lists k := fun visited =>
  ⟨table, iter, by rw [List.append_nil]; exact .refl _, holds, ready⟩

/-- Behind a link that stays, or in bucket 0, the rest of the bucket is visited once. -/
theorem DhashBehind.passes (sel : ε → Bool) : ∀ {rest : List ε} {table : Dhash ε}
    {lists : Nat → List ε} {done : List ε} {iter : DhashIter},
    DhashBehind table size lists k done rest iter →
      (done ≠ [] ∨ k = 0) → DhashPasses sel size table iter rest
        (update lists k (done ++ rest.filter fun elm => !sel elm)) (k + 1) := by
  intro rest
  induction rest with
  | nil =>
      intro table lists done iter behind _
      obtain ⟨holds, list, ready⟩ := behind
      rw [List.filter_nil, List.append_nil, ← list, update_eq_self]
      exact dhashPasses_nil holds ready
  | cons elm rest ih =>
      intro table lists done iter behind entered
      have at_ : DhashAt table size lists k done (elm :: rest) iter := behind
      cases selected : sel elm with
      | true =>
          obtain ⟨after, back, removed, later⟩ := at_.remove entered
          have passes := ih later entered
          rw [update_idem] at passes
          rw [List.filter_cons_of_neg (by simp [selected])]
          exact passes.head fun visited => at_.turn_remove selected removed
      | false =>
          have passes := ih at_.keep (Or.inl (by simp))
          rw [List.append_assoc, List.singleton_append] at passes
          rw [List.filter_cons_of_pos (by simp [selected])]
          exact passes.head fun visited => at_.turn_keep selected

theorem DhashPasses.trans {first second : List ε} {between last : Nat → List ε} {j : Nat}
    (passes : DhashPasses sel size table iter first between j)
    (later : ∀ after moved, DhashHolds after size between → DhashReady size between j moved →
      DhashPasses sel size after moved second last k) :
    DhashPasses sel size table iter (first ++ second) last k := by
  intro visited
  obtain ⟨after, moved, goes, holds, ready⟩ := passes visited
  obtain ⟨final, ends, further, held, reached⟩ := later after moved holds ready (visited ++ first)
  rw [List.append_assoc] at further
  exact ⟨final, ends, goes.trans further, held, reached⟩

/-- What the loop visits in a bucket, and of the bucket before: `back` are the links there that are
visited again after every removal at the front. -/
def backTrace (sel : ε → Bool) (back : List ε) : List ε → List ε
  | [] => []
  | elm :: rest => if sel elm then elm :: (back ++ backTrace sel back rest) else elm :: rest

omit [DecidableEq ε] in
theorem DhashReady.front (ready : DhashReady size lists k iter)
    (holds : DhashHolds table size lists)
    (inside : k < size) (linked : lists k ≠ []) : DhashAt table size lists k [] (lists k) iter := by
  have at_ := ready.ready.eq_some inside linked
  refine ⟨holds, inside, rfl, ?_⟩
  rw [List.length_nil, Nat.zero_add, ← at_, ← ready.position k at_]

/-- The rest of a bucket behind whose front nothing is kept yet. -/
theorem DhashReady.passes_succ (inside : k + 1 < size) : ∀ {rest : List ε} {table : Dhash ε}
    {lists : Nat → List ε} {iter : DhashIter}, DhashReady size lists (k + 1) iter →
      DhashHolds table size lists → lists (k + 1) = rest → (∀ elm ∈ lists k, sel elm = false) →
        DhashPasses sel size table iter (backTrace sel (lists k).tail rest)
          (update lists (k + 1) (rest.filter fun elm => !sel elm)) (k + 2) := by
  intro rest
  induction rest with
  | nil =>
      intro table lists iter ready holds list _
      have same : update lists (k + 1) [] =
          lists := by rw [← list, update_eq_self]
      rw [List.filter_nil, same]
      exact dhashPasses_nil holds ⟨(ready_succ_iff list).mpr ready.ready, ready.position⟩
  | cons elm rest ih =>
      intro table lists iter ready holds list kept
      have at_ := ready.front holds inside (by simp [list])
      rw [list] at at_
      cases selected : sel elm with
      | false =>
          rw [backTrace, if_neg (by simp [selected]), List.filter_cons_of_pos (by simp [selected])]
          have passes := DhashBehind.passes sel at_.keep (Or.inl (by simp))
          exact passes.head fun _ => at_.turn_keep selected
      | true =>
          rw [backTrace, if_pos selected, List.filter_cons_of_neg (by simp [selected])]
          obtain ⟨after, back, removed, later⟩ := at_.removeFirst
          have same : update lists (k + 1) rest k = lists k :=
            update_of_ne (by omega) _ _
          have again : ∀ table iter, DhashHolds table size (update lists (k + 1) rest) →
              DhashReady size (update lists (k + 1) rest) (k + 1) iter →
                DhashPasses sel size table iter (backTrace sel (lists k).tail rest)
                  (update lists (k + 1) (rest.filter fun elm => !sel elm)) (k + 2) := by
            intro table iter held waiting
            have passes := ih waiting held (update_self ..) (by rw [same]; exact kept)
            rw [same, update_idem] at passes
            exact passes
          refine DhashPasses.head ?_ fun _ => at_.turn_remove selected removed
          cases before : lists k with
          | nil =>
              rw [before] at later again
              exact again _ _ later.1 later.2
          | cons first others =>
              rw [before] at later same kept again
              -- one round through the links of the bucket before, all of which stay
              have round := DhashBehind.passes sel later (Or.inl (List.cons_ne_nil _ _))
              have stay : [first] ++ others.filter (fun elm => !sel elm) =
                  update lists (k + 1) rest k := by
                rw [same, List.singleton_append, List.cons.injEq, List.filter_eq_self]
                exact ⟨rfl, fun x member => by simp [kept x (List.mem_cons_of_mem _ member)]⟩
              rw [stay, update_eq_self] at round
              exact round.trans again

/-- What the loop visits while it is in one bucket of the table. -/
def visitsOf (sel : ε → Bool) (lists : Nat → List ε) : Nat → List ε
  | 0 => lists 0
  | k + 1 => backTrace sel ((lists k).filter fun elm => !sel elm).tail (lists (k + 1))

theorem DhashReady.passes (ready : DhashReady size lists k iter)
    (holds : DhashHolds table size lists) (inside : k < size)
    (kept : ∀ j, j + 1 = k → ∀ elm ∈ lists j, sel elm = false) :
    DhashPasses sel size table iter (visitsOf sel lists k)
      (update lists k ((lists k).filter fun elm => !sel elm)) (k + 1) := by
  cases k with
  | zero =>
      by_cases list : lists 0 = []
      · have same : update lists 0 [] = lists := by rw [← list, update_eq_self]
        rw [visitsOf, list, List.filter_nil, same]
        exact dhashPasses_nil holds ⟨(ready_succ_iff list).mpr ready.ready, ready.position⟩
      · have behind : DhashBehind table size lists 0 [] (lists 0) iter := by
          unfold DhashBehind
          rw [if_neg list]
          exact ready.front holds inside list
        exact behind.passes sel (Or.inr rfl)
  | succ k =>
      have stay : ((lists k).filter fun elm => !sel elm) = lists k :=
        List.filter_eq_self.mpr fun elm member => by simp [kept k rfl elm member]
      rw [visitsOf, stay]
      exact ready.passes_succ inside holds rfl (kept k rfl)

/-! ## The whole loop -/

omit [DecidableEq ε] in
/-- What is visited in the later buckets is as before, after a bucket is filtered. -/
theorem visitsOf_update (sel : ε → Bool) (lists : Nat → List ε) {i : Nat} (later : k < i) :
    visitsOf sel (update lists k ((lists k).filter fun elm => !sel elm)) i =
      visitsOf sel lists i := by
  cases i with
  | zero => exact absurd later (Nat.not_lt_zero k)
  | succ i =>
      have here : update lists k ((lists k).filter fun elm => !sel elm) (i + 1) =
          lists (i + 1) := update_of_ne (Nat.ne_of_gt later) _ _
      rw [visitsOf, visitsOf, here]
      by_cases same : i = k
      · subst same
        rw [update_self, List.filter_filter]
        simp only [Bool.and_self]
      · rw [update_of_ne same]

theorem DhashReady.returns (sel : ε → Bool) {left : Nat} : ∀ {k : Nat} {table : Dhash ε}
    {lists : Nat → List ε} {iter : DhashIter} (visited : List ε), k + left = size →
      DhashReady size lists k iter → DhashHolds table size lists →
        (∀ j, j + 1 = k → ∀ elm ∈ lists j, sel elm = false) →
        ∃ after, (dhashIterLoop sel).Returns ⟨table, iter, visited⟩
            (after, visited ++ (List.range' k left).flatMap (visitsOf sel lists)) ∧
          DhashHolds after size (filteredFrom (fun elm => !sel elm) lists k) := by
  induction left with
  | zero =>
      intro k table lists iter visited sum ready holds _
      rw [Nat.add_zero] at sum
      subst sum
      have ended := ready.ready.eq_none
      refine ⟨table, Loop.returns_of_done ?_, ?_⟩
      · simp [dhashIterLoop, ended]
      · exact holds.congr fun i inside => if_neg (Nat.not_le.mpr inside)
  | succ left ih =>
      intro k table lists iter visited sum ready holds kept
      obtain ⟨after, moved, goes, held, further⟩ := ready.passes holds (by omega) kept visited
      have filtered : ∀ j, j + 1 = k + 1 →
          ∀ elm ∈ update lists k ((lists k).filter fun elm => !sel elm) j,
            sel elm = false := by
        intro j same elm member
        obtain rfl : j = k := by omega
        rw [update_self] at member
        simpa using (List.mem_filter.mp member).2
      obtain ⟨final, returned, ends⟩ := ih (visited ++ visitsOf sel lists k) (by omega) further held
        filtered
      have later : (List.range' (k + 1) left).flatMap
          (visitsOf sel (update lists k ((lists k).filter fun elm => !sel elm))) =
            (List.range' (k + 1) left).flatMap (visitsOf sel lists) := by
        apply List.flatMap_congr
        intro i member
        exact visitsOf_update sel lists (List.mem_range'_1.mp member).1
      rw [later, List.append_assoc] at returned
      rw [filteredFrom_succ] at ends
      rw [List.range'_succ, List.flatMap_cons]
      exact ⟨final, goes.returns_iff.mpr returned, ends⟩

omit [DecidableEq ε] in
private theorem dhashIterInit_ready (holds : DhashHolds table size lists) :
    DhashReady size lists 0 (dhashIterInit table) := by
  have bucket := holds.bucket 0 holds.positive
  unfold dhashIterInit
  cases list : lists 0 with
  | nil =>
      rw [list] at bucket
      have head : dlistIterInit (table.dhBucket 0) = 0 := by
        rw [bucket]
        rfl
      have first : DhashReady size lists 1 (dhashIterSkip table (size - 1) 1) := by
        have := holds.positive
        exact dhashIterSkip_ready holds (by omega)
      simp only [head, dlistIterTerm, decide_true, if_true, dhashIterNext_of_nil bucket,
        holds.sized]
      exact ⟨(ready_succ_iff list).mp first.ready, first.position⟩
  | cons elm rest =>
      rw [list] at bucket
      have head : dlistIterInit (table.dhBucket 0) = 1 := by
        rw [bucket]
        rfl
      simp only [head, dlistIterTerm, Nat.one_ne_zero, decide_false, Bool.false_eq_true, if_false]
      exact ⟨ready_self holds.positive (by simp [list]), fun _ _ => rfl⟩

/-- The loop returns with the selected elements removed, whatever it visited twice. -/
theorem dhashIterLoop_returns (holds : DhashHolds table size lists) (sel : ε → Bool) :
    ∃ after, (dhashIterLoop sel).Returns (dhashIterStart table)
        (after, elements size (visitsOf sel lists)) ∧
      DhashHolds after size fun i => (lists i).filter fun elm => !sel elm := by
  obtain ⟨after, returned, held⟩ := (dhashIterInit_ready holds).returns sel []
    (Nat.zero_add size) holds (by omega)
  rw [← List.range_eq_range'] at returned
  exact ⟨after, returned, held.congr fun i _ => (if_pos (Nat.zero_le i)).symm⟩

/-- The loop visits every element once, and leaves the table without the selected elements. -/
def DhashIterRight (table : Dhash ε) (size : Nat) (lists : Nat → List ε) (sel : ε → Bool) : Prop :=
  ∃ after visited, (dhashIterLoop sel).Returns (dhashIterStart table) (after, visited) ∧
    visited.Perm (elements size lists) ∧
    DhashHolds after size fun i => (lists i).filter fun elm => !sel elm

/-- In front of a bucket whose first element is removed, the bucket before keeps one element at
most. -/
def DhashFrontsSafe (size : Nat) (lists : Nat → List ε) (sel : ε → Bool) : Prop :=
  ∀ i, i + 1 < size → (lists (i + 1)).head?.any sel = true →
    ((lists i).filter fun elm => !sel elm).length ≤ 1

omit [DecidableEq ε] in
private theorem mem_backTrace {back list : List ε} (member : elm ∈ list) :
    elm ∈ backTrace sel back list := by
  induction list with
  | nil => cases member
  | cons head rest ih =>
      rw [backTrace]
      split
      · rcases List.mem_cons.mp member with rfl | later
        · exact List.mem_cons_self
        · exact List.mem_cons_of_mem _ (List.mem_append_right _ (ih later))
      · exact member

omit [DecidableEq ε] in
private theorem backTrace_nil (list : List ε) : backTrace sel [] list = list := by
  induction list with
  | nil => rfl
  | cons head rest ih =>
      rw [backTrace, List.nil_append, ih]
      exact ite_self _

omit [DecidableEq ε] in
private theorem mem_visitsOf (member : elm ∈ lists k) : elm ∈ visitsOf sel lists k := by
  cases k with
  | zero => exact member
  | succ k => exact mem_backTrace member

omit [DecidableEq ε] in
/-- With safe fronts every bucket is visited once. -/
theorem visitsOf_eq (safe : DhashFrontsSafe size lists sel) (inside : k < size) :
    visitsOf sel lists k = lists k := by
  cases k with
  | zero => rfl
  | succ k =>
      rw [visitsOf]
      cases list : lists (k + 1) with
      | nil => rfl
      | cons first rest =>
          by_cases selected : sel first = true
          · have few := safe k inside (by simp [list, selected])
            have none : ((lists k).filter fun elm => !sel elm).tail = [] := by
              apply List.length_eq_zero_iff.mp
              rw [List.length_tail]
              omega
            rw [none, backTrace_nil]
          · rw [backTrace, if_neg selected]

omit [DecidableEq ε] in
/-- A second kept element in front of a removal is visited with both buckets. -/
theorem frontsSafe_of_nodup (nodup : (elements size (visitsOf sel lists)).Nodup) :
    DhashFrontsSafe size lists sel := by
  intro i inside front
  by_contra many
  obtain ⟨first, second, others, kept⟩ :
      ∃ first second others, ((lists i).filter fun elm => !sel elm) =
        first :: second :: others := by
    cases kept : (lists i).filter fun elm => !sel elm with
    | nil => simp [kept] at many
    | cons first rest =>
        cases rest with
        | nil => simp [kept] at many
        | cons second others => exact ⟨first, second, others, rfl⟩
  have here : second ∈ visitsOf sel lists i := by
    apply mem_visitsOf
    apply List.mem_of_mem_filter (p := fun elm => !sel elm)
    simp [kept]
  have again : second ∈ visitsOf sel lists (i + 1) := by
    rw [visitsOf, kept, List.tail_cons]
    cases list : lists (i + 1) with
    | nil => simp [list] at front
    | cons head rest =>
        have selected : sel head = true := by simpa [list] using front
        rw [backTrace, if_pos selected]
        simp
  exact disjoint_of_nodup nodup (Nat.lt_succ_self i) inside here again

/-- **Removing from rings, exactly.** The loop visits every element once exactly where no bucket
with two kept elements stands in front of a bucket whose first element is removed. -/
theorem dhash_iter_removes_iff (holds : DhashHolds table size lists) (sel : ε → Bool) :
    DhashIterRight table size lists sel ↔ DhashFrontsSafe size lists sel := by
  obtain ⟨after, returned, held⟩ := dhashIterLoop_returns holds sel
  constructor
  · rintro ⟨other, visited, again, once, -⟩
    cases returned.unique again
    exact frontsSafe_of_nodup (once.nodup_iff.mpr holds.nodup)
  · intro safe
    rw [elements_congr fun i inside => visitsOf_eq safe inside] at returned
    exact ⟨after, _, returned, .refl _, held⟩

/-- Two elements in the first bucket and one in the second one, which is removed. -/
private def threeLinks : Dhash Nat := ⟨fun i => if i = 0 then [1, 2] else [3], 2, 3, 0⟩

private theorem dhashHolds_three :
    DhashHolds threeLinks 2 fun i => if i = 0 then [1, 2] else [3] where
  positive := by decide
  sized := rfl
  bucket := fun i inside => rfl
  nodup := by decide
  count := by decide

theorem dhash_iter_removes_iff_three :
    DhashIterRight threeLinks 2 (fun i => if i = 0 then [1, 2] else [3]) fun elm => elm = 2 :=
  (dhash_iter_removes_iff dhashHolds_three _).mpr (by
    intro i inside
    obtain rfl : i = 0 := by omega
    decide)

/-- The second element of the first bucket is visited twice. -/
theorem dhash_iter_removes_wrong :
    ¬ DhashIterRight threeLinks 2 (fun i => if i = 0 then [1, 2] else [3]) fun elm => elm = 3 := by
  rintro ⟨after, visited, returned, once, -⟩
  obtain ⟨other, loops, -⟩ := dhashIterLoop_returns dhashHolds_three fun elm => elm = 3
  cases returned.unique loops
  exact absurd once.length_eq (by decide)

end Tvntd
