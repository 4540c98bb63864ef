import Tvntd.Lib.Compare
import Tvntd.Lib.Loop
import Mathlib.Data.Int.Init
import Mathlib.Tactic.Common
import Mathlib.Algebra.Group.Nat.Defs
import Mathlib.Algebra.Group.Int.Defs

/-! # Sorted arrays

`_locationOf` halves the part of a sorted array in which an element belongs. One of
its callers inserts the element at the index it gives, and the other compares the
element with what is there. The index is the length of the array where all of its
elements are smaller, and an index from `2 ^ 31` on is made negative by `| 0`.
-/

namespace Tvntd.SortedArray

variable {Elm : Type}

/-- `number | 0`, of a number that is `half` a number. -/
def halfOf (number : Int) : Int := (number.tdiv 2).bmod (2 ^ 32)

/-- `array[index]`; `none` is undefined. -/
def pivotAt (array : List Elm) (index : Int) : Option Elm :=
  if 0 ≤ index then array[index.toNat]? else none

/-- The variables of `_locationOf`, and the calls of `compareFn` by their first argument. -/
structure Search (Elm : Type) where
  cmp : Int
  minIdx : Int
  curIdx : Int
  maxIdx : Int
  calls : List (Option Elm)

/-- What is returned behind the loop, with the calls. -/
def Search.leave (search : Search Elm) : Int × List (Option Elm) :=
  (if 1 ≤ search.cmp then if 1 < search.curIdx then search.curIdx - 1 else 0
    else search.curIdx + 1, search.calls)

/-- What a turn does with the result of a comparison. -/
def Search.narrow (search : Search Elm) (curIdx : Int) (pivot : Option Elm) (cmp : Int) :
    Search Elm ⊕ (Int × List (Option Elm)) :=
  let calls := search.calls ++ [pivot]
  if cmp ≤ -1 then
    if search.minIdx = curIdx then
      .inr (Search.leave ⟨cmp, search.minIdx, curIdx, search.maxIdx, calls⟩)
    else .inl ⟨cmp, curIdx, curIdx, search.maxIdx, calls⟩
  else if 1 ≤ cmp then
    if search.maxIdx = curIdx then
      .inr (Search.leave ⟨cmp, search.minIdx, curIdx, search.maxIdx, calls⟩)
    else .inl ⟨cmp, search.minIdx, curIdx, curIdx, calls⟩
  else .inr (curIdx, calls)

variable (compareFn : Option Elm → Elm → Int)

/-- The loop of `_locationOf`. -/
def locationLoop (elm : Elm) (array : List Elm) :
    Loop (Search Elm) (Int × List (Option Elm)) where
  turn search :=
    if search.minIdx < search.maxIdx then
      let curIdx := halfOf (search.minIdx + search.maxIdx)
      let pivot := pivotAt array curIdx
      some (search.narrow curIdx pivot (compareFn pivot elm))
    else some (.inr search.leave)

def start (array : List Elm) : Search Elm := ⟨0, 0, -1, array.length, []⟩

/-- `_locationOf` returns an index, having made some calls. -/
def LocationOf (elm : Elm) (array : List Elm) (index : Int) (calls : List (Option Elm)) : Prop :=
  (locationLoop compareFn elm array).Returns (start array) (index, calls)

/-- `array.splice(start, 0, elm)`; `none` is the error of an array that is full. -/
def splice (array : List Elm) (start : Int) (elm : Elm) : Option (List Elm) :=
  if array.length + 1 < 2 ^ 32 then
    let position := if start < 0 then (array.length + start).toNat else start.toNat
    some (array.take position ++ elm :: array.drop position)
  else none

/-- `insertSorted` leaves an array, having made some calls. -/
def InsertSorted (elm : Elm) (array after : List Elm) (calls : List (Option Elm)) : Prop :=
  if array.length = 0 then splice array 0 elm = some after ∧ calls = []
  else ∃ index, LocationOf compareFn elm array index calls ∧ splice array index elm = some after

/-- `findSorted` returns an index, having made some calls. -/
def FindSorted (elm : Elm) (array : List Elm) (found : Int) (calls : List (Option Elm)) : Prop :=
  if array.length = 0 then found = -1 ∧ calls = []
  else ∃ index before, LocationOf compareFn elm array index before ∧
    found = (if compareFn (pivotAt array index) elm = 0 then index else -1) ∧
      calls = before ++ [pivotAt array index]

/-- How two elements compare. -/
def order (first second : Elm) : Int := compareFn (some first) second

/-! ## What is asked of both -/

/-- The array is sorted again with one element more, an equal element is found exactly if there is
one, and no calls are made with anything but elements. -/
structure Right (elm : Elm) (array : List Elm) : Prop where
  inserts : ∃ after calls, InsertSorted compareFn elm array after calls ∧
    after.Perm (elm :: array) ∧ Ascending (order compareFn) after ∧
      ∀ call ∈ calls, ∃ pivot ∈ array, call = some pivot
  finds : ∃ found calls, FindSorted compareFn elm array found calls ∧
    ((∃ pivot ∈ array, order compareFn pivot elm = 0) → ∃ position pivot,
      found = Int.ofNat position ∧ array[position]? = some pivot ∧
        order compareFn pivot elm = 0) ∧
    ((∀ pivot ∈ array, order compareFn pivot elm ≠ 0) → found = -1) ∧
      ∀ call ∈ calls, ∃ pivot ∈ array, call = some pivot

/-- The indices that are looked at in turn as long as all elements there are smaller. -/
def probe (length : Nat) : Nat → Nat
  | 0 => length / 2
  | turns + 1 => (probe length turns + length) / 2

/-- The array has room, its last element is not smaller, and no element that is looked at before an
index from `2 ^ 31` on is smaller. -/
structure Careful (elm : Elm) (array : List Elm) : Prop where
  room : array.length + 1 < 2 ^ 32
  last : ∀ pivot, array.getLast? = some pivot → 0 ≤ order compareFn pivot elm
  reached : ∀ turns pivot, 2 ^ 31 ≤ probe array.length (turns + 1) →
    array[probe array.length turns]? = some pivot → 0 ≤ order compareFn pivot elm

/-! ## Sorted elements -/

variable {compareFn}

section Sorted

variable {elm : Elm} {array : List Elm} (three : ThreeWay (order compareFn))
  (ascending : Ascending (order compareFn) array)

/-- What an element of a sorted array tells of those around it. -/
structure Around (compareFn : Option Elm → Elm → Int) (elm before behind : Elm) : Prop where
  le : order compareFn behind elm ≤ 0 → order compareFn before elm ≤ 0
  lt : order compareFn behind elm < 0 → order compareFn before elm < 0
  ge : 0 ≤ order compareFn before elm → 0 ≤ order compareFn behind elm
  gt : 0 < order compareFn before elm → 0 < order compareFn behind elm

include three ascending

theorem around {first second : Nat} (early : first ≤ second) {before behind : Elm}
    (left : array[first]? = some before) (right : array[second]? = some behind) :
    Around compareFn elm before behind := by
  obtain ⟨inside, rfl⟩ := List.getElem?_eq_some_iff.mp left
  obtain ⟨within, rfl⟩ := List.getElem?_eq_some_iff.mp right
  have le : order compareFn array[first] array[second] ≤ 0 := by
    rcases Nat.lt_or_eq_of_le early with before | rfl
    · exact List.pairwise_iff_getElem.mp ascending first second inside within before
    · exact (three.totalPreorder.total _ _).elim id id
  have down : order compareFn array[second] elm ≤ 0 → order compareFn array[first] elm ≤ 0 :=
    three.trans le
  have up : 0 ≤ order compareFn array[first] elm → 0 ≤ order compareFn array[second] elm := by
    intro positive
    exact (three.turned _ _).mp (three.trans ((three.turned _ _).mpr positive) le)
  refine ⟨down, ?_, up, ?_⟩
  · intro smaller
    by_contra other
    exact absurd (up (Int.not_lt.mp other)) (Int.not_le.mpr smaller)
  · intro greater
    by_contra other
    exact absurd (down (Int.not_lt.mp other)) (Int.not_le.mpr greater)

end Sorted

/-- An index in front of which no element is greater and behind which none is smaller; if any is
equal, so is the one there. -/
structure Located (compareFn : Option Elm → Elm → Int) (elm : Elm) (array : List Elm)
    (index : Nat) : Prop where
  within : index ≤ array.length
  front : ∀ position pivot, position < index → array[position]? = some pivot →
    order compareFn pivot elm ≤ 0
  back : ∀ position pivot, index ≤ position → array[position]? = some pivot →
    0 ≤ order compareFn pivot elm
  equal : (∃ pivot ∈ array, order compareFn pivot elm = 0) →
    ∃ pivot, array[index]? = some pivot ∧ order compareFn pivot elm = 0

/-! ## The loop -/

private theorem halfOf_small {lo hi : Nat} (small : (lo + hi) / 2 < 2 ^ 31) :
    halfOf ((lo : Int) + hi) = ((lo + hi) / 2 : Nat) := by
  have half : ((lo : Int) + hi).tdiv 2 = ((lo + hi) / 2 : Nat) := by
    rw [Int.tdiv_eq_ediv_of_nonneg (by omega)]
    omega
  rw [halfOf, half]
  exact Int.bmod_eq_of_le (by omega) (by omega)

theorem halfOf_large {lo hi : Nat} (large : 2 ^ 31 ≤ (lo + hi) / 2) (within : lo + hi < 2 ^ 33) :
    halfOf ((lo : Int) + hi) < 0 := by
  have half : ((lo : Int) + hi).tdiv 2 = ((lo + hi) / 2 : Nat) := by
    rw [Int.tdiv_eq_ediv_of_nonneg (by omega)]
    omega
  rw [halfOf, half, Int.bmod_def]
  omega

theorem pivotAt_nat (array : List Elm) (index : Nat) : pivotAt array index = array[index]? := by
  rw [pivotAt, if_pos (Int.natCast_nonneg index), Int.toNat_natCast]

variable {elm : Elm} {array : List Elm} {search : Search Elm}

/-- The calls behind a turn. -/
def outcomeCalls : Search Elm ⊕ (Int × List (Option Elm)) → List (Option Elm) :=
  Sum.elim Search.calls Prod.snd

private theorem narrow_calls (search : Search Elm) (curIdx : Int) (pivot : Option Elm) (cmp : Int) :
    outcomeCalls (search.narrow curIdx pivot cmp) = search.calls ++ [pivot] := by
  unfold Search.narrow
  split
  · split
    · rfl
    · rfl
  · split
    · split
      · rfl
      · rfl
    · rfl

section Narrow

variable {curIdx cmp : Int} {pivot : Option Elm}

private theorem narrow_smaller (smaller : cmp < 0) (moved : search.minIdx ≠ curIdx) :
    search.narrow curIdx pivot cmp =
      .inl ⟨cmp, curIdx, curIdx, search.maxIdx, search.calls ++ [pivot]⟩ := by
  rw [Search.narrow, if_pos (by omega), if_neg moved]

private theorem narrow_last (smaller : cmp < 0) (last : search.minIdx = curIdx) :
    search.narrow curIdx pivot cmp = .inr (curIdx + 1, search.calls ++ [pivot]) := by
  have below : ¬ 1 ≤ cmp := by omega
  rw [Search.narrow, if_pos (by omega), if_pos last, Search.leave, if_neg below]

private theorem narrow_greater (greater : 0 < cmp) (moved : search.maxIdx ≠ curIdx) :
    search.narrow curIdx pivot cmp =
      .inl ⟨cmp, search.minIdx, curIdx, curIdx, search.calls ++ [pivot]⟩ := by
  rw [Search.narrow, if_neg (by omega), if_pos (by omega), if_neg moved]

private theorem narrow_equal (equal : cmp = 0) :
    search.narrow curIdx pivot cmp = .inr (curIdx, search.calls ++ [pivot]) := by
  rw [Search.narrow, if_neg (by omega), if_neg (by omega)]

end Narrow

/-- A turn makes one call. -/
theorem turn_inside (compareFn : Option Elm → Elm → Int) (elm : Elm) (array : List Elm)
    (inside : search.minIdx < search.maxIdx) :
    (locationLoop compareFn elm array).turn search = some (search.narrow
      (halfOf (search.minIdx + search.maxIdx))
      (pivotAt array (halfOf (search.minIdx + search.maxIdx)))
      (compareFn (pivotAt array (halfOf (search.minIdx + search.maxIdx))) elm)) :=
  if_pos inside

/-- No call is forgotten. -/
theorem turn_before {outcome : Search Elm ⊕ (Int × List (Option Elm))}
    (turned : (locationLoop compareFn elm array).turn search = some outcome) :
    search.calls <+: outcomeCalls outcome := by
  by_cases inside : search.minIdx < search.maxIdx
  · cases turned.symm.trans (turn_inside compareFn elm array inside)
    rw [narrow_calls]
    exact List.prefix_append _ _
  · have left : (locationLoop compareFn elm array).turn search = some (.inr search.leave) :=
      if_neg inside
    cases turned.symm.trans left
    exact List.prefix_refl _

private theorem calls_before {index : Int} {calls : List (Option Elm)}
    (returns : (locationLoop compareFn elm array).Returns search (index, calls)) :
    search.calls <+: calls :=
  returns.of_invariant (fun now => search.calls <+: now.calls)
    (fun result => search.calls <+: result.2)
    (fun _ _ held went => held.trans (turn_before went))
    (fun _ _ held done => held.trans (turn_before done)) (List.prefix_refl _)

/-- What the search has found out. The part in which the element belongs reaches to the end only
where the elements that were looked at are all smaller. -/
structure Bracket (compareFn : Option Elm → Elm → Int) (elm : Elm) (array : List Elm)
    (lo hi : Nat) (search : Search Elm) : Prop where
  minIdx : search.minIdx = lo
  maxIdx : search.maxIdx = hi
  inside : lo < hi
  within : hi ≤ array.length
  low : lo = 0 ∨ ∃ pivot, array[lo]? = some pivot ∧ order compareFn pivot elm < 0
  high : hi = array.length ∨ ∃ pivot, array[hi]? = some pivot ∧ 0 < order compareFn pivot elm
  range : hi < 2 ^ 31 ∨ hi = array.length ∧ (lo = 0 ∨ ∃ turns, lo = probe array.length turns)

variable {lo hi : Nat}

private theorem bracket_start (nonempty : array.length ≠ 0) :
    Bracket compareFn elm array 0 array.length (start array) where
  minIdx := rfl
  maxIdx := rfl
  inside := Nat.pos_of_ne_zero nonempty
  within := Nat.le_refl _
  low := Or.inl rfl
  high := Or.inl rfl
  range := Or.inr ⟨rfl, Or.inl rfl⟩

/-- An index that is too large is looked at as a negative one. -/
theorem Bracket.large (bracket : Bracket compareFn elm array lo hi search)
    (room : array.length < 2 ^ 32) (large : 2 ^ 31 ≤ (lo + hi) / 2) {index : Int}
    {calls : List (Option Elm)}
    (returns : (locationLoop compareFn elm array).Returns search (index, calls)) :
    none ∈ calls := by
  have inside := bracket.inside
  have within := bracket.within
  have lower : search.minIdx < search.maxIdx := by
    rw [bracket.minIdx, bracket.maxIdx]
    omega
  have negative : halfOf (search.minIdx + search.maxIdx) < 0 := by
    rw [bracket.minIdx, bracket.maxIdx]
    exact halfOf_large large (by omega)
  have undefined : pivotAt array (halfOf (search.minIdx + search.maxIdx)) = none :=
    if_neg (Int.not_le.mpr negative)
  have turned := turn_inside compareFn elm array lower
  have called := narrow_calls search (halfOf (search.minIdx + search.maxIdx))
    (pivotAt array (halfOf (search.minIdx + search.maxIdx)))
    (compareFn (pivotAt array (halfOf (search.minIdx + search.maxIdx))) elm)
  rcases returns.cases with done | ⟨next, went, later⟩
  · rw [← Option.some.inj (done.symm.trans turned), undefined] at called
    have last : none ∈ outcomeCalls (.inr (index, calls) : Search Elm ⊕ _) := by simp [called]
    exact last
  · rw [← Option.some.inj (went.symm.trans turned), undefined] at called
    have last : none ∈ outcomeCalls (.inl next : Search Elm ⊕ (Int × _)) := by simp [called]
    exact (calls_before later).subset last

/-- What a turn does with an index that is not too large. -/
inductive Turned (compareFn : Option Elm → Elm → Int) (elm : Elm) (array : List Elm)
    (lo hi : Nat) (search : Search Elm) (pivot : Elm) : Prop where
  | returned (index : Nat) (done : (locationLoop compareFn elm array).Returns search
      (index, search.calls ++ [some pivot])) (located : Located compareFn elm array index)
      (last : order compareFn pivot elm < 0 → lo = (lo + hi) / 2)
  | right (next : Search Elm) (went : (locationLoop compareFn elm array).turn search =
      some (.inl next)) (calls : next.calls = search.calls ++ [some pivot])
      (smaller : order compareFn pivot elm < 0) (grows : lo < (lo + hi) / 2)
      (still : Bracket compareFn elm array ((lo + hi) / 2) hi next)
  | left (next : Search Elm) (went : (locationLoop compareFn elm array).turn search =
      some (.inl next)) (calls : next.calls = search.calls ++ [some pivot])
      (greater : 0 < order compareFn pivot elm)
      (still : Bracket compareFn elm array lo ((lo + hi) / 2) next)

/-- The search returns the place of the element, having looked at elements of the array. -/
def Finds (compareFn : Option Elm → Elm → Int) (elm : Elm) (array : List Elm)
    (search : Search Elm) : Prop :=
  ∃ index calls, (locationLoop compareFn elm array).Returns search ((index : Nat), calls) ∧
    Located compareFn elm array index ∧
      ∀ call ∈ calls, call ∈ search.calls ∨ ∃ pivot ∈ array, call = some pivot

/-- The search gets to an index that is too large. -/
def Overruns (compareFn : Option Elm → Elm → Int) (elm : Elm) (array : List Elm)
    (search : Search Elm) : Prop :=
  ∃ lo hi state, (locationLoop compareFn elm array).Goes search state ∧
    Bracket compareFn elm array lo hi state ∧ 2 ^ 31 ≤ (lo + hi) / 2

theorem Finds.of_turn {next : Search Elm} {pivot : Elm} (finds : Finds compareFn elm array next)
    (went : (locationLoop compareFn elm array).turn search = some (.inl next))
    (calls : next.calls = search.calls ++ [some pivot]) (member : pivot ∈ array) :
    Finds compareFn elm array search := by
  obtain ⟨index, later, returns, located, called⟩ := finds
  refine ⟨index, later, returns.of_turn went, located, ?_⟩
  intro call made
  rcases called call made with before | after
  · rw [calls] at before
    rcases List.mem_append.mp before with before | now
    · exact Or.inl before
    · exact Or.inr ⟨pivot, member, List.mem_singleton.mp now⟩
  · exact Or.inr after

theorem Overruns.of_turn {next : Search Elm} (overruns : Overruns compareFn elm array next)
    (went : (locationLoop compareFn elm array).turn search = some (.inl next)) :
    Overruns compareFn elm array search := by
  obtain ⟨lo, hi, state, goes, reached, large⟩ := overruns
  exact ⟨lo, hi, state, goes.head went, reached, large⟩

private theorem probe_lt {length : Nat} (nonempty : length ≠ 0) (turns : Nat) :
    probe length turns < length := by
  induction turns with
  | zero =>
      rw [probe]
      omega
  | succ turns ih =>
      rw [probe]
      omega

theorem probe_mono {length first second : Nat} (nonempty : length ≠ 0) (early : first ≤ second) :
    probe length first ≤ probe length second := by
  refine monotone_nat_of_le_succ (fun turns => ?_) early
  have bound := probe_lt nonempty turns
  rw [probe]
  omega

section Sorted

variable (three : ThreeWay (order compareFn)) (ascending : Ascending (order compareFn) array)
include three ascending

/-- Where the element is next to a smaller one and to a greater one. -/
theorem located_between {index : Nat} (within : index ≤ array.length)
    (low : index = 0 ∨ ∃ pivot, array[index - 1]? = some pivot ∧ order compareFn pivot elm < 0)
    (high : index = array.length ∨ ∃ pivot, array[index]? = some pivot ∧
      0 < order compareFn pivot elm) : Located compareFn elm array index := by
  have front : ∀ position pivot, position < index → array[position]? = some pivot →
      order compareFn pivot elm < 0 := by
    intro position pivot early there
    rcases low with rfl | ⟨other, here, smaller⟩
    · exact absurd early (Nat.not_lt_zero _)
    · exact (around three ascending (Nat.le_sub_one_of_lt early) there here).lt smaller
  have back : ∀ position pivot, index ≤ position → array[position]? = some pivot →
      0 < order compareFn pivot elm := by
    intro position pivot late there
    rcases high with rfl | ⟨other, here, greater⟩
    · rw [List.getElem?_eq_none late] at there
      cases there
    · exact (around three ascending late here there).gt greater
  refine ⟨within, ?_, ?_, ?_⟩
  · exact fun position pivot early there => Int.le_of_lt (front position pivot early there)
  · exact fun position pivot late there => Int.le_of_lt (back position pivot late there)
  · rintro ⟨pivot, inside, equal⟩
    obtain ⟨position, there⟩ := List.mem_iff_getElem?.mp inside
    rcases Nat.lt_or_ge position index with early | late
    · have smaller := front position pivot early there
      omega
    · have greater := back position pivot late there
      omega

private theorem located_equal {index : Nat} {pivot : Elm} (here : array[index]? = some pivot)
    (equal : order compareFn pivot elm = 0) : Located compareFn elm array index where
  within := Nat.le_of_lt (List.getElem?_eq_some_iff.mp here).1
  front := by
    intro position other early there
    exact (around three ascending (Nat.le_of_lt early) there here).le (Int.le_of_eq equal)
  back := by
    intro position other late there
    exact (around three ascending late here there).ge (Int.le_of_eq equal.symm)
  equal := fun _ => ⟨pivot, here, equal⟩

theorem Bracket.turned (bracket : Bracket compareFn elm array lo hi search)
    (small : (lo + hi) / 2 < 2 ^ 31) :
    ∃ pivot, array[(lo + hi) / 2]? = some pivot ∧
      Turned compareFn elm array lo hi search pivot := by
  have inside := bracket.inside
  have within := bracket.within
  obtain ⟨mid, middle⟩ : ∃ mid, mid = (lo + hi) / 2 := ⟨_, rfl⟩
  have there : mid < array.length := by omega
  obtain ⟨pivot, here⟩ : ∃ pivot, array[mid]? = some pivot := ⟨_, List.getElem?_eq_getElem there⟩
  have lower : search.minIdx < search.maxIdx := by
    rw [bracket.minIdx, bracket.maxIdx]
    omega
  have curIdx : halfOf (search.minIdx + search.maxIdx) = mid := by
    rw [bracket.minIdx, bracket.maxIdx, middle]
    exact halfOf_small small
  have turn : (locationLoop compareFn elm array).turn search =
      some (search.narrow mid (some pivot) (order compareFn pivot elm)) := by
    rw [turn_inside compareFn elm array lower, curIdx, pivotAt_nat, here]
    rfl
  refine ⟨pivot, middle ▸ here, ?_⟩
  rcases Int.lt_trichotomy (order compareFn pivot elm) 0 with smaller | equal | greater
  · by_cases last : lo = mid
    · -- The part has one element, which is smaller.
      have ends : hi = mid + 1 := by omega
      have stands : search.minIdx = (mid : Int) := by rw [bracket.minIdx, last]
      refine .returned (mid + 1) (Loop.returns_of_done ?_) ?_ fun _ => last.trans middle
      · rw [turn, narrow_last smaller stands]
        rfl
      · exact located_between three ascending there (Or.inr ⟨pivot, here, smaller⟩)
          (ends ▸ bracket.high)
    · have moved : search.minIdx ≠ mid := by
        rw [bracket.minIdx]
        omega
      refine .right _ (turn.trans (congrArg some (narrow_smaller smaller moved))) rfl smaller
        (by omega) ?_
      rw [← middle]
      refine ⟨rfl, bracket.maxIdx, by omega, within, Or.inr ⟨pivot, here, smaller⟩,
        bracket.high, ?_⟩
      rcases bracket.range with low | ⟨atEnd, first | ⟨turns, later⟩⟩
      · exact Or.inl low
      · exact Or.inr ⟨atEnd, Or.inr ⟨0, by rw [middle, first, atEnd, Nat.zero_add, probe]⟩⟩
      · exact Or.inr ⟨atEnd, Or.inr ⟨turns + 1, by rw [middle, later, atEnd, probe]⟩⟩
  · refine .returned mid (Loop.returns_of_done ?_) (located_equal three ascending here equal)
      fun smaller => absurd equal (Int.ne_of_lt smaller)
    rw [turn, narrow_equal equal]
  · have moved : search.maxIdx ≠ mid := by
      rw [bracket.maxIdx]
      omega
    have went := turn.trans (congrArg some (narrow_greater greater moved))
    by_cases last : lo = mid
    · -- Nothing is left, so that no smaller element has been seen.
      have first : lo = 0 := by
        rcases bracket.low with zero | ⟨other, before, smaller⟩
        · exact zero
        · rw [last, here] at before
          cases before
          omega
      refine .returned 0 ((Loop.returns_of_done ?_).of_turn went) ?_ fun _ => last.trans middle
      · have closed : ¬ search.minIdx < (mid : Int) := by
          rw [bracket.minIdx]
          omega
        refine (if_neg closed).trans ?_
        have above : 1 ≤ order compareFn pivot elm := by omega
        have low : ¬ 1 < (mid : Int) := by omega
        rw [Search.leave, if_pos above, if_neg low]
        rfl
      · exact located_between three ascending (Nat.zero_le _) (Or.inl rfl)
          (Or.inr ⟨pivot, by rw [← first, last, here], greater⟩)
    · refine .left _ went rfl greater ?_
      rw [← middle]
      exact ⟨bracket.minIdx, rfl, by omega, by omega, bracket.low, Or.inr ⟨pivot, here, greater⟩,
        Or.inl (by omega)⟩

/-- The search returns, unless it gets to an index that is too large. -/
theorem Bracket.searched (bracket : Bracket compareFn elm array lo hi search) :
    Finds compareFn elm array search ∨ Overruns compareFn elm array search := by
  induction span : hi - lo using Nat.strongRecOn generalizing lo hi search with
  | ind size ih =>
      have inside := bracket.inside
      by_cases small : (lo + hi) / 2 < 2 ^ 31
      · obtain ⟨pivot, here, turned⟩ := bracket.turned three ascending small
        have member : pivot ∈ array := List.mem_of_getElem? here
        cases turned with
        | returned index returns located _ =>
            refine Or.inl ⟨index, _, returns, located, ?_⟩
            intro call made
            rcases List.mem_append.mp made with before | now
            · exact Or.inl before
            · exact Or.inr ⟨pivot, member, List.mem_singleton.mp now⟩
        | right next went calls smaller grows still =>
            exact (ih _ (by omega) still rfl).imp (fun finds => finds.of_turn went calls member)
              fun overruns => overruns.of_turn went
        | left next went calls greater still =>
            exact (ih _ (by omega) still rfl).imp (fun finds => finds.of_turn went calls member)
              fun overruns => overruns.of_turn went
      · exact Or.inr ⟨lo, hi, search, .refl _, bracket, Nat.not_lt.mp small⟩

/-- A search that gets to an index that is too large calls the comparison with undefined. -/
theorem located_of_defined (room : array.length < 2 ^ 32) (nonempty : array.length ≠ 0)
    {index : Int} {calls : List (Option Elm)}
    (location : LocationOf compareFn elm array index calls) (defined : none ∉ calls) :
    ∃ place : Nat, index = place ∧ Located compareFn elm array place := by
  rcases (bracket_start nonempty).searched three ascending with finds | overruns
  · obtain ⟨place, others, returns, located, -⟩ := finds
    cases location.unique returns
    exact ⟨place, rfl, located⟩
  · obtain ⟨lo, hi, state, goes, reached, large⟩ := overruns
    exact absurd (reached.large room large (goes.returns_iff.mp location)) defined

/-- Where no smaller element is looked at before it, no index is too large. -/
theorem Careful.finds (careful : Careful compareFn elm array) (nonempty : array.length ≠ 0) :
    ∃ place calls, LocationOf compareFn elm array (place : Nat) calls ∧
      Located compareFn elm array place ∧ ∀ call ∈ calls, ∃ pivot ∈ array, call = some pivot := by
  rcases (bracket_start nonempty).searched three ascending with finds | overruns
  · obtain ⟨place, calls, returns, located, called⟩ := finds
    exact ⟨place, calls, returns, located,
      fun call made => (called call made).resolve_left List.not_mem_nil⟩
  · obtain ⟨lo, hi, state, -, reached, large⟩ := overruns
    have room := careful.room
    have inside := reached.inside
    have within := reached.within
    rcases reached.range with low | ⟨atEnd, first⟩
    · omega
    · by_cases zero : lo = 0
      · omega
      · obtain ⟨turns, later⟩ := first.resolve_left zero
        obtain ⟨pivot, here, smaller⟩ := reached.low.resolve_left zero
        rw [later] at here
        have not := careful.reached turns pivot (by rw [probe, ← later, ← atEnd]; exact large) here
        omega

/-- Where a smaller element is looked at before an index that is too large, the search gets there:
it goes right at every index that is looked at earlier. -/
theorem overruns_of_probe (nonempty : array.length ≠ 0) {turns : Nat} {pivot : Elm}
    (large : 2 ^ 31 ≤ probe array.length (turns + 1))
    (here : array[probe array.length turns]? = some pivot)
    (smaller : order compareFn pivot elm < 0) :
    Overruns compareFn elm array (start array) := by
  have walks : ∀ made ≤ turns + 1, Overruns compareFn elm array (start array) ∨
      ∃ lo state, (locationLoop compareFn elm array).Goes (start array) state ∧
        Bracket compareFn elm array lo array.length state ∧
          (lo + array.length) / 2 = probe array.length made := by
    intro made early
    induction made with
    | zero => exact Or.inr ⟨0, _, .refl _, bracket_start nonempty, by rw [probe, Nat.zero_add]⟩
    | succ made ih =>
        rcases ih (Nat.le_of_succ_le early) with overruns | ⟨lo, state, goes, reached, middle⟩
        · exact Or.inl overruns
        · by_cases small : (lo + array.length) / 2 < 2 ^ 31
          · obtain ⟨other, there, turned⟩ := reached.turned three ascending small
            have before := probe_mono nonempty (Nat.le_of_succ_le_succ early)
            have less := (around three ascending (middle ▸ before) there here).lt smaller
            cases turned with
            | returned index returns located last =>
                have stands := last less
                have bound := probe_lt nonempty (turns + 1)
                omega
            | right next went calls _ grows still =>
                exact Or.inr ⟨_, next, goes.tail went, still, by rw [middle, probe]⟩
            | left next went calls greater still =>
                exact absurd greater (Int.not_lt.mpr (Int.le_of_lt less))
          · exact Or.inl ⟨lo, _, state, goes, reached, Nat.not_lt.mp small⟩
  rcases walks (turns + 1) (Nat.le_refl _) with overruns | ⟨lo, state, goes, reached, middle⟩
  · exact overruns
  · exact ⟨lo, _, state, goes, reached, middle ▸ large⟩

/-! ## Inserting and finding -/

/-- The element in its place keeps the order. -/
theorem Located.sorts {place : Nat} (located : Located compareFn elm array place) :
    Ascending (order compareFn) (array.take place ++ elm :: array.drop place) := by
  have behind : ∀ pivot ∈ array.drop place, order compareFn elm pivot ≤ 0 := by
    intro pivot member
    obtain ⟨position, there⟩ := List.mem_iff_getElem?.mp member
    rw [List.getElem?_drop] at there
    exact (three.turned _ _).mpr (located.back _ pivot (Nat.le_add_right _ _) there)
  have ahead : ∀ pivot ∈ array.take place, order compareFn pivot elm ≤ 0 := by
    intro pivot member
    obtain ⟨position, there⟩ := List.mem_iff_getElem?.mp member
    rw [List.getElem?_take] at there
    split at there
    · exact located.front position pivot ‹_› there
    · cases there
  refine List.pairwise_append.mpr ⟨List.Pairwise.take ascending,
    List.pairwise_cons.mpr ⟨behind, List.Pairwise.drop ascending⟩, ?_⟩
  intro first front second back
  rcases List.mem_cons.mp back with rfl | back
  · exact ahead first front
  · exact three.trans (ahead first front) (behind second back)

omit three ascending in
private theorem splice_nat (room : array.length + 1 < 2 ^ 32) (place : Nat) :
    splice array place elm = some (array.take place ++ elm :: array.drop place) := by
  rw [splice, if_pos room, if_neg (Int.not_lt.mpr (Int.natCast_nonneg place)), Int.toNat_natCast]

omit three ascending in
/-- The place of an element is in front of the end where the last element is not smaller. -/
theorem Located.inside {place : Nat} (located : Located compareFn elm array place)
    (nonempty : array.length ≠ 0)
    (last : ∀ pivot, array.getLast? = some pivot → 0 ≤ order compareFn pivot elm) :
    place < array.length := by
  refine Nat.lt_of_le_of_ne located.within fun atEnd => ?_
  obtain ⟨pivot, there⟩ : ∃ pivot, array[array.length - 1]? = some pivot :=
    ⟨_, List.getElem?_eq_getElem (by omega)⟩
  have le := located.front (array.length - 1) pivot (by omega) there
  have ge := last pivot (List.getLast?_eq_getElem?.trans there)
  obtain ⟨other, here, -⟩ := located.equal
    ⟨pivot, List.mem_of_getElem? there, Int.le_antisymm le ge⟩
  rw [List.getElem?_eq_none (Nat.le_of_eq atEnd.symm)] at here
  cases here

theorem Careful.inserts (careful : Careful compareFn elm array) :
    ∃ after calls, InsertSorted compareFn elm array after calls ∧
      after.Perm (elm :: array) ∧ Ascending (order compareFn) after ∧
        ∀ call ∈ calls, ∃ pivot ∈ array, call = some pivot := by
  by_cases nonempty : array.length = 0
  · obtain rfl := List.eq_nil_of_length_eq_zero nonempty
    refine ⟨[elm], [], ?_, .refl _, List.pairwise_singleton _ _, ?_⟩
    · exact (if_pos nonempty).mpr ⟨splice_nat careful.room 0, rfl⟩
    · exact fun call made => absurd made List.not_mem_nil
  · obtain ⟨place, calls, location, located, called⟩ := careful.finds three ascending nonempty
    refine ⟨_, calls, (if_neg nonempty).mpr ⟨place, location, splice_nat careful.room place⟩,
      ?_, located.sorts three ascending, called⟩
    refine List.perm_middle.trans ?_
    rw [List.take_append_drop]

theorem Careful.found (careful : Careful compareFn elm array) :
    ∃ found calls, FindSorted compareFn elm array found calls ∧
      ((∃ pivot ∈ array, order compareFn pivot elm = 0) → ∃ position pivot,
        found = Int.ofNat position ∧ array[position]? = some pivot ∧
          order compareFn pivot elm = 0) ∧
      ((∀ pivot ∈ array, order compareFn pivot elm ≠ 0) → found = -1) ∧
        ∀ call ∈ calls, ∃ pivot ∈ array, call = some pivot := by
  by_cases nonempty : array.length = 0
  · obtain rfl := List.eq_nil_of_length_eq_zero nonempty
    refine ⟨-1, [], (if_pos nonempty).mpr ⟨rfl, rfl⟩, ?_, fun _ => rfl, ?_⟩
    · rintro ⟨pivot, member, -⟩
      cases member
    · exact fun call made => absurd made List.not_mem_nil
  · obtain ⟨place, calls, location, located, called⟩ := careful.finds three ascending nonempty
    have inside := located.inside nonempty careful.last
    obtain ⟨pivot, here⟩ : ∃ pivot, array[place]? = some pivot :=
      ⟨_, List.getElem?_eq_getElem inside⟩
    have looked : pivotAt array place = some pivot := (pivotAt_nat array place).trans here
    refine ⟨_, _, (if_neg nonempty).mpr ⟨place, calls, location, rfl, rfl⟩, ?_, ?_, ?_⟩
    · intro equal
      obtain ⟨other, there, same⟩ := located.equal equal
      refine ⟨place, other, if_pos ?_, there, same⟩
      rw [pivotAt_nat, there]
      exact same
    · intro different
      refine if_neg ?_
      rw [looked]
      exact different pivot (List.mem_of_getElem? here)
    · intro call made
      rcases List.mem_append.mp made with before | now
      · exact called call before
      · rw [looked] at now
        exact ⟨pivot, List.mem_of_getElem? here, List.mem_singleton.mp now⟩

/-- Where both are right, the last element is not smaller: the place behind it is undefined. -/
theorem Right.last (right : Right compareFn elm array) (room : array.length < 2 ^ 32)
    {pivot : Elm} (ends : array.getLast? = some pivot) : 0 ≤ order compareFn pivot elm := by
  by_contra negative
  have smaller := Int.not_le.mp negative
  have there : array[array.length - 1]? = some pivot := List.getLast?_eq_getElem?.symm.trans ends
  have nonempty : array.length ≠ 0 := by
    intro empty
    rw [List.eq_nil_of_length_eq_zero empty] at ends
    cases ends
  obtain ⟨found, calls, finds, -, -, called⟩ := right.finds
  obtain ⟨index, before, location, -, made⟩ := (if_neg nonempty).mp finds
  rw [made] at called
  have defined : none ∉ before := by
    intro undefined
    obtain ⟨other, -, same⟩ := called none (List.mem_append_left _ undefined)
    cases same
  obtain ⟨place, rfl, located⟩ := located_of_defined three ascending room nonempty location defined
  obtain ⟨other, member, looked⟩ := called _ (List.mem_append_right _ (List.mem_singleton_self _))
  rw [pivotAt_nat] at looked
  have inside := (List.getElem?_eq_some_iff.mp looked).1
  have less := (around three ascending (Nat.le_sub_one_of_lt inside) looked there).lt smaller
  exact absurd (located.back place other (Nat.le_refl _) looked) (Int.not_le.mpr less)

/-- Where both are right, no smaller element is looked at before an index that is too large. -/
theorem Right.reached (right : Right compareFn elm array) (room : array.length < 2 ^ 32)
    {turns : Nat} {pivot : Elm} (large : 2 ^ 31 ≤ probe array.length (turns + 1))
    (here : array[probe array.length turns]? = some pivot) : 0 ≤ order compareFn pivot elm := by
  by_contra negative
  have nonempty : array.length ≠ 0 := by
    intro empty
    rw [List.eq_nil_of_length_eq_zero empty] at here
    cases here
  obtain ⟨found, calls, finds, -, -, called⟩ := right.finds
  obtain ⟨index, before, location, -, made⟩ := (if_neg nonempty).mp finds
  obtain ⟨lo, hi, state, goes, bracket, passed⟩ :=
    overruns_of_probe three ascending nonempty large here (Int.not_le.mp negative)
  have undefined := bracket.large room passed (goes.returns_iff.mp location)
  rw [made] at called
  obtain ⟨other, -, same⟩ := called none (List.mem_append_left _ undefined)
  cases same

omit three ascending in
theorem Right.room (right : Right compareFn elm array) : array.length + 1 < 2 ^ 32 := by
  obtain ⟨after, calls, inserts, -⟩ := right.inserts
  have spliced : ∃ index, splice array index elm = some after := by
    unfold InsertSorted at inserts
    split at inserts
    · exact ⟨0, inserts.1⟩
    · exact inserts.imp fun index both => both.2
  obtain ⟨index, spliced⟩ := spliced
  by_contra full
  rw [splice, if_neg full] at spliced
  cases spliced

end Sorted

/-- For a comparison that is a total preorder and an array that is sorted by it, inserting and
finding are right exactly if the array has room, its last element is not smaller than the one looked
for, and no smaller element is looked at before an index from `2 ^ 31` on. -/
theorem searches_iff_careful {compareFn : Option Elm → Elm → Int} {elm : Elm} {array : List Elm}
    (three : ThreeWay (order compareFn)) (ascending : Ascending (order compareFn) array) :
    Right compareFn elm array ↔ Careful compareFn elm array := by
  constructor
  · intro right
    have room := right.room
    have less : array.length < 2 ^ 32 := by omega
    exact ⟨room, fun pivot ends => right.last three ascending less ends,
      fun turns pivot large here => right.reached three ascending less large here⟩
  · intro careful
    exact ⟨careful.inserts three ascending, careful.found three ascending⟩

/-! ## Inserting with a comparison that goes wrong with undefined -/

/-- `insertSorted`; `none` where the comparison is called with undefined, or the array is full. -/
def insertSorted (compareFn : Option Elm → Elm → Int) (elm : Elm) (array : List Elm) :
    Option (List Elm) :=
  if array.length = 0 then splice array 0 elm
  else
    match (locationLoop compareFn elm array).run (array.length + 1) (start array) with
    | none => none
    | some (index, calls) =>
        if calls.all Option.isSome then splice array index elm else none

private theorem halfOf_valid {lo hi : Nat} (within : lo + hi < 2 ^ 33)
    (valid : 0 ≤ halfOf ((lo : Int) + hi)) : halfOf ((lo : Int) + hi) = ((lo + hi) / 2 : Nat) := by
  by_cases small : (lo + hi) / 2 < 2 ^ 31
  · exact halfOf_small small
  · exact absurd valid (Int.not_le.mpr (halfOf_large (Nat.not_lt.mp small) within))

section Turns

variable {compareFn : Option Elm → Elm → Int} {elm : Elm} {array : List Elm} {search : Search Elm}

/-- The part of the array that is left gets smaller, unless the comparison goes wrong. -/
theorem turn_shrinks {next : Search Elm} (room : array.length < 2 ^ 32) {lo hi : Nat}
    (minIdx : search.minIdx = lo) (maxIdx : search.maxIdx = hi) (within : hi ≤ array.length)
    (turned : (locationLoop compareFn elm array).turn search = some (.inl next))
    (defined : none ∉ next.calls) :
    ∃ low high : Nat, next.minIdx = low ∧ next.maxIdx = high ∧ high ≤ array.length ∧
      high - low < hi - lo := by
  by_cases inside : search.minIdx < search.maxIdx
  · have turn := turn_inside compareFn elm array inside
    have called := narrow_calls search (halfOf (search.minIdx + search.maxIdx))
      (pivotAt array (halfOf (search.minIdx + search.maxIdx)))
      (compareFn (pivotAt array (halfOf (search.minIdx + search.maxIdx))) elm)
    have went := Option.some.inj (turn.symm.trans turned)
    rw [went] at called
    rw [minIdx, maxIdx] at inside
    have valid : 0 ≤ halfOf ((lo : Int) + hi) := by
      by_contra negative
      apply defined
      have undefined : pivotAt array (halfOf (search.minIdx + search.maxIdx)) = none := by
        rw [minIdx, maxIdx]
        exact if_neg negative
      have made : next.calls = search.calls ++
          [pivotAt array (halfOf (search.minIdx + search.maxIdx))] := called
      rw [made, undefined]
      exact List.mem_append_right _ (List.mem_singleton_self _)
    have middle := halfOf_valid (by omega) valid
    rw [minIdx, maxIdx, middle] at went
    have less : lo < hi := by omega
    unfold Search.narrow at went
    split at went
    · split at went
      · cases went
      · cases went
        exact ⟨(lo + hi) / 2, hi, rfl, maxIdx, within, by omega⟩
    · split at went
      · split at went
        · cases went
        · cases went
          exact ⟨lo, (lo + hi) / 2, minIdx, rfl, by omega, by omega⟩
      · cases went
  · have left : (locationLoop compareFn elm array).turn search = some (.inr search.leave) :=
      if_neg inside
    cases turned.symm.trans left

/-- The search ends within the number of turns that it is given. -/
theorem run_of_locationOf (room : array.length < 2 ^ 32) {index : Int}
    {calls : List (Option Elm)} (location : LocationOf compareFn elm array index calls)
    (defined : none ∉ calls) :
    (locationLoop compareFn elm array).run (array.length + 1) (start array) =
      some (index, calls) := by
  have ran := location.run_of_shrinks
    (fun search => ∃ lo hi : Nat, search.minIdx = (lo : Int) ∧ search.maxIdx = (hi : Int) ∧
      hi ≤ array.length)
    (fun search => search.maxIdx.toNat - search.minIdx.toNat) ?_
    ⟨0, array.length, rfl, rfl, Nat.le_refl _⟩
  · exact ran
  · rintro search next ⟨lo, hi, minIdx, maxIdx, within⟩ later turned
    obtain ⟨low, high, nextMin, nextMax, still, smaller⟩ := turn_shrinks room minIdx maxIdx within
      turned fun undefined => defined ((calls_before later).subset undefined)
    refine ⟨⟨low, high, nextMin, nextMax, still⟩, ?_⟩
    rw [minIdx, maxIdx, nextMin, nextMax]
    simpa using smaller

private theorem all_isSome_iff {calls : List (Option Elm)} :
    calls.all Option.isSome = true ↔ none ∉ calls := by
  rw [List.all_eq_true]
  constructor
  · exact fun each undefined => absurd (each none undefined) nofun
  · intro defined call made
    cases call with
    | none => exact absurd made defined
    | some pivot => rfl

theorem insertSorted_iff {after : List Elm} : insertSorted compareFn elm array = some after ↔
    ∃ calls, InsertSorted compareFn elm array after calls ∧ none ∉ calls := by
  unfold insertSorted InsertSorted
  by_cases empty : array.length = 0
  · simp only [if_pos empty]
    exact ⟨fun spliced => ⟨[], ⟨spliced, rfl⟩, List.not_mem_nil⟩, fun ⟨_, spliced, _⟩ => spliced.1⟩
  · simp only [if_neg empty]
    constructor
    · intro inserted
      split at inserted
      · cases inserted
      · rename_i index calls ran
        split at inserted
        · exact ⟨calls, ⟨index, ⟨_, ran⟩, inserted⟩, all_isSome_iff.mp ‹_›⟩
        · cases inserted
    · rintro ⟨calls, ⟨index, location, spliced⟩, defined⟩
      have room : array.length < 2 ^ 32 := by
        by_contra full
        rw [splice, if_neg (by omega)] at spliced
        cases spliced
      simp only [run_of_locationOf room location defined]
      rw [if_pos (all_isSome_iff.mpr defined)]
      exact spliced

theorem insertSorted_perm {after : List Elm}
    (inserted : insertSorted compareFn elm array = some after) : after.Perm (elm :: array) := by
  have spliced : ∃ index, splice array index elm = some after := by
    obtain ⟨calls, inserts, -⟩ := insertSorted_iff.mp inserted
    unfold InsertSorted at inserts
    split at inserts
    · exact ⟨0, inserts.1⟩
    · exact inserts.imp fun index both => both.2
  obtain ⟨index, spliced⟩ := spliced
  unfold splice at spliced
  split at spliced
  · cases spliced
    refine List.perm_middle.trans ?_
    rw [List.take_append_drop]
  · cases spliced

/-- In a short array the search looks at elements only, and ends. -/
theorem returns_of_short (short : array.length < 2 ^ 31) (size : Nat) :
    ∀ (search : Search Elm) (lo hi : Nat), hi - lo ≤ size → search.minIdx = lo →
      search.maxIdx = hi → hi ≤ array.length → none ∉ search.calls →
        ∃ index calls, (locationLoop compareFn elm array).Returns search (index, calls) ∧
          none ∉ calls := by
  induction size with
  | zero =>
      intro search lo hi gap minIdx maxIdx _ defined
      have left : (locationLoop compareFn elm array).turn search = some (.inr search.leave) :=
        if_neg (by omega)
      exact ⟨_, _, Loop.returns_of_done left, defined⟩
  | succ size ih =>
      intro search lo hi gap minIdx maxIdx within defined
      by_cases inside : search.minIdx < search.maxIdx
      · have less : lo < hi := by omega
        have there : (lo + hi) / 2 < array.length := by omega
        have middle : halfOf (search.minIdx + search.maxIdx) = ((lo + hi) / 2 : Nat) := by
          rw [minIdx, maxIdx]
          exact halfOf_small (by omega)
        have turned := turn_inside compareFn elm array inside
        rw [middle, pivotAt_nat, List.getElem?_eq_getElem there] at turned
        have calls : none ∉ search.calls ++ [some array[(lo + hi) / 2]] := by simpa using defined
        generalize compareFn (some array[(lo + hi) / 2]) elm = cmp at turned
        unfold Search.narrow at turned
        split at turned
        · split at turned
          · exact ⟨_, _, Loop.returns_of_done turned, calls⟩
          · obtain ⟨index, made, returns, all⟩ :=
              ih ⟨cmp, ↑((lo + hi) / 2), ↑((lo + hi) / 2), search.maxIdx, _⟩ ((lo + hi) / 2) hi
                (by omega) rfl maxIdx within calls
            exact ⟨index, made, returns.of_turn turned, all⟩
        · split at turned
          · split at turned
            · exact ⟨_, _, Loop.returns_of_done turned, calls⟩
            · obtain ⟨index, made, returns, all⟩ :=
                ih ⟨cmp, search.minIdx, ↑((lo + hi) / 2), ↑((lo + hi) / 2), _⟩ lo ((lo + hi) / 2)
                  (by omega) minIdx rfl (Nat.le_of_lt there) calls
              exact ⟨index, made, returns.of_turn turned, all⟩
          · exact ⟨_, _, Loop.returns_of_done turned, calls⟩
      · have left : (locationLoop compareFn elm array).turn search = some (.inr search.leave) :=
          if_neg inside
        exact ⟨_, _, Loop.returns_of_done left, defined⟩

/-- Any comparison of elements will do in a short array. -/
theorem isSome_insertSorted (short : array.length < 2 ^ 31) :
    (insertSorted compareFn elm array).isSome := by
  have spliced : ∀ index, ∃ after, splice array index elm = some after :=
    fun index => ⟨_, if_pos (by omega)⟩
  by_cases empty : array.length = 0
  · obtain ⟨after, done⟩ := spliced 0
    have inserts : InsertSorted compareFn elm array after [] := (if_pos empty).mpr ⟨done, rfl⟩
    exact Option.isSome_of_mem (insertSorted_iff.mpr ⟨[], inserts, List.not_mem_nil⟩)
  · obtain ⟨index, calls, returns, defined⟩ :=
      @returns_of_short _ compareFn elm array short array.length (start array) 0 array.length
        (Nat.le_refl _) rfl rfl (Nat.le_refl _) List.not_mem_nil
    obtain ⟨after, done⟩ := spliced index
    have inserts : InsertSorted compareFn elm array after calls :=
      (if_neg empty).mpr ⟨index, returns, done⟩
    exact Option.isSome_of_mem (insertSorted_iff.mpr ⟨calls, inserts, defined⟩)

theorem isSome_insertSorted_two : (insertSorted (fun _ _ => (1 : Int)) 7 [3, 2]).isSome :=
  isSome_insertSorted (by decide)

theorem insertSorted_ascending {after : List Elm} (three : ThreeWay (order compareFn))
    (ascending : Ascending (order compareFn) array)
    (inserted : insertSorted compareFn elm array = some after) :
    Ascending (order compareFn) after := by
  by_cases empty : array.length = 0
  · obtain rfl := List.eq_nil_of_length_eq_zero empty
    rw [List.perm_singleton.mp (insertSorted_perm inserted)]
    exact List.pairwise_singleton _ _
  · obtain ⟨calls, inserts, defined⟩ := insertSorted_iff.mp inserted
    obtain ⟨index, location, spliced⟩ := (if_neg empty).mp inserts
    have room : array.length + 1 < 2 ^ 32 := by
      by_contra full
      rw [splice, if_neg full] at spliced
      cases spliced
    obtain ⟨place, rfl, located⟩ :=
      located_of_defined three ascending (by omega) empty location defined
    rw [splice_nat room] at spliced
    cases spliced
    exact located.sorts three ascending

/-- Inserting depends on how the elements of the array compare with the new one. -/
theorem insertSorted_congr {other : Option Elm → Elm → Int}
    (undefined : other none elm = compareFn none elm)
    (same : ∀ pivot ∈ array, other (some pivot) elm = compareFn (some pivot) elm) :
    insertSorted other elm array = insertSorted compareFn elm array := by
  have compared : ∀ index,
      other (pivotAt array index) elm = compareFn (pivotAt array index) elm := by
    intro index
    cases here : pivotAt array index with
    | none => exact undefined
    | some pivot =>
        refine same pivot ?_
        unfold pivotAt at here
        split at here
        · exact List.mem_of_getElem? here
        · cases here
  have loops : locationLoop other elm array = locationLoop compareFn elm array := by
    simp only [locationLoop, compared]
  rw [insertSorted, insertSorted, loops]

end Turns

/-- Numbers compared by their difference; undefined compares like zero. -/
def difference (pivot : Option Int) (elm : Int) : Int := pivot.getD 0 - elm

theorem threeWay_difference : ThreeWay (order difference) where
  turned := by
    intro a b
    simp only [order, difference, Option.getD_some]
    omega
  trans := by
    intro a b c
    simp only [order, difference, Option.getD_some]
    omega

/-- Behind the only element there is nothing to be compared with. -/
theorem single_not_right : ThreeWay (order difference) ∧ Ascending (order difference) [1] ∧
    ¬ Right difference 2 [1] := by
  refine ⟨threeWay_difference, by decide, ?_⟩
  intro right
  have late : 0 ≤ order difference 1 2 := right.last threeWay_difference (by decide) (by decide) rfl
  exact absurd late (by decide)

theorem searches_iff_careful_three : ThreeWay (order difference) ∧
    Ascending (order difference) [1, 3, 5] ∧
      (Right difference 3 [1, 3, 5] ↔ Careful difference 3 [1, 3, 5]) :=
  ⟨threeWay_difference, by decide, searches_iff_careful threeWay_difference (by decide)⟩

end Tvntd.SortedArray
