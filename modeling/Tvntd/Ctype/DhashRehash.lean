import Tvntd.Ctype.Dhash

/-! # What a probe and a rehash compute

`dhash_rehash` empties the table through the removing iterator. The iterator
always stands at the first link of the first non-empty bucket
(`Dhash.AtFront`): removing that link moves it back over the emptied buckets
and advancing it finds the next front. Each turn therefore takes the head of
`Dhash.links` and appends it to the bucket of its new slot.
-/

namespace Tvntd

open Chaining

variable {ε : Type*}

theorem intValue_of_lt {value : Int} (fits : value < 2 ^ 31) : intValue value = some value :=
  if_pos fits

theorem intValue_of_le {value : Int} (wide : 2 ^ 31 ≤ value) : intValue value = none :=
  if_neg (Int.not_lt.mpr wide)

theorem dhashIndex_of_some {table : Dhash ε} {elm : ε} {hashFn : HashFn ε} {index : Nat}
    (hashed : hashFn table.dhBkSize elm = some index) (inside : index < table.dhBkSize) :
    dhashIndex table elm hashFn = some index := by
  unfold dhashIndex
  rw [hashed, Option.bind_some, if_pos inside]

theorem dhashInsertElm_eq {table : Dhash ε} {elm : ε} {hashFn : HashFn ε} {index : Nat}
    (hashed : hashFn table.dhBkSize elm = some index) (inside : index < table.dhBkSize)
    (fits : table.dhElmCnt + 1 < 2 ^ 31) :
    dhashInsertElm table elm hashFn =
      some (index, { table with
        dhElmCnt := table.dhElmCnt + 1
        dhBucket := Function.update table.dhBucket index (table.dhBucket index ++ [elm]) }) := by
  unfold dhashInsertElm
  rw [dhashIndex_of_some hashed inside, Option.bind_some, intValue_of_lt fits]
  rfl

/-- An insertion that returned hashed its element to a bucket and had room to count it. -/
theorem dhashInsertElm_some {table next : Dhash ε} {elm : ε} {hashFn : HashFn ε} {index : Nat}
    (inserted : dhashInsertElm table elm hashFn = some (index, next)) :
    hashFn table.dhBkSize elm = some index ∧ index < table.dhBkSize ∧
      table.dhElmCnt + 1 < 2 ^ 31 := by
  unfold dhashInsertElm dhashIndex intValue at inserted
  obtain ⟨found, bounded, inserted⟩ := Option.bind_eq_some_iff.mp inserted
  obtain ⟨hashed, placed, bounded⟩ := Option.bind_eq_some_iff.mp bounded
  obtain ⟨count, fits, same⟩ := Option.map_eq_some_iff.mp inserted
  cases same
  by_cases inside : hashed < table.dhBkSize
  · rw [if_pos inside] at bounded
    cases bounded
    by_cases room : table.dhElmCnt + 1 < 2 ^ 31
    · exact ⟨placed, inside, room⟩
    · rw [if_neg room] at fits
      cases fits
  · rw [if_neg inside] at bounded
    cases bounded

/-! ## Probes -/

/-- The number of links a probe visits: up to the first match, or all of them. -/
def probeVisits (same : ε → Bool) (list : List ε) : Nat :=
  min (list.findIdx same + 1) list.length

theorem dhashScan_eq (cmpFn : CmpFn ε) (elm : ε) (same : ε → Bool) (list : List ε)
    (compares : ∀ e ∈ list, ∃ order, cmpFn e elm = some order ∧ (order = 0 ↔ same e = true))
    (cnt : Nat) :
    dhashScan cmpFn elm list cnt = some (cnt + probeVisits same list, list.find? same) := by
  induction list generalizing cnt with
  | nil => rfl
  | cons iter rest ih =>
      obtain ⟨order, compared, zero⟩ := compares iter List.mem_cons_self
      rw [dhashScan, compared, Option.bind_some]
      by_cases matched : same iter = true
      · rw [if_pos (zero.mpr matched), List.find?_cons_of_pos matched]
        have visits : probeVisits same (iter :: rest) = 1 := by
          simp [probeVisits, List.findIdx_cons, matched]
        rw [visits]
      · rw [if_neg (fun equal => matched (zero.mp equal)), List.find?_cons_of_neg matched,
          ih (fun e member => compares e (List.mem_cons_of_mem _ member))]
        have visits : probeVisits same (iter :: rest) = 1 + probeVisits same rest := by
          have differs : same iter = false := Bool.eq_false_iff.mpr matched
          simp only [probeVisits, List.findIdx_cons, differs, cond_false, List.length_cons]
          omega
        rw [visits, Nat.add_assoc]

/-- A scan that returned found the first link that matches, wherever the comparison decides. -/
theorem dhashScan_some {cmpFn : CmpFn ε} {elm : ε} {same : ε → Bool} {list : List ε}
    (decides : ∀ e order, cmpFn e elm = some order → (order = 0 ↔ same e = true)) {cnt : Nat}
    {visited : Nat} {found : Option ε} (scanned : dhashScan cmpFn elm list cnt = some (visited, found)) :
    found = list.find? same := by
  induction list generalizing cnt with
  | nil =>
      cases scanned
      rfl
  | cons iter rest ih =>
      rw [dhashScan] at scanned
      obtain ⟨order, compared, scanned⟩ := Option.bind_eq_some_iff.mp scanned
      have zero := decides iter order compared
      by_cases equal : order = 0
      · rw [if_pos equal] at scanned
        cases scanned
        rw [List.find?_cons_of_pos (zero.mp equal)]
      · rw [if_neg equal] at scanned
        rw [List.find?_cons_of_neg fun matched => equal (zero.mpr matched)]
        exact ih scanned

/-- A probe visits more than `n` links when the list has that many and the first `n` do not
match. -/
theorem lt_probeVisits (same : ε → Bool) (list : List ε) (n : Nat) :
    n < probeVisits same list ↔ n < list.length ∧ ∀ e ∈ list.take n, same e = false := by
  induction list generalizing n with
  | nil => simp [probeVisits]
  | cons iter rest ih =>
      cases matched : same iter with
      | true =>
          have visits : probeVisits same (iter :: rest) = 1 := by
            simp [probeVisits, List.findIdx_cons, matched]
          cases n with
          | zero => simp [visits]
          | succ n => simp [visits, matched]
      | false =>
          have visits : probeVisits same (iter :: rest) = 1 + probeVisits same rest := by
            simp only [probeVisits, List.findIdx_cons, matched, cond_false, List.length_cons]
            omega
          cases n with
          | zero =>
              have positive : 0 < probeVisits same (iter :: rest) := by omega
              simp [positive]
          | succ n =>
              have shift : n + 1 < probeVisits same (iter :: rest) ↔ n < probeVisits same rest := by
                omega
              rw [shift, ih n]
              simp [matched]

/-- A walk over at least `32` links: the first `31` do not match. -/
def LongWalk (same : ε → Bool) (list : List ε) : Prop :=
  31 < list.length ∧ ∀ e ∈ list.take 31, same e = false

theorem longWalk_iff (same : ε → Bool) (list : List ε) :
    LongWalk same list ↔ 32 ≤ probeVisits same list := by
  rw [Nat.succ_le_iff, lt_probeVisits]
  rfl

/-! ## The removing iterator -/

variable [DecidableEq ε]

/-- The iterator stands at the first link of the first non-empty bucket, or it has ended and
every bucket is empty. -/
def Dhash.AtFront (table : Dhash ε) (iter : DhashIter) : Prop :=
  match iter.dhCurr with
  | none => ∀ i < table.dhBkSize, table.dhBucket i = []
  | some curr => curr < table.dhBkSize ∧ iter.dhIter = 1 ∧ table.dhBucket curr ≠ [] ∧
      ∀ i < curr, table.dhBucket i = []

omit [DecidableEq ε] in
private theorem dhashIterSkip_atFront (table : Dhash ε) {left curr : Nat}
    (sum : curr + left = table.dhBkSize) (before : ∀ i < curr, table.dhBucket i = []) :
    table.AtFront (dhashIterSkip table left curr) := by
  induction left generalizing curr with
  | zero => exact fun i inside => before i (by omega)
  | succ left ih =>
      rw [dhashIterSkip]
      cases empty : (table.dhBucket curr).isEmpty with
      | true =>
          refine ih (by omega) ?_
          intro i inside
          rcases Nat.lt_succ_iff_lt_or_eq.mp inside with earlier | rfl
          · exact before i earlier
          · exact List.isEmpty_iff.mp empty
      | false =>
          have linked : table.dhBucket curr ≠ [] := fun none => by simp [none] at empty
          refine ⟨by omega, ?_, linked, before⟩
          exact if_pos (List.length_pos_iff.mpr linked)

omit [DecidableEq ε] in
/-- From the head of an empty bucket the iterator goes on to the next bucket. -/
theorem dhashIterNext_of_nil {table : Dhash ε} {curr : Nat} (empty : table.dhBucket curr = []) :
    dhashIterNext table ⟨some curr, 0⟩ =
      dhashIterSkip table (table.dhBkSize - (curr + 1)) (curr + 1) := by
  unfold dhashIterNext
  simp only [empty, dlistIterNext, dlistIterTerm, List.length_nil, lt_irrefl, if_false,
    decide_true, Bool.not_true, Bool.and_false, Bool.false_eq_true]

omit [DecidableEq ε] in
/-- From the head of the first bucket the iterator goes to the first link. -/
theorem dhashIterNext_zero_of_ne_nil {table : Dhash ε} (linked : table.dhBucket 0 ≠ []) :
    dhashIterNext table ⟨some 0, 0⟩ = ⟨some 0, 1⟩ := by
  have position : dlistIterNext (table.dhBucket 0) 0 = 1 :=
    if_pos (List.length_pos_iff.mpr linked)
  unfold dhashIterNext
  simp only [position, dlistIterTerm]
  rfl

omit [DecidableEq ε] in
theorem dhashIterInit_atFront (table : Dhash ε) (positive : 0 < table.dhBkSize) :
    table.AtFront (dhashIterInit table) := by
  unfold dhashIterInit
  by_cases empty : table.dhBucket 0 = []
  · have position : dlistIterInit (table.dhBucket 0) = 0 := by
      rw [empty]
      rfl
    simp only [position, dlistIterTerm, decide_true, if_true, dhashIterNext_of_nil empty]
    refine dhashIterSkip_atFront table (by omega) ?_
    intro i first
    rw [show i = 0 by omega, empty]
  · have position : dlistIterInit (table.dhBucket 0) = 1 :=
      if_pos (List.length_pos_iff.mpr empty)
    simp only [position, dlistIterTerm, Nat.one_ne_zero, decide_false, Bool.false_eq_true, if_false]
    exact ⟨positive, rfl, empty, fun i before => (Nat.not_lt_zero i before).elim⟩

omit [DecidableEq ε] in
/-- The links of a table whose first buckets are empty. -/
theorem Dhash.links_eq_append (table : Dhash ε) {curr : Nat} (inside : curr < table.dhBkSize)
    (before : ∀ i < curr, table.dhBucket i = []) :
    table.links = table.dhBucket curr ++
      (List.range' (curr + 1) (table.dhBkSize - (curr + 1))).flatMap table.dhBucket := by
  have split : List.range table.dhBkSize =
      List.range curr ++ curr :: List.range' (curr + 1) (table.dhBkSize - (curr + 1)) := by
    rw [List.range_eq_range', List.range_eq_range', ← List.range'_succ]
    have joined := @List.range'_append_1 0 curr (table.dhBkSize - (curr + 1) + 1)
    rw [Nat.zero_add] at joined
    rw [joined]
    congr 1
    omega
  have none : (List.range curr).flatMap table.dhBucket = [] := by
    rw [List.flatMap_eq_nil_iff]
    exact fun i member => before i (List.mem_range.mp member)
  rw [Dhash.links, split, List.flatMap_append, none, List.nil_append, List.flatMap_cons]

omit [DecidableEq ε] in
theorem Dhash.AtFront.links_eq_nil {table : Dhash ε} {iter : DhashIter}
    (front : table.AtFront iter) : dhashIterTerm iter = true ↔ table.links = [] := by
  unfold Dhash.AtFront at front
  cases at_ : iter.dhCurr with
  | none =>
      rw [at_] at front
      simp only [dhashIterTerm, at_, Option.isNone_none, Dhash.links, true_iff]
      rw [List.flatMap_eq_nil_iff]
      exact fun i member => front i (List.mem_range.mp member)
  | some curr =>
      rw [at_] at front
      obtain ⟨inside, -, linked, before⟩ := front
      simp only [dhashIterTerm, at_, Option.isNone_some, Bool.false_eq_true, false_iff]
      rw [table.links_eq_append inside before]
      exact fun empty => linked (List.append_eq_nil_iff.mp empty).1

/-- One turn of the emptying loop: the first link of the table is unlinked and the iterator
reaches the front of what is left. -/
theorem Dhash.AtFront.rmCurr {table : Dhash ε} {iter : DhashIter} (front : table.AtFront iter)
    {elm : ε} {left : List ε} (links : table.links = elm :: left) (nodup : table.links.Nodup) :
    ∃ rest back, dhashIterRmCurr table iter = some (elm, rest, back) ∧
      rest.links = left ∧ rest.dhBkSize = table.dhBkSize ∧
      rest.AtFront (dhashIterNext rest back) := by
  have running : dhashIterTerm iter = false := by
    rw [Bool.eq_false_iff]
    intro ended
    have none := front.links_eq_nil.mp ended
    rw [none] at links
    exact List.cons_ne_nil _ _ links.symm
  obtain ⟨curr, at_⟩ := Option.isSome_iff_exists.mp
    (by simpa [dhashIterTerm, Option.isNone_eq_false_iff] using running)
  unfold Dhash.AtFront at front
  rw [at_] at front
  obtain ⟨inside, position, linked, before⟩ := front
  obtain ⟨first, tail, bucket⟩ := List.exists_cons_of_ne_nil linked
  have whole := table.links_eq_append inside before
  rw [whole, bucket] at nodup
  rw [whole, bucket, List.cons_append] at links
  obtain ⟨rfl, same⟩ := List.cons.inj links
  have fresh : first ∉ tail ++
      (List.range' (curr + 1) (table.dhBkSize - (curr + 1))).flatMap table.dhBucket :=
    (List.nodup_cons.mp nodup).1
  have here : (dhashTakeoutElm table first).dhBucket curr = tail := by
    change (table.dhBucket curr).erase first = tail
    rw [bucket, List.erase_cons_head]
  have emptied : ∀ i < curr, (dhashTakeoutElm table first).dhBucket i = [] := by
    intro i earlier
    change (table.dhBucket i).erase first = []
    rw [before i earlier, List.erase_nil]
  refine ⟨dhashTakeoutElm table first,
    if 0 < curr then
      ⟨some (curr - 1), dlistIterInit ((dhashTakeoutElm table first).dhBucket (curr - 1))⟩
    else ⟨some curr, 0⟩, ?_, ?_, rfl, ?_⟩
  · unfold dhashIterRmCurr
    rw [at_, Option.bind_some, position, if_neg Nat.one_ne_zero, bucket]
    by_cases later : 0 < curr
    · simp [dlistIterPrev, dlistIterTerm, later]
    · simp [dlistIterPrev, dlistIterTerm, later]
  · rw [(dhashTakeoutElm table first).links_eq_append inside emptied, here, ← same]
    congr 1
    apply List.flatMap_congr
    intro i member
    apply List.erase_of_not_mem
    intro linkedLater
    apply fresh
    rw [List.mem_append, List.mem_flatMap]
    exact Or.inr ⟨i, member, linkedLater⟩
  · have sized : (dhashTakeoutElm table first).dhBkSize = table.dhBkSize := rfl
    by_cases later : 0 < curr
    · have stands : dlistIterInit ((dhashTakeoutElm table first).dhBucket (curr - 1)) = 0 := by
        rw [emptied (curr - 1) (by omega)]
        rfl
      rw [if_pos later, stands, dhashIterNext_of_nil (emptied (curr - 1) (by omega))]
      refine dhashIterSkip_atFront _ (by omega) ?_
      intro i earlier
      exact emptied i (by omega)
    · obtain rfl : curr = 0 := by omega
      rw [if_neg later]
      by_cases last : (dhashTakeoutElm table first).dhBucket 0 = []
      · rw [dhashIterNext_of_nil last]
        refine dhashIterSkip_atFront _ (by omega) ?_
        intro i earlier
        rw [show i = 0 by omega, last]
      · rw [dhashIterNext_zero_of_ne_nil last]
        exact ⟨inside, rfl, last, emptied⟩

/-- The loop of `dhash_rehash` takes the links in order and chains each one by its slot in the
larger array. -/
theorem dhashRehashLoop_eq {hashFn : HashFn ε} {size : Nat} {slot : ε → Nat} {left : List ε} :
    ∀ (table : Dhash ε) {iter : DhashIter} (out : Dhash ε) (done : List ε) (count : Nat),
      table.links = left → left.Nodup → table.AtFront iter →
      (∀ e ∈ left, hashFn size e = some (slot e) ∧ slot e < size) →
      out.dhBkSize = size → out.dhMaxChain = 0 → out.dhBucket = bucketOf slot done →
      ∃ cnt, dhashRehashLoop hashFn left.length table iter out count =
        some (⟨bucketOf slot (done ++ left), size, cnt, 0⟩, count + left.length) := by
  induction left with
  | nil =>
      intro table iter out done count links _ front _ sized chained buckets
      have ended := front.links_eq_nil.mpr links
      refine ⟨out.dhElmCnt, ?_⟩
      obtain ⟨bucket, bkSize, elmCnt, maxChain⟩ := out
      subst sized chained buckets
      rw [List.length_nil, dhashRehashLoop, if_pos ended, List.append_nil, Nat.add_zero]
  | cons elm left ih =>
      intro table iter out done count links nodup front hashes sized chained buckets
      have running : ¬ dhashIterTerm iter = true := by
        intro ended
        rw [front.links_eq_nil.mp ended] at links
        exact List.cons_ne_nil _ _ links.symm
      obtain ⟨rest, back, removed, restLinks, -, restFront⟩ := front.rmCurr links (links ▸ nodup)
      obtain ⟨hashed, inside⟩ := hashes elm List.mem_cons_self
      have inserted : dhashInsertElm { out with dhElmCnt := 0 } elm hashFn =
          some (slot elm, ⟨bucketOf slot (done ++ [elm]), size, 1, 0⟩) := by
        rw [dhashInsertElm_eq (by rw [← hashed, ← sized]) (by rw [← sized] at inside; exact inside)
          (by decide : (0 : Int) + 1 < 2 ^ 31)]
        simp only [sized, chained, buckets, bucketOf_append_singleton, Int.zero_add]
      obtain ⟨cnt, looped⟩ := ih rest ⟨bucketOf slot (done ++ [elm]), size, 1, 0⟩ (done ++ [elm])
        (count + 1) restLinks (List.nodup_cons.mp nodup).2 restFront
        (fun e member => hashes e (List.mem_cons_of_mem _ member)) rfl rfl rfl
      refine ⟨cnt, ?_⟩
      rw [List.length_cons, dhashRehashLoop, if_neg running]
      simp only [removed, inserted, Option.bind_some, looped, List.append_assoc,
        List.singleton_append, Option.some.injEq, Prod.mk.injEq, true_and]
      omega

/-- `dhash_rehash` chains every link by its slot in the larger array, in the order of the old
buckets, and counts the links. -/
theorem dhashRehash_eq (fn : DhashFn ε) (table : Dhash ε) (slot : ε → Nat)
    (positive : 0 < table.dhBkSize) (fits : 1 + table.dhBkSize * 2 < 2 ^ 31)
    (nodup : table.links.Nodup)
    (hashes : ∀ e ∈ table.links, fn.dhHashFn (1 + table.dhBkSize * 2) e = some (slot e) ∧
      slot e < 1 + table.dhBkSize * 2) :
    dhashRehash fn table =
      some ⟨bucketOf slot table.links, 1 + table.dhBkSize * 2, table.links.length, 0⟩ := by
  unfold dhashRehash
  rw [intValue_of_lt (by omega), Option.bind_some]
  obtain ⟨cnt, looped⟩ := dhashRehashLoop_eq { table with dhElmCnt := 0 }
    (dhashInit (1 + table.dhBkSize * 2)) [] 0 rfl nodup
      (dhashIterInit_atFront _ positive) hashes rfl rfl rfl
  have sized : (1 + (table.dhBkSize : Int) * 2).toNat = 1 + table.dhBkSize * 2 := by omega
  have links : ({ table with dhElmCnt := 0 } : Dhash ε).links = table.links := rfl
  rw [List.nil_append, Nat.zero_add, links] at looped
  simp only [sized, looped, Option.map_some]

theorem dhashFindElm_eq (fn : DhashFn ε) {table : Dhash ε} {elm : ε} {hashFn : HashFn ε}
    {cmpFn : CmpFn ε} {index : Nat} {same : ε → Bool}
    (hashed : hashFn table.dhBkSize elm = some index) (inside : index < table.dhBkSize)
    (compares : ∀ e ∈ table.dhBucket index,
      ∃ order, cmpFn e elm = some order ∧ (order = 0 ↔ same e = true)) :
    dhashFindElm fn table elm hashFn cmpFn =
      (dhashGrow fn table (probeVisits same (table.dhBucket index))).map
        fun grown => ((table.dhBucket index).find? same, grown) := by
  have scanned := dhashScan_eq cmpFn elm same (table.dhBucket index) compares 0
  rw [Nat.zero_add] at scanned
  unfold dhashFindElm
  simp only [dhashIndex_of_some hashed inside, Option.bind_some, scanned]

/-- A probe that returned found the first link of its bucket that matches. -/
theorem dhashFindElm_some {fn : DhashFn ε} {table after : Dhash ε} {elm : ε}
    {hashFn : HashFn ε} {cmpFn : CmpFn ε} {index : Nat} {same : ε → Bool} {found : Option ε}
    (hashed : hashFn table.dhBkSize elm = some index)
    (decides : ∀ e order, cmpFn e elm = some order → (order = 0 ↔ same e = true))
    (returned : dhashFindElm fn table elm hashFn cmpFn = some (found, after)) :
    found = (table.dhBucket index).find? same := by
  unfold dhashFindElm dhashIndex at returned
  rw [hashed, Option.bind_some] at returned
  obtain ⟨at_, bounded, returned⟩ := Option.bind_eq_some_iff.mp returned
  obtain ⟨⟨cnt, result⟩, scanned, returned⟩ := Option.bind_eq_some_iff.mp returned
  obtain ⟨grown, -, same_⟩ := Option.map_eq_some_iff.mp returned
  have here : at_ = index := by
    by_cases inside : index < table.dhBkSize
    · rw [if_pos inside, Option.some.injEq] at bounded
      exact bounded.symm
    · rw [if_neg inside] at bounded
      cases bounded
  subst here
  cases same_
  exact dhashScan_some decides scanned

theorem dhashRehash_overflow (fn : DhashFn ε) {table : Dhash ε}
    (wide : 2 ^ 31 ≤ 1 + table.dhBkSize * 2) : dhashRehash fn table = none := by
  unfold dhashRehash
  rw [intValue_of_le (by omega)]
  rfl

end Tvntd
