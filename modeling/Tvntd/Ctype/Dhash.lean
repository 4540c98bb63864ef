import Mathlib.Data.List.Basic
import Mathlib.Data.List.Range
import Mathlib.Logic.Function.Basic
import Tvntd.Lib.Chained
import Mathlib.Algebra.Group.Nat.Defs
import Mathlib.Algebra.Group.Int.Defs

/-! # The doubly linked hash table

The model of `common/ctype/hash.c` over circular lists. The buckets of a table
are lists of links, and an iterator position in the ring of one bucket is `0` at
the list head and `i + 1` at the link of index `i`. A link stands for its
address, so unlinking it takes it out of whatever list holds it.

`none` is the end of the program: a failed `assert`, or undefined behaviour.
Callers insert a link only while it is in no list and take it out only while it
is in the table, as the comments of the source require.
-/

namespace Tvntd

variable {ε : Type*}

/-- The value of a signed `int` sum; overflow is undefined. -/
def intValue (value : Int) : Option Int := if value < 2 ^ 31 then some value else none

/-! ## Positions in one bucket -/

/-- `dlist_iter_next`: from the head to the first link, from the last link to the head. -/
def dlistIterNext (list : List ε) (iter : Nat) : Nat :=
  if iter < list.length then iter + 1 else 0

/-- `dlist_iter_prev` -/
def dlistIterPrev (list : List ε) (iter : Nat) : Nat :=
  if iter = 0 then list.length else iter - 1

/-- `dlist_iter_init`: the successor of the head. -/
def dlistIterInit (list : List ε) : Nat := dlistIterNext list 0

/-- `dlist_iter_term` -/
def dlistIterTerm (iter : Nat) : Bool := iter = 0

/-! ## Tables -/

/-- A bucket selector of the source, `int (*)(int bk_size, const dhash_elm_t *)`. A negative
result fails the assertion of every caller and is `none` here. -/
abbrev HashFn (ε : Type*) := Nat → ε → Option Nat

/-- A comparison of the source; it gives `0` on equal elements. -/
abbrev CmpFn (ε : Type*) := ε → ε → Option Int

/-- The two functions stored in a table. -/
structure DhashFn (ε : Type*) where
  dhHashFn : HashFn ε
  dhCmpFn : CmpFn ε

/-- `dhash_t` without its stored functions. -/
structure Dhash (ε : Type*) where
  dhBucket : Nat → List ε
  dhBkSize : Nat
  dhElmCnt : Int
  dhMaxChain : Nat

/-- `dhash_init` -/
def dhashInit (size : Nat) : Dhash ε where
  dhBucket := fun _ => []
  dhBkSize := size
  dhElmCnt := 0
  dhMaxChain := 0

/-- `hash_fn(table->dh_bk_size, elm)` and the assertion that bounds it. -/
def dhashIndex (table : Dhash ε) (elm : ε) (hashFn : HashFn ε) : Option Nat :=
  (hashFn table.dhBkSize elm).bind fun index =>
    if index < table.dhBkSize then some index else none

/-- `dhash_insert_elm`: the bucket index and the table. -/
def dhashInsertElm (table : Dhash ε) (elm : ε) (hashFn : HashFn ε) : Option (Nat × Dhash ε) :=
  (dhashIndex table elm hashFn).bind fun index =>
    (intValue (table.dhElmCnt + 1)).map fun count =>
      (index, { table with
        dhElmCnt := count
        dhBucket := Function.update table.dhBucket index (table.dhBucket index ++ [elm]) })

/-- The loop over one bucket in `dhash_find_elm` and `dhash_rm_elm`: the number of links
visited and the link that compares equal. -/
def dhashScan (cmpFn : CmpFn ε) (elm : ε) : List ε → Nat → Option (Nat × Option ε)
  | [], cnt => some (cnt, none)
  | iter :: rest, cnt =>
      (cmpFn iter elm).bind fun order =>
        if order = 0 then some (cnt + 1, some iter) else dhashScan cmpFn elm rest (cnt + 1)

section Links

variable [DecidableEq ε]

/-- `dlist_rm` -/
def dlistRm (bucket : Nat → List ε) (elm : ε) : Nat → List ε := fun i => (bucket i).erase elm

/-- `dhash_takeout_elm` -/
def dhashTakeoutElm (table : Dhash ε) (elm : ε) : Dhash ε :=
  { table with dhElmCnt := table.dhElmCnt - 1, dhBucket := dlistRm table.dhBucket elm }

/-! ## Iteration -/

/-- `dhash_iter_t`: the current bucket, `none` at the end, and the position in its ring. -/
structure DhashIter where
  dhCurr : Option Nat
  dhIter : Nat

/-- `dhash_iter_term` -/
def dhashIterTerm (iter : DhashIter) : Bool := iter.dhCurr.isNone

/-- The inner loop of `dhash_iter_next`: the first non-empty bucket among `left` buckets. -/
def dhashIterSkip (table : Dhash ε) : Nat → Nat → DhashIter
  | 0, _ => ⟨none, 0⟩
  | left + 1, curr =>
      if (table.dhBucket curr).isEmpty then dhashIterSkip table left (curr + 1)
      else ⟨some curr, dlistIterInit (table.dhBucket curr)⟩

/-- `dhash_iter_next`. The first bucket is entered again after its head. -/
def dhashIterNext (table : Dhash ε) (iter : DhashIter) : DhashIter :=
  match iter.dhCurr with
  | none => iter
  | some curr =>
      let moved := dlistIterNext (table.dhBucket curr) iter.dhIter
      if (!dlistIterTerm iter.dhIter || curr = 0) && !dlistIterTerm moved then ⟨some curr, moved⟩
      else dhashIterSkip table (table.dhBkSize - (curr + 1)) (curr + 1)

/-- `dhash_iter_init` -/
def dhashIterInit (table : Dhash ε) : DhashIter :=
  let iter : DhashIter := ⟨some 0, dlistIterInit (table.dhBucket 0)⟩
  if dlistIterTerm iter.dhIter then dhashIterNext table iter else iter

/-- `dhash_iter_rm_curr`: the unlinked element, the table, and the iterator moved back to the
previous link or, past the front of its bucket, to the bucket before. Unlinking a list head
is undefined. -/
def dhashIterRmCurr (table : Dhash ε) (iter : DhashIter) :
    Option (ε × Dhash ε × DhashIter) :=
  iter.dhCurr.bind fun curr =>
    if iter.dhIter = 0 then none
    else
      (table.dhBucket curr)[iter.dhIter - 1]?.map fun elm =>
        let prev := dlistIterPrev (table.dhBucket curr) iter.dhIter
        let rest := dhashTakeoutElm table elm
        if dlistIterTerm prev then
          if 0 < curr then (elm, rest, ⟨some (curr - 1), dlistIterInit (rest.dhBucket (curr - 1))⟩)
          else (elm, rest, ⟨some curr, 0⟩)
        else (elm, rest, ⟨some curr, prev⟩)

/-! ## Rehashing, removing and finding -/

/-- The loop of `dhash_rehash`: every element the iterator removes from `table` goes to `out`.
The first argument bounds the number of turns. -/
def dhashRehashLoop (hashFn : HashFn ε) :
    Nat → Dhash ε → DhashIter → Dhash ε → Nat → Option (Dhash ε × Nat)
  | turns, table, iter, out, count =>
      if dhashIterTerm iter then some (out, count)
      else
        match turns with
        | 0 => none
        | turns + 1 =>
            (dhashIterRmCurr table iter).bind fun (elm, rest, back) =>
              (dhashInsertElm { out with dhElmCnt := 0 } elm hashFn).bind fun (_, filled) =>
                dhashRehashLoop hashFn turns rest (dhashIterNext rest back) filled (count + 1)

/-- The links of a table, bucket by bucket. -/
def Dhash.links (table : Dhash ε) : List ε := (List.range table.dhBkSize).flatMap table.dhBucket

/-- `dhash_rehash`. The larger bucket array has `1 + dh_bk_size * 2` entries. -/
def dhashRehash (fn : DhashFn ε) (table : Dhash ε) : Option (Dhash ε) :=
  (intValue (1 + table.dhBkSize * 2)).bind fun size =>
    let emptied := { table with dhElmCnt := 0 }
    (dhashRehashLoop fn.dhHashFn table.links.length emptied (dhashIterInit emptied)
        (dhashInit size.toNat) 0).map fun (out, count) =>
      { dhBucket := out.dhBucket
        dhBkSize := out.dhBkSize
        dhElmCnt := count
        dhMaxChain := out.dhMaxChain }

/-- A probe that visited `32` links or more moves the table to a larger bucket array. -/
def dhashGrow (fn : DhashFn ε) (table : Dhash ε) (cnt : Nat) : Option (Dhash ε) :=
  let probed := { table with dhMaxChain := max table.dhMaxChain cnt }
  if 32 ≤ cnt ∧ 0 < probed.dhElmCnt then dhashRehash fn probed else some probed

/-- `dhash_rm_elm` -/
def dhashRmElm (fn : DhashFn ε) (table : Dhash ε) (elm : ε) (hashFn : HashFn ε)
    (hashCmp : CmpFn ε) : Option (Option ε × Dhash ε) :=
  (dhashIndex table elm hashFn).bind fun index =>
    (dhashScan hashCmp elm (table.dhBucket index) 0).bind fun (chain, cur) =>
      let unlinked :=
        match cur with
        | some iter =>
            { table with
              dhElmCnt := table.dhElmCnt - 1
              dhBucket := dlistRm table.dhBucket iter }
        | none => table
      (dhashGrow fn unlinked chain).map fun grown => (cur, grown)

/-- `dhash_find_elm` -/
def dhashFindElm (fn : DhashFn ε) (table : Dhash ε) (elm : ε) (hashFn : HashFn ε)
    (hashCmp : CmpFn ε) : Option (Option ε × Dhash ε) :=
  (dhashIndex table elm hashFn).bind fun index =>
    (dhashScan hashCmp elm (table.dhBucket index) 0).bind fun (cnt, found) =>
      (dhashGrow fn table cnt).map fun grown => (found, grown)

/-- `dhash_insert` -/
def dhashInsert (fn : DhashFn ε) (table : Dhash ε) (elm : ε) : Option (Nat × Dhash ε) :=
  dhashInsertElm table elm fn.dhHashFn

/-- `dhash_rm` -/
def dhashRm (fn : DhashFn ε) (table : Dhash ε) (elm : ε) : Option (Option ε × Dhash ε) :=
  dhashRmElm fn table elm fn.dhHashFn fn.dhCmpFn

/-- `dhash_find` -/
def dhashFind (fn : DhashFn ε) (table : Dhash ε) (elm : ε) : Option (Option ε × Dhash ε) :=
  dhashFindElm fn table elm fn.dhHashFn fn.dhCmpFn

end Links

end Tvntd
