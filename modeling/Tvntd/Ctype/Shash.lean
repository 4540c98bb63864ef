import Tvntd.Lib.Chained
import Tvntd.Ctype.Dhash

/-! # The singly linked hash table

The second half of `common/ctype/hash.c` and `slink_find` of `common/ctype/list.c`.
An insertion adds at the front of a chain and `slink_find` takes the first link
that compares equal, so the links of one table are the slots of a single list,
newest first (`Stacked`).
-/

namespace Tvntd

open Chaining Function

variable {ε : Type*}

/-- The two functions stored in a table; they return on every link. -/
structure ShashFn (ε : Type*) where
  shHashFn : Nat → ε → Nat
  shCmpFn : ε → ε → Int

structure Shash (ε : Type*) where
  shBucket : Nat → List ε
  shBkSize : Nat
  shElmCnt : Int

def shashInit (size : Nat) : Shash ε where
  shBucket := fun _ => []
  shBkSize := size
  shElmCnt := 0

/-- `slink_find`: the first link that compares equal, and the chain it leaves. -/
def slinkFind (cmpFn : ε → ε → Int) (elm : ε) (rm : Bool) : List ε → Option ε × List ε
  | [] => (none, [])
  | head :: rest =>
      if cmpFn head elm = 0 then (some head, if rm then rest else head :: rest)
      else
        let found := slinkFind cmpFn elm rm rest
        (found.1, head :: found.2)

/-- The bucket of an element and the assertion that bounds it. -/
def shashIndex (fn : ShashFn ε) (table : Shash ε) (elm : ε) : Option Nat :=
  let index := fn.shHashFn table.shBkSize elm
  if index < table.shBkSize then some index else none

/-- `shash_insert_bucket`, and `shash_insert_elm` after its hash. -/
def shashInsertBucket (table : Shash ε) (elm : ε) (index : Nat) : Option (Nat × Shash ε) :=
  if index < table.shBkSize then
    (intValue (table.shElmCnt + 1)).map fun count =>
      (index, { table with
        shElmCnt := count
        shBucket := update table.shBucket index (elm :: table.shBucket index) })
  else none

def shashInsert (fn : ShashFn ε) (table : Shash ε) (elm : ε) : Option (Nat × Shash ε) :=
  shashInsertBucket table elm (fn.shHashFn table.shBkSize elm)

def shashRm (fn : ShashFn ε) (table : Shash ε) (elm : ε) : Option (Option ε × Shash ε) :=
  (shashIndex fn table elm).map fun index =>
    let found := slinkFind fn.shCmpFn elm true (table.shBucket index)
    match found.1 with
    | some curr =>
        (some curr, { table with
          shElmCnt := table.shElmCnt - 1
          shBucket := update table.shBucket index found.2 })
    | none => (none, table)

def shashFind (fn : ShashFn ε) (table : Shash ε) (elm : ε) : Option (Option ε) :=
  (shashIndex fn table elm).map fun index =>
    (slinkFind fn.shCmpFn elm false (table.shBucket index)).1

theorem slinkFind_eq (cmpFn : ε → ε → Int) (elm : ε) (rm : Bool) (chain : List ε) :
    slinkFind cmpFn elm rm chain =
      (chain.find? fun e => cmpFn e elm = 0,
        if rm then chain.eraseP (fun e => cmpFn e elm = 0) else chain) := by
  induction chain with
  | nil => cases rm with
    | true => rfl
    | false => rfl
  | cons head rest ih =>
      by_cases equal : cmpFn head elm = 0
      · simp [slinkFind, equal]
      · cases rm with
        | true => simp [slinkFind, equal, ih]
        | false => simp [slinkFind, equal, ih]

/-- The links of the table, newest first: every bucket is a slot of one list. -/
structure Stacked (fn : ShashFn ε) (size : Nat) (table : Shash ε) (all : List ε) : Prop where
  sized : table.shBkSize = size
  buckets : table.shBucket = bucketOf (fn.shHashFn size) all
  count : table.shElmCnt = all.length

/-- The links a probe may take: those of its bucket that compare equal to it. -/
def ShashFn.takes (fn : ShashFn ε) (size : Nat) (elm linked : ε) : Bool :=
  fn.shHashFn size linked = fn.shHashFn size elm && fn.shCmpFn linked elm = 0

variable {fn : ShashFn ε} {size : Nat} {table : Shash ε} {all : List ε}

theorem stacked_init (fn : ShashFn ε) (size : Nat) : Stacked fn size (shashInit size) [] where
  sized := rfl
  buckets := rfl
  count := rfl

/-- Two functions that agree on the linked elements see the same table. -/
theorem Stacked.congr (stacked : Stacked fn size table all) {other : ShashFn ε}
    (agrees : ∀ e ∈ all, other.shHashFn size e = fn.shHashFn size e) :
    Stacked other size table all where
  sized := stacked.sized
  buckets := by
    rw [stacked.buckets]
    funext i
    apply List.filter_congr
    intro e member
    rw [agrees e member]
  count := stacked.count

theorem Stacked.index (stacked : Stacked fn size table all) {elm : ε}
    (inside : fn.shHashFn size elm < size) :
    shashIndex fn table elm = some (fn.shHashFn size elm) := by
  unfold shashIndex
  rw [stacked.sized]
  exact if_pos inside

theorem Stacked.insert (stacked : Stacked fn size table all) {elm : ε}
    (inside : fn.shHashFn size elm < size) (fits : table.shElmCnt + 1 < 2 ^ 31) :
    ∃ next, shashInsert fn table elm = some (fn.shHashFn size elm, next) ∧
      Stacked fn size next (elm :: all) := by
  refine ⟨⟨update table.shBucket (fn.shHashFn size elm)
    (elm :: table.shBucket (fn.shHashFn size elm)), table.shBkSize, table.shElmCnt + 1⟩, ?_, ?_⟩
  · unfold shashInsert shashInsertBucket intValue
    rw [stacked.sized, if_pos inside, if_pos fits]
    rfl
  · constructor
    · exact stacked.sized
    · change update table.shBucket _ _ = _
      rw [stacked.buckets, bucketOf_cons]
    · change table.shElmCnt + 1 = _
      rw [stacked.count]
      rfl

theorem shashInsert_overflow (fn : ShashFn ε) {table : Shash ε} (elm : ε)
    (wide : 2 ^ 31 ≤ table.shElmCnt + 1) : shashInsert fn table elm = none := by
  unfold shashInsert shashInsertBucket intValue
  rw [if_neg (Int.not_lt.mpr wide)]
  exact ite_self none

theorem Stacked.find (stacked : Stacked fn size table all) {elm : ε}
    (inside : fn.shHashFn size elm < size) :
    shashFind fn table elm = some (all.find? (fn.takes size elm)) := by
  unfold shashFind
  rw [stacked.index inside, Option.map_some, slinkFind_eq, stacked.buckets, find?_bucketOf]
  rfl

theorem Stacked.rm (stacked : Stacked fn size table all) {elm : ε}
    (inside : fn.shHashFn size elm < size) :
    ∃ next, shashRm fn table elm = some (all.find? (fn.takes size elm), next) ∧
      Stacked fn size next (all.eraseP (fn.takes size elm)) := by
  have scanned := slinkFind_eq fn.shCmpFn elm true (table.shBucket (fn.shHashFn size elm))
  have same : (table.shBucket (fn.shHashFn size elm)).find? (fun e => fn.shCmpFn e elm = 0) =
      all.find? (fn.takes size elm) := by
    rw [stacked.buckets, find?_bucketOf]
    rfl
  rw [same, if_pos rfl] at scanned
  unfold shashRm
  rw [stacked.index inside, Option.map_some]
  cases found : all.find? (fn.takes size elm) with
  | none =>
      rw [found] at scanned
      refine ⟨table, by simp only [scanned], ?_⟩
      rw [List.eraseP_of_forall_not fun e member => List.find?_eq_none.mp found e member]
      exact stacked
  | some linked =>
      rw [found] at scanned
      refine ⟨_, by simp only [scanned]; rfl, ?_⟩
      constructor
      · exact stacked.sized
      · change update table.shBucket _ _ = _
        rw [stacked.buckets, ← bucketOf_eraseP]
        rfl
      · change table.shElmCnt - 1 = _
        have member := List.mem_of_find?_eq_some found
        have some := List.length_pos_of_mem member
        have taken := List.find?_some found
        rw [stacked.count, List.length_eraseP_of_mem member taken]
        omega

end Tvntd
