import Mathlib.Data.List.Perm.Subperm
import Tvntd.Lib.Machine
import Tvntd.Ctype.DhashRehash

/-! # The hash table as a first-in first-out multimap

A table that is used only with its own hash and compare functions is a list of
links, oldest first: an insertion appends, a probe answers with the oldest link
that compares equal, and a removal unlinks that one. A rehash changes neither
the list nor any answer.

The larger bucket array has `1 + dh_bk_size * 2` entries, an `int`. From
`dh_bk_size = 2 ^ 30` on that product overflows, so a long probe of such a table
has no result. The element count is an `int` too.
-/

namespace Tvntd

open Chaining

variable {ε : Type*} [DecidableEq ε]

/-- The operations on a table through its own functions. -/
inductive DhashOp (ε : Type*) where
  | insert (elm : ε)
  | rm (elm : ε)
  | find (elm : ε)
  | takeout (elm : ε)

def dhashStep (fn : DhashFn ε) (table : Dhash ε) : DhashOp ε → Option (Dhash ε × Option ε)
  | .insert elm => (dhashInsert fn table elm).map fun result => (result.2, none)
  | .rm elm => (dhashRm fn table elm).map fun result => (result.2, result.1)
  | .find elm => (dhashFind fn table elm).map fun result => (result.2, result.1)
  | .takeout elm => some (dhashTakeoutElm table elm, none)

def dhashMachine (fn : DhashFn ε) : Machine (Dhash ε) (DhashOp ε) (Option ε) := ⟨dhashStep fn⟩

theorem dhashMachine_step (fn : DhashFn ε) : (dhashMachine fn).step = dhashStep fn := rfl

/-- The functions of a table that return on every link. -/
def totalFn (hash : Nat → ε → Nat) (cmp : ε → ε → Int) : DhashFn ε where
  dhHashFn := fun size elm => some (hash size elm)
  dhCmpFn := fun linked elm => some (cmp linked elm)

/-- The hash stays inside the bucket array and elements that compare equal share a bucket. -/
structure HashRespects (hash : Nat → ε → Nat) (cmp : ε → ε → Int) : Prop where
  inside : ∀ size elm, 0 < size → hash size elm < size
  agrees : ∀ size linked elm, cmp linked elm = 0 → hash size linked = hash size elm

/-- A first-in first-out multimap: the linked elements, oldest first. -/
def fifoNext (same : ε → ε → Bool) (all : List ε) : DhashOp ε → List ε × Option ε
  | .insert elm => (all ++ [elm], none)
  | .rm elm => (all.eraseP (same elm), all.find? (same elm))
  | .find elm => (all, all.find? (same elm))
  | .takeout elm => (all.erase elm, none)

/-- A link is inserted while it is in no table and taken out while it is in this one. -/
def fifoLegal (all : List ε) : DhashOp ε → Prop
  | .insert elm => elm ∉ all
  | .takeout elm => elm ∈ all
  | _ => True

instance (all : List ε) : ∀ op, Decidable (fifoLegal all op)
  | .insert elm => inferInstanceAs (Decidable (elm ∉ all))
  | .takeout elm => inferInstanceAs (Decidable (elm ∈ all))
  | .rm _ | .find _ => isTrue trivial

def sameAs (cmp : ε → ε → Int) (elm linked : ε) : Bool := cmp linked elm = 0

/-- Every linked element is linked once, in the bucket its hash selects for the current size,
and is counted; equal links stand oldest first. -/
structure Represents (hash : Nat → ε → Nat) (cmp : ε → ε → Int) (table : Dhash ε)
    (all : List ε) : Prop where
  positive : 0 < table.dhBkSize
  chained : Chained table.dhBucket (hash table.dhBkSize) all
  ordered : Ordered table.dhBucket (hash table.dhBkSize) (sameAs cmp) all
  count : table.dhElmCnt = all.length

/-- The probed bucket holds `32` links or more and none of the first `31` is the one. -/
def LongProbe (hash : Nat → ε → Nat) (cmp : ε → ε → Int) (table : Dhash ε) (elm : ε) : Prop :=
  LongWalk (sameAs cmp elm) (table.dhBucket (hash table.dhBkSize elm))

/-- A long probe is made only while the size of the next bucket array is an `int`, and a link
is inserted only while the count of the links is one. -/
def IntsFit (hash : Nat → ε → Nat) (cmp : ε → ε → Int) (table : Dhash ε) :
    DhashOp ε → Prop
  | .rm elm | .find elm => LongProbe hash cmp table elm → table.dhBkSize < 2 ^ 30
  | .insert _ => table.dhElmCnt + 1 < 2 ^ 31
  | .takeout _ => True

variable {hash : Nat → ε → Nat} {cmp : ε → ε → Int} {table : Dhash ε} {all : List ε}

omit [DecidableEq ε] in
theorem represents_init {size : Nat} (positive : 0 < size) :
    Represents hash cmp (dhashInit size) [] where
  positive := positive
  chained := chained_empty _
  ordered := ordered_empty _ _
  count := rfl

omit [DecidableEq ε] in
theorem Represents.insert (holds : Represents hash cmp table all)
    (respects : HashRespects hash cmp) {elm : ε} (fresh : elm ∉ all)
    (fits : table.dhElmCnt + 1 < 2 ^ 31) :
    ∃ next, dhashInsert (totalFn hash cmp) table elm = some (hash table.dhBkSize elm, next) ∧
      Represents hash cmp next (all ++ [elm]) := by
  refine ⟨_, dhashInsertElm_eq rfl (respects.inside _ _ holds.positive) fits, ?_⟩
  constructor
  · exact holds.positive
  · exact holds.chained.append fresh
  · apply holds.ordered.append
    intro probe matched
    exact respects.agrees _ _ _ (of_decide_eq_true matched)
  · change table.dhElmCnt + 1 = ((all ++ [elm]).length : Int)
    rw [holds.count, List.length_append]
    rfl

theorem Represents.takeout (holds : Represents hash cmp table all) {elm : ε}
    (member : elm ∈ all) : Represents hash cmp (dhashTakeoutElm table elm) (all.erase elm) where
  positive := holds.positive
  chained := holds.chained.erase elm
  ordered := holds.ordered.erase holds.chained elm
  count := by
    change table.dhElmCnt - 1 = _
    have some := List.length_pos_of_mem member
    rw [holds.count, List.length_erase_of_mem member]
    omega

/-- Growing after a probe keeps every link and the order of equal links. -/
theorem Represents.grow (holds : Represents hash cmp table all) (respects : HashRespects hash cmp)
    (cnt : Nat) (fits : 32 ≤ cnt → 0 < table.dhElmCnt → table.dhBkSize < 2 ^ 30) :
    ∃ grown, dhashGrow (totalFn hash cmp) table cnt = some grown ∧
      Represents hash cmp grown all := by
  unfold dhashGrow
  by_cases long : 32 ≤ cnt ∧ 0 < table.dhElmCnt
  · have room := fits long.1 long.2
    have homes : ∀ elm ∈ all, hash table.dhBkSize elm < table.dhBkSize :=
      fun elm _ => respects.inside _ elm holds.positive
    have agrees : ∀ size probe linked, sameAs cmp probe linked →
        hash size linked = hash size probe :=
      fun size probe linked matched => respects.agrees _ _ _ (of_decide_eq_true matched)
    have rehashed := dhashRehash_eq (totalFn hash cmp)
      { table with dhMaxChain := max table.dhMaxChain cnt } (hash (1 + table.dhBkSize * 2))
      holds.positive
      (by change 1 + table.dhBkSize * 2 < 2 ^ 31; omega) (holds.chained.nodup_flatMap _)
      (fun elm _ => ⟨rfl, respects.inside _ elm (Nat.lt_of_lt_of_le Nat.one_pos
        (Nat.le_add_right 1 _))⟩)
    refine ⟨_, by rw [if_pos long]; exact rehashed, ?_⟩
    constructor
    · change 0 < 1 + table.dhBkSize * 2
      omega
    · exact holds.chained.rechain homes _
    · exact holds.ordered.rechain holds.chained
        (fun probe => respects.inside _ probe holds.positive) (agrees _) (agrees _)
    · exact congrArg Nat.cast (holds.chained.length_flatMap homes)
  · refine ⟨_, if_neg long, ?_⟩
    exact ⟨holds.positive, holds.chained, holds.ordered, holds.count⟩

theorem dhashGrow_overflow (fn : DhashFn ε) (table : Dhash ε) {cnt : Nat} (long : 32 ≤ cnt)
    (counted : 0 < table.dhElmCnt) (wide : 2 ^ 30 ≤ table.dhBkSize) :
    dhashGrow fn table cnt = none := by
  unfold dhashGrow
  rw [if_pos ⟨long, counted⟩]
  apply dhashRehash_overflow
  change 2 ^ 31 ≤ 1 + table.dhBkSize * 2
  omega

/-- What a removal leaves linked. -/
def unlinkFound (table : Dhash ε) (found : Option ε) : Dhash ε :=
  match found with
  | some linked => dhashTakeoutElm table linked
  | none => table

/-- The links a probe visits before it answers. -/
abbrev visits (hash : Nat → ε → Nat) (cmp : ε → ε → Int) (table : Dhash ε) (elm : ε) : Nat :=
  probeVisits (sameAs cmp elm) (table.dhBucket (hash table.dhBkSize elm))

theorem dhashFind_eq {elm : ε} (inside : hash table.dhBkSize elm < table.dhBkSize) :
    dhashFind (totalFn hash cmp) table elm =
      (dhashGrow (totalFn hash cmp) table (visits hash cmp table elm)).map fun grown =>
        ((table.dhBucket (hash table.dhBkSize elm)).find? (sameAs cmp elm), grown) := by
  have compares : ∀ linked ∈ table.dhBucket (hash table.dhBkSize elm),
      ∃ order, (totalFn hash cmp).dhCmpFn linked elm = some order ∧
        (order = 0 ↔ sameAs cmp elm linked = true) :=
    fun linked _ => ⟨cmp linked elm, rfl, decide_eq_true_iff.symm⟩
  exact dhashFindElm_eq (totalFn hash cmp) rfl inside compares

theorem dhashRm_eq {elm : ε} (inside : hash table.dhBkSize elm < table.dhBkSize) :
    dhashRm (totalFn hash cmp) table elm =
      (dhashGrow (totalFn hash cmp) (unlinkFound table
          ((table.dhBucket (hash table.dhBkSize elm)).find? (sameAs cmp elm)))
        (visits hash cmp table elm)).map fun grown =>
          ((table.dhBucket (hash table.dhBkSize elm)).find? (sameAs cmp elm), grown) := by
  have index : dhashIndex table elm (totalFn hash cmp).dhHashFn =
      some (hash table.dhBkSize elm) := dhashIndex_of_some rfl inside
  have scanned := dhashScan_eq (totalFn hash cmp).dhCmpFn elm (sameAs cmp elm)
    (table.dhBucket (hash table.dhBkSize elm)) (fun linked _ => ⟨_, rfl, decide_eq_true_iff.symm⟩) 0
  rw [Nat.zero_add] at scanned
  unfold dhashRm dhashRmElm
  simp only [index, Option.bind_some, scanned]
  rfl

theorem Represents.find_eq (holds : Represents hash cmp table all)
    (respects : HashRespects hash cmp) (elm : ε) :
    dhashFind (totalFn hash cmp) table elm =
      (dhashGrow (totalFn hash cmp) table (visits hash cmp table elm)).map
        fun grown => (all.find? (sameAs cmp elm), grown) := by
  rw [← holds.ordered.find? elm]
  exact dhashFind_eq (respects.inside _ elm holds.positive)

theorem Represents.rm_eq (holds : Represents hash cmp table all)
    (respects : HashRespects hash cmp) (elm : ε) :
    dhashRm (totalFn hash cmp) table elm =
      (dhashGrow (totalFn hash cmp) (unlinkFound table (all.find? (sameAs cmp elm)))
        (visits hash cmp table elm)).map fun grown => (all.find? (sameAs cmp elm), grown) := by
  rw [← holds.ordered.find? elm]
  exact dhashRm_eq (respects.inside _ elm holds.positive)

theorem Represents.unlinkFound (holds : Represents hash cmp table all) (elm : ε) :
    Represents hash cmp (unlinkFound table (all.find? (sameAs cmp elm)))
      (all.eraseP (sameAs cmp elm)) := by
  cases found : all.find? (sameAs cmp elm) with
  | none =>
      rw [List.eraseP_of_forall_not]
      · exact holds
      · exact fun linked member => List.find?_eq_none.mp found linked member
  | some linked =>
      rw [List.eraseP_eq_erase_of_find? found]
      exact holds.takeout (List.mem_of_find?_eq_some found)

omit [DecidableEq ε] in
/-- A bucket that a long probe walks has links to spare. -/
theorem Represents.lt_count (holds : Represents hash cmp table all) {elm : ε}
    (long : LongProbe hash cmp table elm) : 31 < table.dhElmCnt := by
  have within : (table.dhBucket (hash table.dhBkSize elm)).length ≤ all.length :=
    (List.subperm_of_subset (holds.chained.nodup _) fun linked member =>
      ((holds.chained.mem _ _).mp member).1).length_le
  rw [holds.count]
  have links := long.1
  omega

private theorem Represents.count_unlinkFound (holds : Represents hash cmp table all) {elm : ε}
    (long : LongProbe hash cmp table elm) (found : Option ε) :
    0 < (Tvntd.unlinkFound table found).dhElmCnt := by
  have spare := holds.lt_count long
  cases found with
  | none => exact Int.lt_trans (by decide) spare
  | some linked =>
      change 0 < table.dhElmCnt - 1
      omega

omit [DecidableEq ε] in
theorem unlinkFound_dhBkSize [DecidableEq ε] (table : Dhash ε) (found : Option ε) :
    (Tvntd.unlinkFound table found).dhBkSize = table.dhBkSize := by
  cases found with
  | none => rfl
  | some linked => rfl

theorem Represents.find (holds : Represents hash cmp table all)
    (respects : HashRespects hash cmp) {elm : ε}
    (fits : LongProbe hash cmp table elm → table.dhBkSize < 2 ^ 30) :
    ∃ next, dhashFind (totalFn hash cmp) table elm =
        some (all.find? (sameAs cmp elm), next) ∧ Represents hash cmp next all := by
  obtain ⟨grown, grew, still⟩ := holds.grow respects (visits hash cmp table elm)
    fun long _ => fits ((longWalk_iff _ _).mpr long)
  exact ⟨grown, by rw [holds.find_eq respects, grew]; rfl, still⟩

theorem Represents.rm (holds : Represents hash cmp table all)
    (respects : HashRespects hash cmp) {elm : ε}
    (fits : LongProbe hash cmp table elm → table.dhBkSize < 2 ^ 30) :
    ∃ next, dhashRm (totalFn hash cmp) table elm =
        some (all.find? (sameAs cmp elm), next) ∧
      Represents hash cmp next (all.eraseP (sameAs cmp elm)) := by
  obtain ⟨grown, grew, still⟩ := (holds.unlinkFound elm).grow respects
    (visits hash cmp table elm) (by
      intro long _
      rw [unlinkFound_dhBkSize]
      exact fits ((longWalk_iff _ _).mpr long))
  exact ⟨grown, by rw [holds.rm_eq respects, grew]; rfl, still⟩

/-- One operation without an overflow is the operation of the multimap. -/
theorem dhash_simulates (respects : HashRespects hash cmp) :
    (dhashMachine (totalFn hash cmp)).Simulates (fifoNext (sameAs cmp)) (IntsFit hash cmp)
      fifoLegal (Represents hash cmp) := by
  intro table all op holds legal fits
  cases op with
  | insert elm =>
      obtain ⟨next, inserted, still⟩ := holds.insert respects legal fits
      exact ⟨next, by simp only [dhashMachine, dhashStep, inserted]; rfl, still⟩
  | rm elm =>
      obtain ⟨next, removed, still⟩ := holds.rm respects fits
      exact ⟨next, by simp only [dhashMachine, dhashStep, removed]; rfl, still⟩
  | find elm =>
      obtain ⟨next, found, still⟩ := holds.find respects fits
      exact ⟨next, by simp only [dhashMachine, dhashStep, found]; rfl, still⟩
  | takeout elm => exact ⟨_, rfl, holds.takeout legal⟩

/-- No `int` overflowed in an operation that returns. -/
theorem intsFit_of_step (respects : HashRespects hash cmp) {op : DhashOp ε}
    {after : Dhash ε × Option ε} (holds : Represents hash cmp table all)
    (stepped : (dhashMachine (totalFn hash cmp)).step table op = some after) :
    IntsFit hash cmp table op := by
  cases op with
  | insert elm =>
      by_contra wide
      have refused := intValue_of_le (Int.not_lt.mp wide)
      simp [dhashMachine, dhashStep, dhashInsert, dhashInsertElm, refused] at stepped
  | takeout elm => trivial
  | rm elm =>
      intro long
      by_contra wide
      have refused := dhashGrow_overflow (totalFn hash cmp)
        (unlinkFound table (all.find? (sameAs cmp elm)))
        ((longWalk_iff _ _).mp long) (holds.count_unlinkFound long _)
        (by rw [unlinkFound_dhBkSize]; exact Nat.le_of_not_lt wide)
      simp [dhashMachine, dhashStep, holds.rm_eq respects, refused] at stepped
  | find elm =>
      intro long
      by_contra wide
      have refused := dhashGrow_overflow (totalFn hash cmp) table
        ((longWalk_iff _ _).mp long) (Int.lt_trans (by decide) (holds.lt_count long))
        (Nat.le_of_not_lt wide)
      simp [dhashMachine, dhashStep, holds.find_eq respects, refused] at stepped

/-- The run of the operations on a new table returns the answers of the multimap and ends in
a table that holds exactly the elements of the multimap. -/
def BehavesAsFifo (hash : Nat → ε → Nat) (cmp : ε → ε → Int) (size : Nat)
    (ops : List (DhashOp ε)) : Prop :=
  ∃ final, (dhashMachine (totalFn hash cmp)).run (dhashInit size) ops =
      some (final, (Machine.specRun (fifoNext (sameAs cmp)) [] ops).2) ∧
    Represents hash cmp final (Machine.specRun (fifoNext (sameAs cmp)) [] ops).1

/-- A run of a table is a run of the multimap exactly if no `int` of the table overflows. -/
theorem dhash_behavesAsFifo_iff (respects : HashRespects hash cmp) {size : Nat}
    (positive : 0 < size) {ops : List (DhashOp ε)}
    (legal : Machine.SpecMeets (fifoNext (sameAs cmp)) fifoLegal [] ops) :
    BehavesAsFifo hash cmp size ops ↔
      (dhashMachine (totalFn hash cmp)).Meets (IntsFit hash cmp) (dhashInit size) ops := by
  constructor
  · rintro ⟨final, ran, -⟩
    exact (dhash_simulates respects).meets_of_run
      (fun _ _ _ _ holds _ stepped => intsFit_of_step respects holds stepped)
      (represents_init positive) legal ran
  · intro fits
    exact (dhash_simulates respects).run (represents_init positive) legal fits

/-- Numbers that stand for themselves, compared by their difference. -/
def numberCmp (linked elm : Nat) : Int := linked - elm

private theorem numberCmp_respects : HashRespects (fun size elm => elm % size) numberCmp where
  inside := fun _ elm positive => Nat.mod_lt elm positive
  agrees := by
    intro size linked elm same
    have equal : linked = elm := by
      unfold numberCmp at same
      omega
    rw [equal]

/-- Two links in one bucket, one found, the other removed, and the first taken out. -/
theorem dhash_behavesAsFifo_iff_small :
    BehavesAsFifo (fun size elm => elm % size) numberCmp 4
        [.insert 1, .insert 5, .find 5, .rm 1, .takeout 5] ↔
      (dhashMachine (totalFn (fun size elm => elm % size) numberCmp)).Meets
        (IntsFit (fun size elm => elm % size) numberCmp) (dhashInit 4)
        [.insert 1, .insert 5, .find 5, .rm 1, .takeout 5] :=
  dhash_behavesAsFifo_iff numberCmp_respects (by decide) (by decide)

/-- `32` links in the first bucket of a table of `2 ^ 30` buckets, and a probe for the last. -/
def wideProbe : List (DhashOp Nat) := (List.range 32).map .insert ++ [.find 31]

/-- Finding a linked element of the wide table does not return. -/
theorem dhash_wideProbe_not_fifo :
    HashRespects (fun _ _ => 0) numberCmp ∧
      Machine.SpecMeets (fifoNext (sameAs numberCmp)) fifoLegal [] wideProbe ∧
      ¬ BehavesAsFifo (fun _ _ => 0) numberCmp (2 ^ 30) wideProbe := by
  refine ⟨⟨fun _ _ positive => positive, fun _ _ _ _ => rfl⟩, by decide, ?_⟩
  rintro ⟨final, ran, -⟩
  have refused : ((dhashMachine (totalFn (fun _ _ => 0) numberCmp)).run (dhashInit (2 ^ 30))
      wideProbe).isNone := by
    decide
  rw [ran] at refused
  cases refused

end Tvntd
