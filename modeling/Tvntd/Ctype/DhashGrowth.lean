import Tvntd.Ctype.DhashFifo
import Tvntd.Ctype.DhashIter

/-! # How far a table grows

A lookup or a removal that visits `32` links moves the table to a bucket array of
`1 + dh_bk_size * 2` entries, whether or not the larger array spreads those links.
Links that share a bucket at every size make every such walk long again, so
lookups alone grow the array until its size is no `int` any more: after `n` long
walks it has `2 ^ n * (size + 1) - 1` entries, if these are fewer than `2 ^ 31`.
-/

namespace Tvntd

open Buckets Chaining

variable {ε : Type*} [DecidableEq ε]

/-- The calls that walk through a bucket: `dhash_find` and `dhash_rm`. -/
def DhashOp.Walks : DhashOp ε → Prop
  | .find _ | .rm _ => True
  | .insert _ | .takeout _ => False

/-- The call visits `32` links or more. -/
def LongCall (hash : Nat → ε → Nat) (cmp : ε → ε → Int) (table : Dhash ε) : DhashOp ε → Prop
  | .find elm | .rm elm => LongProbe hash cmp table elm
  | .insert _ | .takeout _ => False

/-- Every link of a table is linked once and counted. -/
def DhashLinked (table : Dhash ε) : Prop := DhashHolds table table.dhBkSize table.dhBucket

variable {hash : Nat → ε → Nat} {cmp : ε → ε → Int} {table : Dhash ε} {elm : ε}

omit [DecidableEq ε] in
theorem DhashHolds.linked {size : Nat} {lists : Nat → List ε}
    (holds : DhashHolds table size lists) : DhashLinked table := by
  unfold DhashLinked
  rw [holds.sized]
  exact holds.congr holds.bucket

theorem DhashLinked.unlinkFound (linked : DhashLinked table) (same : ε → Bool) {index : Nat}
    (inside : index < table.dhBkSize) :
    DhashLinked (unlinkFound table ((table.dhBucket index).find? same)) := by
  cases found : (table.dhBucket index).find? same with
  | none => exact linked
  | some link =>
      obtain ⟨done, rest, list⟩ := List.append_of_mem (List.mem_of_find?_eq_some found)
      exact (DhashHolds.takeout linked inside list).linked

omit [DecidableEq ε] in
/-- A bucket that a long walk visits has links to spare. -/
theorem DhashLinked.lt_count (linked : DhashLinked table)
    (inside : hash table.dhBkSize elm < table.dhBkSize) (long : LongProbe hash cmp table elm) :
    31 < table.dhElmCnt := by
  have within : (table.dhBucket (hash table.dhBkSize elm)).length ≤
      (elements table.dhBkSize table.dhBucket).length := by
    apply List.Subperm.length_le
    apply List.subperm_of_subset (nodup_of_elements linked.nodup inside)
    exact fun link member => mem_elements.mpr ⟨_, inside, member⟩
  have links := long.1
  rw [linked.count]
  omega

/-! ## One call -/

/-- The table after a walk over `cnt` links. -/
theorem dhashGrow_linked (cmp : ε → ε → Int) (linked : DhashLinked table)
    (inside : ∀ size elm, 0 < size → hash size elm < size) (cnt : Nat)
    (fits : 32 ≤ cnt → 0 < table.dhElmCnt → 1 + table.dhBkSize * 2 < 2 ^ 31) :
    ∃ grown, dhashGrow (totalFn hash cmp) table cnt = some grown ∧ DhashLinked grown ∧
      grown.dhBkSize =
        if 32 ≤ cnt ∧ 0 < table.dhElmCnt then 1 + table.dhBkSize * 2 else table.dhBkSize := by
  unfold dhashGrow
  by_cases long : 32 ≤ cnt ∧ 0 < table.dhElmCnt
  · have larger : 0 < 1 + table.dhBkSize * 2 := by omega
    have rehashed := dhashRehash_eq (totalFn hash cmp)
      { table with dhMaxChain := max table.dhMaxChain cnt } (hash (1 + table.dhBkSize * 2))
      linked.positive (fits long.1 long.2) linked.nodup
      (fun elm _ => ⟨rfl, inside _ elm larger⟩)
    have chained := chained_bucketOf (hash (1 + table.dhBkSize * 2)) linked.nodup
    refine ⟨_, by rw [if_pos long]; exact rehashed, ⟨larger, rfl, fun _ _ => rfl, ?_, ?_⟩, ?_⟩
    · exact chained.nodup_flatMap _
    · exact congrArg Nat.cast (chained.length_flatMap fun elm _ => inside _ elm larger).symm
    · rw [if_pos long]
  · refine ⟨_, if_neg long, ⟨linked.positive, rfl, fun _ _ => rfl, linked.nodup, linked.count⟩, ?_⟩
    rw [if_neg long]

/-- Every call grows a table that links the same number of links or one less, of the same size. -/
theorem dhashStep_walks (cmp : ε → ε → Int) (linked : DhashLinked table)
    (inside : ∀ size elm, 0 < size → hash size elm < size) {op : DhashOp ε} (walks : op.Walks) :
    ∃ probed cnt answer, dhashStep (totalFn hash cmp) table op =
        (dhashGrow (totalFn hash cmp) probed cnt).map (fun grown => (grown, answer)) ∧
      DhashLinked probed ∧ probed.dhBkSize = table.dhBkSize ∧
      (LongCall hash cmp table op ↔ 32 ≤ cnt ∧ 0 < probed.dhElmCnt) := by
  have bounded := fun elm => inside table.dhBkSize elm linked.positive
  cases op with
  | insert elm => exact walks.elim
  | takeout elm => exact walks.elim
  | find elm =>
      refine ⟨table, visits hash cmp table elm,
        (table.dhBucket (hash table.dhBkSize elm)).find? (sameAs cmp elm), ?_, linked, rfl, ?_⟩
      · rw [dhashStep, dhashFind_eq (bounded elm), Option.map_map]
        rfl
      · refine (longWalk_iff _ _).trans (iff_self_and.mpr fun long => ?_)
        have counted := linked.lt_count (bounded elm) ((longWalk_iff _ _).mpr long)
        omega
  | rm elm =>
      refine ⟨unlinkFound table ((table.dhBucket (hash table.dhBkSize elm)).find? (sameAs cmp elm)),
        visits hash cmp table elm,
        (table.dhBucket (hash table.dhBkSize elm)).find? (sameAs cmp elm), ?_,
        linked.unlinkFound _ (bounded elm), unlinkFound_dhBkSize .., ?_⟩
      · rw [dhashStep, dhashRm_eq (bounded elm), Option.map_map]
        rfl
      · refine (longWalk_iff _ _).trans (iff_self_and.mpr fun long => ?_)
        have counted := linked.lt_count (bounded elm) ((longWalk_iff _ _).mpr long)
        cases (table.dhBucket (hash table.dhBkSize elm)).find? (sameAs cmp elm) with
        | none => exact Int.lt_trans (by decide) counted
        | some link =>
            change 0 < table.dhElmCnt - 1
            omega

/-- A call that is not long leaves the size. -/
theorem dhashStep_short (linked : DhashLinked table)
    (inside : ∀ size elm, 0 < size → hash size elm < size) {op : DhashOp ε} (walks : op.Walks)
    (short : ¬ LongCall hash cmp table op) :
    ∃ next answer, dhashStep (totalFn hash cmp) table op = some (next, answer) ∧
      DhashLinked next ∧ next.dhBkSize = table.dhBkSize := by
  obtain ⟨probed, cnt, answer, stepped, still, sized, long⟩ :=
    dhashStep_walks cmp linked inside walks
  have few := fun many => short (long.mpr many)
  obtain ⟨grown, grew, held, size⟩ := dhashGrow_linked cmp still inside cnt
    fun many counted => absurd ⟨many, counted⟩ few
  rw [if_neg few, sized] at size
  exact ⟨grown, answer, by rw [stepped, grew]; rfl, held, size⟩

/-- A long call makes the array larger, if its size is an `int`. -/
theorem dhashStep_long (linked : DhashLinked table)
    (inside : ∀ size elm, 0 < size → hash size elm < size) {op : DhashOp ε} (walks : op.Walks)
    (long : LongCall hash cmp table op) (fits : 1 + table.dhBkSize * 2 < 2 ^ 31) :
    ∃ next answer, dhashStep (totalFn hash cmp) table op = some (next, answer) ∧
      DhashLinked next ∧ next.dhBkSize = 1 + table.dhBkSize * 2 := by
  obtain ⟨probed, cnt, answer, stepped, still, sized, many⟩ :=
    dhashStep_walks cmp linked inside walks
  obtain ⟨grown, grew, held, size⟩ := dhashGrow_linked cmp still inside cnt
    fun _ _ => by rw [sized]; exact fits
  rw [if_pos (many.mp long), sized] at size
  exact ⟨grown, answer, by rw [stepped, grew]; rfl, held, size⟩

/-- A long call that returned had room for the larger array. -/
theorem fits_of_dhashStep (linked : DhashLinked table)
    (inside : ∀ size elm, 0 < size → hash size elm < size) {op : DhashOp ε} (walks : op.Walks)
    (long : LongCall hash cmp table op) {after : Dhash ε × Option ε}
    (returned : dhashStep (totalFn hash cmp) table op = some after) :
    1 + table.dhBkSize * 2 < 2 ^ 31 := by
  obtain ⟨probed, cnt, answer, stepped, -, sized, many⟩ :=
    dhashStep_walks cmp linked inside walks
  by_contra wide
  have refused := dhashGrow_overflow (totalFn hash cmp) probed (many.mp long).1 (many.mp long).2
    (by omega)
  rw [stepped, refused] at returned
  cases returned

/-! ## Sequences of calls -/

/-- No call of the sequence is refused, so no size overflowed, and no array along it is larger than
the limit. -/
def SizeBounded (hash : Nat → ε → Nat) (cmp : ε → ε → Int) (limit : Nat) (table : Dhash ε)
    (calls : List (DhashOp ε)) : Prop :=
  (dhashMachine (totalFn hash cmp)).Always (fun table => table.dhBkSize ≤ limit) table calls

/-- A long call is made only while the size of the larger array is an `int` within the limit. -/
def GrowthFits (hash : Nat → ε → Nat) (cmp : ε → ε → Int) (limit : Nat) (table : Dhash ε)
    (op : DhashOp ε) : Prop :=
  LongCall hash cmp table op → 1 + table.dhBkSize * 2 < 2 ^ 31 ∧ 1 + table.dhBkSize * 2 ≤ limit

omit [DecidableEq ε] in
theorem meets_walks {m : Machine (Dhash ε) (DhashOp ε) (Option ε)} {calls : List (DhashOp ε)}
    (walks : ∀ op ∈ calls, op.Walks) : ∀ {table : Dhash ε},
      m.Meets (fun _ op => op.Walks) table calls := by
  induction calls with
  | nil => exact trivial
  | cons op rest ih =>
      intro table
      exact ⟨walks op List.mem_cons_self, fun _ _ _ =>
        ih fun later member => walks later (List.mem_cons_of_mem _ member)⟩

private theorem sizeBounded_iff (linked : DhashLinked table)
    (inside : ∀ size elm, 0 < size → hash size elm < size) {limit : Nat}
    (starts : table.dhBkSize ≤ limit) {calls : List (DhashOp ε)} (walks : ∀ op ∈ calls, op.Walks) :
    SizeBounded hash cmp limit table calls ↔
      (dhashMachine (totalFn hash cmp)).Meets (GrowthFits hash cmp limit) table calls := by
  refine Machine.always_iff_meets
    (fun table (held : DhashLinked table ∧ table.dhBkSize ≤ limit) => held.2) ?_ ?_
    ⟨linked, starts⟩ (meets_walks walks)
  · intro table op held walks fits
    by_cases long : LongCall hash cmp table op
    · obtain ⟨next, answer, stepped, still, size⟩ :=
        dhashStep_long held.1 inside walks long (fits long).1
      exact ⟨next, answer, stepped, still, size ▸ (fits long).2⟩
    · obtain ⟨next, answer, stepped, still, size⟩ := dhashStep_short held.1 inside walks long
      exact ⟨next, answer, stepped, still, size ▸ held.2⟩
  · intro table op next answer held walks unmet stepped small
    apply unmet
    intro long
    have fits := fits_of_dhashStep held.1 inside walks long stepped
    obtain ⟨other, result, again, -, size⟩ := dhashStep_long held.1 inside walks long fits
    cases stepped.symm.trans again
    exact ⟨fits, size ▸ small⟩

/-- **Growth, exactly.** Along a sequence of lookups and removals the bucket array stays within a
bound in the size and the number of elements at the start, and no size overflows, exactly if it
does at the start and every long call is made while the larger array fits. -/
theorem dhash_growth_iff (linked : DhashLinked table)
    (inside : ∀ size elm, 0 < size → hash size elm < size) {calls : List (DhashOp ε)}
    (walks : ∀ op ∈ calls, op.Walks) (bound : Nat → Nat → Nat) :
    SizeBounded hash cmp (bound table.dhBkSize table.links.length) table calls ↔
      table.dhBkSize ≤ bound table.dhBkSize table.links.length ∧
        (dhashMachine (totalFn hash cmp)).Meets
          (GrowthFits hash cmp (bound table.dhBkSize table.links.length)) table calls := by
  constructor
  · intro bounded
    exact ⟨bounded.here, (sizeBounded_iff linked inside bounded.here walks).mp bounded⟩
  · rintro ⟨starts, fits⟩
    exact (sizeBounded_iff linked inside starts walks).mpr fits

/-! ## Links that share a bucket at every size -/

/-- `32` links in the one bucket of a table. -/
private def crowded : Dhash Nat := ⟨bucketOf (fun _ => 0) (List.range 32), 1, 32, 0⟩

private theorem crowded_represents :
    Represents (fun _ _ => 0) numberCmp crowded (List.range 32) where
  positive := by decide
  chained := chained_bucketOf _ List.nodup_range
  ordered := fun _ => by
    change (bucketOf (fun _ => 0) (List.range 32) 0).filter _ = _
    simp [bucketOf]
  count := by decide

private theorem zeroHash_respects : HashRespects (fun _ _ : Nat => 0) numberCmp :=
  ⟨fun _ _ positive => positive, fun _ _ _ _ => rfl⟩

omit [DecidableEq ε] in
theorem Represents.linked {all : List ε} (holds : Represents hash cmp table all)
    (respects : HashRespects hash cmp) : DhashLinked table where
  positive := holds.positive
  sized := rfl
  bucket := fun _ _ => rfl
  nodup := holds.chained.nodup_flatMap _
  count := holds.count.trans (congrArg Nat.cast
    (holds.chained.length_flatMap fun elm _ => respects.inside _ elm holds.positive).symm)

/-- With all links in one bucket, a lookup of an element that is not linked walks over all. -/
private theorem crowded_long {table : Dhash Nat}
    (holds : Represents (fun _ _ => 0) numberCmp table (List.range 32)) :
    LongCall (fun _ _ => 0) numberCmp table (.find 32) := by
  have all : (table.dhBucket 0).Perm (List.range 32) := by
    apply (List.perm_ext_iff_of_nodup (holds.chained.nodup 0) List.nodup_range).mpr
    intro link
    rw [holds.chained.mem]
    exact and_iff_left rfl
  refine ⟨?_, ?_⟩
  · rw [all.length_eq]
    decide
  · intro link member
    have small := List.mem_range.mp (all.mem_iff.mp (List.mem_of_mem_take member))
    exact decide_eq_false (by unfold numberCmp; omega)

/-- So each lookup doubles the array. -/
private theorem crowded_grows (limit : Nat) (lookups : Nat) : ∀ {table : Dhash Nat},
    Represents (fun _ _ => 0) numberCmp table (List.range 32) → table.dhBkSize < 2 ^ 31 →
      SizeBounded (fun _ _ => 0) numberCmp limit table (List.replicate lookups (.find 32)) →
        2 ^ lookups * (table.dhBkSize + 1) ≤ 2 ^ 31 := by
  induction lookups with
  | zero =>
      intro table holds fits _
      omega
  | succ lookups ih =>
      rintro table holds - ⟨-, next, answer, stepped, later⟩
      have linked := holds.linked zeroHash_respects
      have long := crowded_long holds
      have walks : (DhashOp.find 32).Walks := trivial
      have fits := fits_of_dhashStep linked zeroHash_respects.inside walks long stepped
      obtain ⟨grown, result, again, -, size⟩ :=
        dhashStep_long linked zeroHash_respects.inside walks long fits
      cases stepped.symm.trans again
      obtain ⟨other, found, held⟩ :=
        @Represents.find _ _ _ _ _ _ holds zeroHash_respects 32 fun _ => by omega
      have same : dhashStep (totalFn (fun _ _ => 0) numberCmp) table (.find 32) =
          some (other, (List.range 32).find? (sameAs numberCmp 32)) := by
        rw [dhashStep, found]
        rfl
      cases stepped.symm.trans same
      have bounded := ih held (by omega) later
      rw [size] at bounded
      calc 2 ^ (lookups + 1) * (table.dhBkSize + 1)
          = 2 ^ lookups * (1 + table.dhBkSize * 2 + 1) := by
            rw [Nat.pow_succ, Nat.mul_assoc]
            congr 1
            omega
        _ ≤ 2 ^ 31 := bounded

/-- A lookup and a removal in the crowded table make it seven buckets wide. -/
theorem dhash_growth_iff_crowded :
    SizeBounded (fun _ _ => 0) numberCmp 7 crowded [.find 32, .rm 31] := by
  have linked := crowded_represents.linked zeroHash_respects
  have walks : ∀ op ∈ [DhashOp.find 32, .rm 31], op.Walks := by simp [DhashOp.Walks]
  have fits : (dhashMachine (totalFn (fun _ _ => 0) numberCmp)).Meets
      (GrowthFits (fun _ _ => 0) numberCmp 7) crowded [.find 32, .rm 31] := by
    refine ⟨fun _ => ⟨by decide, by decide⟩, ?_⟩
    intro next answer stepped
    obtain ⟨grown, result, again, -, size⟩ := dhashStep_long linked zeroHash_respects.inside
      (walks _ List.mem_cons_self) (crowded_long crowded_represents) (by decide)
    rw [dhashMachine_step] at stepped
    have same : next = grown := congrArg Prod.fst (Option.some.inj (stepped.symm.trans again))
    have wide : next.dhBkSize = 3 := same ▸ size
    refine ⟨fun _ => ?_, fun _ _ _ => trivial⟩
    rw [wide]
    decide
  have starts : crowded.dhBkSize ≤ 7 := by decide
  exact (dhash_growth_iff linked zeroHash_respects.inside walks fun _ _ => 7).mpr ⟨starts, fits⟩

/-- Thirty-one lookups of an element that is not linked overflow the size of the crowded table. -/
theorem dhash_growth_wrong : ¬ ∃ bound : Nat → Nat → Nat, ∀ calls : List (DhashOp Nat),
    (∀ op ∈ calls, op.Walks) → SizeBounded (fun _ _ => 0) numberCmp
      (bound crowded.dhBkSize crowded.links.length) crowded calls := by
  rintro ⟨bound, bounded⟩
  have grows := crowded_grows _ 31 crowded_represents (by decide)
    (bounded (List.replicate 31 (.find 32)) fun op member => by
      rw [List.eq_of_mem_replicate member]
      trivial)
  exact absurd grows (by decide)

end Tvntd
