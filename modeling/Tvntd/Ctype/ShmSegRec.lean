import Mathlib.Data.List.Perm.Basic
import Tvntd.Lib.Machine
import Mathlib.Algebra.Group.Nat.Defs
import Mathlib.Algebra.Group.Int.Defs

/-! # Records of a shared memory segment

`shm_seg_alloc_rec` and `shm_seg_free_rec` of `common/ctype/shm-seg.c`. The free
list is the sequence of its offsets: `isl_add_front` pushes and `isl_rm_front`
pops. `none` is a failed `verify` or `assert`.
-/

namespace Tvntd

def shmSegEmpty : BitVec 32 := 0x00000001

def shmSegPartial : BitVec 32 := 0x00000002

def shmSegFull : BitVec 32 := 0x00000004

def shmSegExclMask : BitVec 32 := 0x0000ffff

def shmSegInternRec : BitVec 32 := 0x10000000

def shmSegExternRec : BitVec 32 := 0x20000000

/-- The fields of `shm_seg_hdr_t` that the two functions use. -/
structure ShmSegHdr where
  segUuid : BitVec 64
  segPa : BitVec 64
  segState : BitVec 32
  segSize : BitVec 32
  segNtotal : BitVec 32
  segNfree : BitVec 32
  segFreeRec : List (BitVec 32)
  segUuidDup : BitVec 64

namespace ShmSegHdr

/-- One of the exclusive states takes the place of the others. -/
def setExcl (state excl : BitVec 32) : BitVec 32 := (state &&& ~~~shmSegExclMask) ||| excl

/-- The record that is popped, the header after it and the physical address that is set. -/
def shmSegAllocRec (hdr : ShmSegHdr) : Option (Option (BitVec 32) × BitVec 64 × ShmSegHdr) :=
  if hdr.segUuid = hdr.segUuidDup then
    let taken : Option (BitVec 32) × ShmSegHdr :=
      if hdr.segState &&& shmSegFull = 0 then
        match hdr.segFreeRec with
        | [] => (none, hdr)
        | ptr :: rest =>
            let nfree := hdr.segNfree - 1
            (some ptr, { hdr with
              segFreeRec := rest
              segNfree := nfree
              segState := setExcl hdr.segState (if nfree = 0 then shmSegFull else shmSegPartial) })
      else (none, hdr)
    let pa := match taken.1 with
      | some ptr => taken.2.segPa + ptr.setWidth 64
      | none => 0
    if taken.2.segState &&& shmSegInternRec ≠ 0 then
      -- `shm_verify_pa_range`
      if pa ≤ taken.2.segPa + taken.2.segSize.setWidth 64 then some (taken.1, pa, taken.2) else none
    else some (none, pa, taken.2)
  else none

def shmSegFreeRec (hdr : ShmSegHdr) (pa : BitVec 64) : Option ShmSegHdr :=
  if hdr.segUuid = hdr.segUuidDup then
    if hdr.segState &&& shmSegInternRec ≠ 0 then
      if hdr.segPa ≤ pa then
        let nfree := hdr.segNfree + 1
        some { hdr with
          segFreeRec := (pa - hdr.segPa).setWidth 32 :: hdr.segFreeRec
          segNfree := nfree
          segState := if nfree = hdr.segNtotal then setExcl hdr.segState shmSegEmpty
            else hdr.segState }
      else none
    else some hdr
  else none

end ShmSegHdr

/-- Allocations and releases of records. -/
inductive SegCall where
  | alloc
  | free (pa : BitVec 64)

/-- A segment, and the addresses that were allocated and not freed since. -/
structure SegUse where
  hdr : ShmSegHdr
  outstanding : List (BitVec 64)

namespace SegUse

/-- One call, and the address of the record that it returns. -/
def step (use : SegUse) : SegCall → Option (SegUse × Option (BitVec 64))
  | .alloc => use.hdr.shmSegAllocRec.map fun (ptr, pa, hdr) =>
      match ptr with
      | some _ => (⟨hdr, pa :: use.outstanding⟩, some pa)
      | none => (⟨hdr, use.outstanding⟩, none)
  | .free pa => (use.hdr.shmSegFreeRec pa).map fun hdr => (⟨hdr, use.outstanding.erase pa⟩, none)

def machine : Machine SegUse SegCall (Option (BitVec 64)) := ⟨step⟩

/-- A freed address is one that was allocated and not freed since. -/
def Legal (use : SegUse) : SegCall → Prop
  | .alloc => True
  | .free pa => pa ∈ use.outstanding

instance instDecidableLegal (use : SegUse) : ∀ call, Decidable (Legal use call)
  | .alloc => isTrue trivial
  | .free pa => inferInstanceAs (Decidable (pa ∈ use.outstanding))

/-- The three representations of fullness agree, and the next allocation goes by them. -/
structure Agrees (use : SegUse) : Prop where
  count : use.hdr.segNfree.toNat = use.hdr.segFreeRec.length
  empty : use.hdr.segState &&& shmSegEmpty ≠ 0 ↔ use.hdr.segNfree = use.hdr.segNtotal
  full : use.hdr.segState &&& shmSegFull ≠ 0 ↔ use.hdr.segNfree = 0
  part : use.hdr.segState &&& shmSegPartial ≠ 0 ↔
    use.hdr.segNfree ≠ use.hdr.segNtotal ∧ use.hdr.segNfree ≠ 0
  allocates : ∃ next pa, use.step .alloc = some (next, pa) ∧
    (pa.isSome ↔ 0 < use.hdr.segNfree.toNat) ∧ ∀ given, pa = some given → given ∉ use.outstanding

/-- A segment with internal records, all of them free. -/
structure Fresh (use : SegUse) : Prop where
  uuid : use.hdr.segUuid = use.hdr.segUuidDup
  intern : use.hdr.segState &&& shmSegInternRec ≠ 0
  excl : use.hdr.segState &&& shmSegExclMask = shmSegEmpty
  placed : use.hdr.segPa.toNat + use.hdr.segSize.toNat < 2 ^ 64
  records : use.hdr.segFreeRec.Nodup
  inside : ∀ ptr ∈ use.hdr.segFreeRec, ptr.toNat < use.hdr.segSize.toNat
  total : use.hdr.segNtotal.toNat = use.hdr.segFreeRec.length
  nfree : use.hdr.segNfree = use.hdr.segNtotal
  several : 2 ≤ use.hdr.segNtotal.toNat
  unused : use.outstanding = []

/-- No record is freed while all records are allocated. -/
def NeverFull (use : SegUse) : SegCall → Prop
  | .alloc => True
  | .free _ => use.hdr.segNfree ≠ 0

instance instDecidableNeverFull (use : SegUse) : ∀ call, Decidable (NeverFull use call)
  | .alloc => isTrue trivial
  | .free _ => inferInstanceAs (Decidable (use.hdr.segNfree ≠ 0))

end SegUse

/-! ## The exclusive states -/

private theorem setExcl_excl (state : BitVec 32) {excl : BitVec 32}
    (inside : excl &&& shmSegExclMask = excl) :
    ShmSegHdr.setExcl state excl &&& shmSegExclMask = excl := by
  have none : ~~~shmSegExclMask &&& shmSegExclMask = 0#32 := by decide
  rw [ShmSegHdr.setExcl, BitVec.and_or_distrib_right, BitVec.and_assoc, none, BitVec.and_zero,
    BitVec.zero_or, inside]

private theorem setExcl_intern (state : BitVec 32) {excl : BitVec 32}
    (outside : excl &&& shmSegInternRec = 0#32) :
    ShmSegHdr.setExcl state excl &&& shmSegInternRec = state &&& shmSegInternRec := by
  have kept : ~~~shmSegExclMask &&& shmSegInternRec = shmSegInternRec := by decide
  rw [ShmSegHdr.setExcl, BitVec.and_or_distrib_right, BitVec.and_assoc, kept, outside,
    BitVec.or_zero]

/-- An exclusive state is read through the mask. -/
theorem excl_bit {state excl bit : BitVec 32} (masked : state &&& shmSegExclMask = excl)
    (inside : shmSegExclMask &&& bit = bit) : state &&& bit = excl &&& bit := by
  rw [← masked, BitVec.and_assoc, inside]

namespace SegUse

/-- The exclusive state for a number of free records. -/
def exclOf (nfree ntotal : BitVec 32) : BitVec 32 :=
  if nfree = ntotal then shmSegEmpty else if nfree = 0 then shmSegFull else shmSegPartial

/-- The physical address of a record. -/
def addr (hdr : ShmSegHdr) (ptr : BitVec 32) : BitVec 64 := hdr.segPa + ptr.setWidth 64

theorem toNat_setWidth (ptr : BitVec 32) : (ptr.setWidth 64).toNat = ptr.toNat := by
  rw [BitVec.toNat_setWidth]
  have inside := ptr.isLt
  omega

private theorem addr_sub (hdr : ShmSegHdr) (ptr : BitVec 32) :
    (addr hdr ptr - hdr.segPa).setWidth 32 = ptr := by
  apply BitVec.eq_of_toNat_eq
  have inside := ptr.isLt
  have bounded := hdr.segPa.isLt
  rw [addr, BitVec.toNat_setWidth, BitVec.toNat_sub, BitVec.toNat_add, toNat_setWidth]
  omega

private theorem addr_injective (hdr : ShmSegHdr) : Function.Injective (addr hdr) :=
  Function.LeftInverse.injective (g := fun pa => (pa - hdr.segPa).setWidth 32) (addr_sub hdr)

/-- The free and the allocated records are the records of the segment, and the header counts the
free ones. -/
structure Counts (records outs : List (BitVec 32)) (use : SegUse) : Prop where
  uuid : use.hdr.segUuid = use.hdr.segUuidDup
  intern : use.hdr.segState &&& shmSegInternRec ≠ 0
  placed : use.hdr.segPa.toNat + use.hdr.segSize.toNat < 2 ^ 64
  nodup : records.Nodup
  inside : ∀ ptr ∈ records, ptr.toNat < use.hdr.segSize.toNat
  total : use.hdr.segNtotal.toNat = records.length
  several : 2 ≤ records.length
  split : (use.hdr.segFreeRec ++ outs).Perm records
  outstanding : use.outstanding = outs.map (addr use.hdr)
  nfree : use.hdr.segNfree.toNat = use.hdr.segFreeRec.length
  excl : use.hdr.segState &&& shmSegExclMask = exclOf use.hdr.segNfree use.hdr.segNtotal

variable {records outs : List (BitVec 32)} {use : SegUse}

theorem Fresh.counts (fresh : Fresh use) : Counts use.hdr.segFreeRec [] use where
  uuid := fresh.uuid
  intern := fresh.intern
  placed := fresh.placed
  nodup := fresh.records
  inside := fresh.inside
  total := fresh.total
  several := fresh.total ▸ fresh.several
  split := by rw [List.append_nil]
  outstanding := fresh.unused
  nfree := fresh.nfree ▸ fresh.total
  excl := by rw [fresh.excl, exclOf, if_pos fresh.nfree]

namespace Counts

theorem length (counts : Counts records outs use) :
    use.hdr.segFreeRec.length + outs.length = records.length := by
  rw [← List.length_append, counts.split.length_eq]

private theorem nfree_iff (counts : Counts records outs use) :
    use.hdr.segNfree = use.hdr.segNtotal ↔ outs = [] := by
  have length := counts.length
  have nfree := counts.nfree
  have total := counts.total
  rw [← BitVec.toNat_inj, ← List.length_eq_zero_iff]
  omega

private theorem zero_iff (counts : Counts records outs use) :
    use.hdr.segNfree = 0 ↔ use.hdr.segFreeRec = [] := by
  rw [← BitVec.toNat_inj, ← List.length_eq_zero_iff, counts.nfree]
  rfl

theorem full_iff (counts : Counts records outs use) :
    use.hdr.segState &&& shmSegFull = 0 ↔ use.hdr.segNfree ≠ 0 := by
  rw [excl_bit counts.excl (by decide), exclOf]
  by_cases empty : use.hdr.segNfree = use.hdr.segNtotal
  · have some_ : use.hdr.segNfree ≠ 0 := by
      intro zero
      have total := counts.total
      have several := counts.several
      rw [← empty, zero] at total
      change 0 = _ at total
      omega
    rw [if_pos empty]
    exact iff_of_true (by decide) some_
  · by_cases full : use.hdr.segNfree = 0
    · rw [if_neg empty, if_pos full]
      exact iff_of_false (by decide) (not_not.mpr full)
    · rw [if_neg empty, if_neg full]
      exact iff_of_true (by decide) full

/-- An allocation from a segment with free records takes the first one. -/
theorem alloc (counts : Counts records outs use) {ptr : BitVec 32} {rest : List (BitVec 32)}
    (free : use.hdr.segFreeRec = ptr :: rest) :
    ∃ next, use.step .alloc = some (next, some (addr use.hdr ptr)) ∧
      Counts records (ptr :: outs) next := by
  have some_ : use.hdr.segNfree ≠ 0 := by
    rw [ne_eq, counts.zero_iff, free]
    exact List.cons_ne_nil ptr rest
  have notFull := counts.full_iff.mpr some_
  have member : ptr ∈ records := by
    apply counts.split.subset
    rw [free]
    exact List.mem_cons_self
  have inside := counts.inside ptr member
  have placed := counts.placed
  have inRange : use.hdr.segPa + ptr.setWidth 64 ≤
      use.hdr.segPa + use.hdr.segSize.setWidth 64 := by
    rw [BitVec.le_def, BitVec.toNat_add, BitVec.toNat_add, toNat_setWidth, toNat_setWidth]
    omega
  have length := counts.length
  have total := counts.total
  have nfree : (use.hdr.segNfree - 1).toNat = rest.length := by
    have count := counts.nfree
    have one : (1 : BitVec 32).toNat = 1 := rfl
    have bounded := use.hdr.segNfree.isLt
    rw [free, List.length_cons] at count
    rw [BitVec.toNat_sub, one]
    omega
  have notTotal : use.hdr.segNfree - 1 ≠ use.hdr.segNtotal := by
    rw [ne_eq, ← BitVec.toNat_inj, nfree, total]
    rw [free, List.length_cons] at length
    omega
  have masked : ∀ full : Prop, ∀ [Decidable full],
      (if full then shmSegFull else shmSegPartial) &&& shmSegExclMask =
        if full then shmSegFull else shmSegPartial := by
    intro full _
    split
    · decide
    · decide
  have outside : ∀ full : Prop, ∀ [Decidable full],
      (if full then shmSegFull else shmSegPartial) &&& shmSegInternRec = 0#32 := by
    intro full _
    split
    · decide
    · decide
  have intern := counts.intern
  refine ⟨⟨{ use.hdr with
    segFreeRec := rest
    segNfree := use.hdr.segNfree - 1
    segState := ShmSegHdr.setExcl use.hdr.segState
      (if use.hdr.segNfree - 1 = 0 then shmSegFull else shmSegPartial) },
    addr use.hdr ptr :: use.outstanding⟩, ?_, ?_⟩
  · rw [step, ShmSegHdr.shmSegAllocRec, if_pos counts.uuid, if_pos notFull, free]
    dsimp only
    rw [setExcl_intern _ (outside _), if_pos intern, if_pos inRange]
    rfl
  · constructor
    · exact counts.uuid
    · dsimp only
      rw [setExcl_intern _ (outside _)]
      exact intern
    · exact counts.placed
    · exact counts.nodup
    · exact counts.inside
    · exact total
    · exact counts.several
    · refine List.Perm.trans ?_ counts.split
      rw [free]
      exact List.perm_middle
    · exact congrArg (addr use.hdr ptr :: ·) counts.outstanding
    · exact nfree
    · dsimp only
      rw [setExcl_excl _ (masked _), exclOf, if_neg notTotal]

/-- An allocation from a full segment takes nothing. -/
theorem alloc_full (counts : Counts records outs use) (free : use.hdr.segFreeRec = []) :
    use.step .alloc = some (use, none) := by
  have full : ¬ use.hdr.segState &&& shmSegFull = 0 := by
    rw [counts.full_iff, not_not, counts.zero_iff]
    exact free
  have inRange : (0 : BitVec 64) ≤ use.hdr.segPa + use.hdr.segSize.setWidth 64 := Nat.zero_le _
  rw [step, ShmSegHdr.shmSegAllocRec, if_pos counts.uuid, if_neg full]
  dsimp only
  rw [if_pos counts.intern, if_pos inRange]
  rfl

theorem agrees (counts : Counts records outs use) : Agrees use := by
  have several := counts.several
  have total := counts.total
  have nonzero : use.hdr.segNtotal ≠ 0 := by
    intro zero
    rw [zero] at total
    change 0 = _ at total
    omega
  refine ⟨counts.nfree, ?_, ?_, ?_, ?_⟩
  · rw [excl_bit counts.excl (by decide), exclOf]
    split
    · exact iff_of_true (by decide) ‹_›
    · split
      · exact iff_of_false (by decide) ‹_›
      · exact iff_of_false (by decide) ‹_›
  · rw [ne_eq, counts.full_iff, not_not]
  · rw [excl_bit counts.excl (by decide), exclOf]
    split
    · exact iff_of_false (by decide) fun both => both.1 ‹_›
    · split
      · exact iff_of_false (by decide) fun both => both.2 ‹_›
      · exact iff_of_true (by decide) ⟨‹_›, ‹_›⟩
  · cases free : use.hdr.segFreeRec with
    | nil =>
        refine ⟨use, none, counts.alloc_full free, ?_, fun _ none => nomatch none⟩
        rw [counts.nfree, free]
        exact iff_of_false (by decide) (Nat.lt_irrefl 0)
    | cons ptr rest =>
        obtain ⟨next, stepped, -⟩ := counts.alloc free
        refine ⟨next, _, stepped, ?_, ?_⟩
        · rw [counts.nfree, free]
          exact iff_of_true rfl (Nat.succ_pos _)
        · intro given same
          rw [Option.some.injEq] at same
          subst same
          rw [counts.outstanding]
          intro again
          obtain ⟨other, member, equal⟩ := List.mem_map.mp again
          have sameRecord := addr_injective use.hdr equal
          have nodup := counts.split.nodup_iff.mpr counts.nodup
          rw [free, List.nodup_append] at nodup
          exact nodup.2.2 ptr List.mem_cons_self other member sameRecord.symm

/-- What freeing an allocated record does. -/
theorem free (counts : Counts records outs use) {pa : BitVec 64}
    (allocated : pa ∈ use.outstanding) :
    ∃ ptr ∈ outs, pa = addr use.hdr ptr ∧ use.step (.free pa) =
      some (⟨{ use.hdr with
        segFreeRec := ptr :: use.hdr.segFreeRec
        segNfree := use.hdr.segNfree + 1
        segState := if use.hdr.segNfree + 1 = use.hdr.segNtotal then
          ShmSegHdr.setExcl use.hdr.segState shmSegEmpty else use.hdr.segState },
        (outs.erase ptr).map (addr use.hdr)⟩, none) := by
  rw [counts.outstanding] at allocated
  obtain ⟨ptr, member, rfl⟩ := List.mem_map.mp allocated
  refine ⟨ptr, member, rfl, ?_⟩
  have inside := counts.inside ptr (counts.split.subset (List.mem_append_right _ member))
  have placed := counts.placed
  have above : use.hdr.segPa ≤ addr use.hdr ptr := by
    rw [BitVec.le_def, addr, BitVec.toNat_add, toNat_setWidth]
    omega
  rw [step, ShmSegHdr.shmSegFreeRec, if_pos counts.uuid, if_pos counts.intern, if_pos above,
    addr_sub, counts.outstanding, List.map_erase (addr_injective use.hdr)]
  rfl

/-- Freeing a record of a segment that is not full keeps the counts. -/
theorem free_counts (counts : Counts records outs use) {pa : BitVec 64}
    (allocated : pa ∈ use.outstanding) (notFull : use.hdr.segNfree ≠ 0) :
    ∃ next outs, use.step (.free pa) = some (next, none) ∧ Counts records outs next := by
  obtain ⟨ptr, member, -, stepped⟩ := counts.free allocated
  refine ⟨_, outs.erase ptr, stepped, ?_⟩
  have length := counts.length
  have total := counts.total
  have some_ := List.length_pos_of_mem member
  have nfree : (use.hdr.segNfree + 1).toNat = use.hdr.segFreeRec.length + 1 := by
    have one : (1 : BitVec 32).toNat = 1 := rfl
    have bounded := use.hdr.segNtotal.isLt
    rw [BitVec.toNat_add, one, counts.nfree]
    omega
  have notEmpty : use.hdr.segNfree ≠ use.hdr.segNtotal := by
    rw [ne_eq, counts.nfree_iff]
    exact List.ne_nil_of_mem member
  have stillFull : use.hdr.segNfree + 1 ≠ 0 := by
    rw [ne_eq, ← BitVec.toNat_inj, nfree]
    exact Nat.succ_ne_zero _
  have excl := counts.excl
  rw [exclOf, if_neg notEmpty, if_neg notFull] at excl
  constructor
  · exact counts.uuid
  · dsimp only
    split
    · rw [setExcl_intern _ (by decide)]
      exact counts.intern
    · exact counts.intern
  · exact counts.placed
  · exact counts.nodup
  · exact counts.inside
  · exact total
  · exact counts.several
  · refine List.Perm.trans ?_ counts.split
    refine List.perm_middle.symm.trans ?_
    exact (List.perm_cons_erase member).symm.append_left _
  · rfl
  · exact nfree
  · dsimp only
    split
    · rw [setExcl_excl _ (by decide), exclOf, if_pos ‹_›]
    · rw [exclOf, if_neg ‹_›, if_neg stillFull]
      exact excl

/-- After a record of a full segment is freed, the segment still says that it is full. -/
theorem free_full (counts : Counts records outs use) {pa : BitVec 64} {next : SegUse}
    {given : Option (BitVec 64)} (allocated : pa ∈ use.outstanding) (full : use.hdr.segNfree = 0)
    (freed : use.step (.free pa) = some (next, given)) : ¬ Agrees next := by
  obtain ⟨ptr, member, -, stepped⟩ := counts.free allocated
  rw [freed, Option.some.injEq, Prod.mk.injEq] at stepped
  obtain ⟨rfl, -⟩ := stepped
  have several := counts.several
  have total := counts.total
  have notTotal : (1 : BitVec 32) ≠ use.hdr.segNtotal := by
    rw [ne_eq, ← BitVec.toNat_inj, total]
    change ¬ 1 = records.length
    omega
  have marked : use.hdr.segState &&& shmSegFull ≠ 0 := by
    rw [ne_eq, counts.full_iff, not_not]
    exact full
  intro agrees
  have said := agrees.full
  dsimp only at said
  rw [full, if_neg (by exact notTotal)] at said
  exact absurd (said.mp marked) (by decide)

end Counts

/-- Some records are allocated, and the counts are those of the others. -/
def Counted (records : List (BitVec 32)) (use : SegUse) : Prop := ∃ outs, Counts records outs use

theorem Counted.agrees (counted : Counted records use) : Agrees use := by
  obtain ⟨outs, counts⟩ := counted
  exact counts.agrees

theorem Counted.step (counted : Counted records use) {call : SegCall} (legal : Legal use call)
    (guard : NeverFull use call) :
    ∃ next given, machine.step use call = some (next, given) ∧ Counted records next := by
  obtain ⟨outs, counts⟩ := counted
  cases call with
  | alloc =>
      cases free : use.hdr.segFreeRec with
      | nil => exact ⟨use, none, counts.alloc_full free, outs, counts⟩
      | cons ptr rest =>
          obtain ⟨next, stepped, still⟩ := counts.alloc free
          exact ⟨next, _, stepped, _, still⟩
  | free pa =>
      obtain ⟨next, outs, stepped, still⟩ := counts.free_counts legal guard
      exact ⟨next, _, stepped, outs, still⟩

theorem Counted.breaks (counted : Counted records use) {call : SegCall} (legal : Legal use call)
    (unmet : ¬ NeverFull use call) {next : SegUse} {given : Option (BitVec 64)}
    (stepped : machine.step use call = some (next, given)) : ¬ Agrees next := by
  obtain ⟨outs, counts⟩ := counted
  cases call with
  | alloc => exact (unmet trivial).elim
  | free pa => exact counts.free_full legal (not_not.mp unmet) stepped

/-- **Fullness is tracked exactly while no record of a full segment is freed.** -/
theorem agrees_iff_neverFull (calls : List SegCall) (fresh : Fresh use)
    (legal : machine.Meets Legal use calls) :
    machine.Always Agrees use calls ↔ machine.Meets NeverFull use calls := by
  have counted : Counted use.hdr.segFreeRec use := ⟨[], fresh.counts⟩
  exact Machine.always_iff_meets (fun _ counted => counted.agrees)
    (fun _ _ counted legal guard => counted.step legal guard)
    (fun _ _ _ _ counted legal unmet stepped => counted.breaks legal unmet stepped) counted legal

/-- Two records of eight bytes, both free. -/
def twoRecords : SegUse where
  hdr := {
    segUuid := 1
    segPa := 4096
    segState := shmSegInternRec ||| shmSegEmpty
    segSize := 128
    segNtotal := 2
    segNfree := 2
    segFreeRec := [104, 96]
    segUuidDup := 1 }
  outstanding := []

/-- Both records are allocated and one of them is freed. -/
def fillAndFree : List SegCall := [.alloc, .alloc, .free 4192]

private theorem fresh_twoRecords : Fresh twoRecords where
  uuid := rfl
  intern := by decide
  excl := by decide
  placed := by decide +kernel
  records := by decide
  inside := List.forall_mem_cons.mpr ⟨by decide, List.forall_mem_singleton.mpr (by decide)⟩
  total := rfl
  nfree := rfl
  several := by decide
  unused := rfl

private theorem legal_fillAndFree : machine.Meets Legal twoRecords fillAndFree := by decide +kernel

/-- A segment that was full once does not allocate the record that is free. -/
theorem fillAndFree_not_agrees : Fresh twoRecords ∧ machine.Meets Legal twoRecords fillAndFree ∧
    ¬ machine.Always Agrees twoRecords fillAndFree := by
  refine ⟨fresh_twoRecords, legal_fillAndFree, ?_⟩
  intro always
  obtain ⟨final, outputs, ran, agrees⟩ := always.run
  have ended : (machine.run twoRecords fillAndFree).map (fun r =>
      (r.1.hdr.segState &&& shmSegFull, r.1.hdr.segNfree)) = some (shmSegFull, 1) := by
    decide +kernel
  rw [ran, Option.map_some, Option.some.injEq, Prod.mk.injEq] at ended
  obtain ⟨marked, nfree⟩ := ended
  have said := agrees.full
  rw [marked, nfree] at said
  exact absurd (said.mp (by decide)) (by decide)

theorem agrees_iff_neverFull_fillAndFree :
    (machine.Always Agrees twoRecords fillAndFree ↔
      machine.Meets NeverFull twoRecords fillAndFree) :=
  agrees_iff_neverFull fillAndFree fresh_twoRecords legal_fillAndFree

end SegUse

end Tvntd
