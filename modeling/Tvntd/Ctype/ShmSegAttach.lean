import Tvntd.Ctype.ShmSeg
import Tvntd.Ctype.ShmSlistFixup

/-! # Attaching a shared memory segment

`shm_seg_ctor` and `seg_verify` of `common/ctype/shm-seg.c`. The constructor
formats a segment without a valid uuid and otherwise compares the sizes in the
header with its parameters, as they were before formatting rounded them, and
repairs the free list. Of what the repair returns only -1 is a failure: a list
that leaves the segment (-2), or with a count other than `seg_nfree`, is taken.
-/

namespace Tvntd

open Bytewise

/-! ## What the repair of a list does -/

section Repair

variable {mem : Bytes} {bound : BitVec 32} {root : Nat}

/-- The root, or the link of its tail, leads out of the segment. -/
def LeadsOut (mem : Bytes) (bound : BitVec 32) (root : Nat) : Prop :=
  (bound.toNat ≤ islHead mem root ∨ bound.toNat ≤ islTail mem root) ∨
    ilNext mem (islTail mem root) ≠ idxNil ∧ bound.toNat < ilNext mem (islTail mem root)

/-- Two elements follow the tail. -/
def TwoBehind (mem : Bytes) (root : Nat) : Prop :=
  ilNext mem (islTail mem root) ≠ idxNil ∧ ilNext mem (ilNext mem (islTail mem root)) ≠ idxNil

/-- The tail of the root, or the element behind it. -/
def settledTail (mem : Bytes) (root : Nat) : Nat :=
  if ilNext mem (islTail mem root) = idxNil then islTail mem root else ilNext mem (islTail mem root)

def settled (mem : Bytes) (root : Nat) : Bytes := stores mem [setTail root (settledTail mem root)]

/-- The links from the head on lead to an offset that is no element. -/
def Ends (mem : Bytes) (bound : BitVec 32) (root : Nat) : Prop :=
  ∃ elms stop, Walk (settled mem root) stop (islHead mem root) elms ∧
    (∀ elm ∈ elms, Visited bound elm) ∧ ¬ Visited bound stop

/-- The repair returns, and not -1. -/
def Accepted (mem : Bytes) (bound : BitVec 32) (root : Nat) : Prop :=
  LeadsOut mem bound root ∨ ¬ TwoBehind mem root ∧ Ends mem bound root

private theorem islFixupList_leadsOut (out : LeadsOut mem bound root) (turns : Nat) :
    ∃ reads, islFixupList turns mem bound root = some ⟨-2, 0, mem, reads⟩ := by
  by_cases refused : bound.toNat ≤ islHead mem root ∨ bound.toNat ≤ islTail mem root
  · exact ⟨[], islFixupList_refused refused turns⟩
  · obtain ⟨linked, above⟩ := out.resolve_left refused
    have head : islHead mem root < bound.toNat := by omega
    have tail : islTail mem root < bound.toNat := by omega
    have gave : fixupTail mem bound root = (some (-2), [], [islTail mem root]) := by
      simp only [fixupTail, ne_idxNil head, ne_idxNil tail, linked, above, ne_eq, not_false_eq_true,
        if_true, if_false]
    refine ⟨[islTail mem root], ?_⟩
    rw [islFixupList, if_neg refused, gave]
    rfl

theorem islFixupList_twoBehind (inside : ¬ LeadsOut mem bound root) (behind : TwoBehind mem root)
    (turns : Nat) : ∃ reads, islFixupList turns mem bound root = some ⟨-1, 0, mem, reads⟩ := by
  obtain ⟨started, below⟩ := not_or.mp inside
  obtain ⟨linked, more⟩ := behind
  have head : islHead mem root < bound.toNat := by omega
  have tail : islTail mem root < bound.toNat := by omega
  have above : ¬ bound.toNat < ilNext mem (islTail mem root) := fun above => below ⟨linked, above⟩
  have gave : fixupTail mem bound root =
      (some (-1), [], [islTail mem root, ilNext mem (islTail mem root)]) := by
    simp only [fixupTail, ne_idxNil head, ne_idxNil tail, linked, above, more, ne_eq,
      not_false_eq_true, if_true, if_false]
  refine ⟨[islTail mem root, ilNext mem (islTail mem root)], ?_⟩
  rw [islFixupList, if_neg started, gave]
  rfl

/-- Otherwise the repair settles the tail and counts the elements. -/
theorem islFixupList_settled (inside : ¬ LeadsOut mem bound root) (short : ¬ TwoBehind mem root) :
    ∃ reads, ∀ turns, islFixupList turns mem bound root =
      (fixupCount (settled mem root) turns ⟨bound, islHead mem root⟩ 0).map
        fun r => ⟨r.1, r.2.1, settled mem root, reads ++ r.2.2⟩ := by
  obtain ⟨started, below⟩ := not_or.mp inside
  have head : islHead mem root < bound.toNat := by omega
  have tail : islTail mem root < bound.toNat := by omega
  have first : islIterInit (settled mem root) bound root = ⟨bound, islHead mem root⟩ := by
    rw [islIterInit, settled, islHead_setTail]
  by_cases ended : ilNext mem (islTail mem root) = idxNil
  · have fixed : fixupTail mem bound root = (none, [], [islTail mem root]) := by
      simp only [fixupTail, ne_idxNil head, ne_idxNil tail, ended, ne_eq, not_true_eq_false,
        if_true, if_false]
    have same : settled mem root = mem := by
      rw [settled, settledTail, if_pos ended, stores_setTail_self]
    refine ⟨[islTail mem root], fun turns => ?_⟩
    rw [same] at first ⊢
    rw [islFixupList, if_neg started, fixed]
    exact congrArg (fun iter => (fixupCount mem turns iter 0).map _) first
  · have last : ilNext mem (ilNext mem (islTail mem root)) = idxNil := by
      by_contra more
      exact short ⟨ended, more⟩
    have above : ¬ bound.toNat < ilNext mem (islTail mem root) := fun above => below ⟨ended, above⟩
    have fixed : fixupTail mem bound root = (none, [setTail root (ilNext mem (islTail mem root))],
        [islTail mem root, ilNext mem (islTail mem root)]) := by
      simp only [fixupTail, ne_idxNil head, ne_idxNil tail, ended, above, last, ne_eq,
        not_false_eq_true, if_true, if_false]
    have same : settled mem root = stores mem [setTail root (ilNext mem (islTail mem root))] := by
      rw [settled, settledTail, if_neg ended]
    refine ⟨[islTail mem root, ilNext mem (islTail mem root)], fun turns => ?_⟩
    rw [same] at first ⊢
    rw [islFixupList, if_neg started, fixed]
    exact congrArg (fun iter => (fixupCount _ turns iter 0).map _) first

private theorem counted_ne_neg_one (cnt : BitVec 32) (elms : List Nat) (last : Nat) :
    (counted cnt elms last).1 ≠ -1 := by
  unfold counted
  by_cases ended : last = idxNil
  · rw [if_pos ended]
    exact fun same => absurd same (by decide : (0 : Int) ≠ -1)
  · rw [if_neg ended]
    exact fun same => absurd same (by decide : (-2 : Int) ≠ -1)

/-- An accepted list is repaired. -/
theorem Accepted.run (accepted : Accepted mem bound root) :
    ∃ turns fixup, islFixupList turns mem bound root = some fixup ∧ fixup.ret ≠ -1 := by
  by_cases out : LeadsOut mem bound root
  · obtain ⟨reads, ran⟩ := islFixupList_leadsOut out 0
    exact ⟨0, _, ran, (by decide : (-2 : Int) ≠ -1)⟩
  · obtain ⟨short, elms, stop, walk, visited, stopped⟩ := accepted.resolve_left out
    obtain ⟨reads, run⟩ := islFixupList_settled out short
    have ended := fixupCount_of_walk stopped 0 walk visited
    exact ⟨elms.length + 1, _, (run _).trans (congrArg (Option.map _) ended),
      counted_ne_neg_one 0 elms stop⟩

/-- A repair that does not return -1 accepted the list, and stored to the tail at most. -/
theorem accepted_of_run {turns : Nat} {fixup : Fixup}
    (ran : islFixupList turns mem bound root = some fixup) (taken : fixup.ret ≠ -1) :
    Accepted mem bound root ∧
      ((LeadsOut mem bound root ∧ fixup.mem = mem) ∨
        (¬ LeadsOut mem bound root ∧ ¬ TwoBehind mem root ∧ fixup.mem = settled mem root)) := by
  by_cases out : LeadsOut mem bound root
  · obtain ⟨reads, same⟩ := islFixupList_leadsOut out turns
    rw [ran, Option.some.injEq] at same
    exact ⟨.inl out, .inl ⟨out, by rw [same]⟩⟩
  · by_cases behind : TwoBehind mem root
    · obtain ⟨reads, same⟩ := islFixupList_twoBehind out behind turns
      rw [ran, Option.some.injEq] at same
      exact (taken (by rw [same])).elim
    · obtain ⟨reads, run⟩ := islFixupList_settled out behind
      rw [run] at ran
      obtain ⟨result, count, rfl⟩ := Option.map_eq_some_iff.mp ran
      obtain ⟨elms, stop, walk, visited, stopped, -⟩ := walk_of_fixupCount count
      exact ⟨.inr ⟨behind, elms, stop, walk, visited, stopped⟩, .inr ⟨out, behind, rfl⟩⟩

/-- A well-formed list of this many elements: its links end, it has no element twice and none
outside the segment, and the tail is its last element. -/
def WellFormed (mem : Bytes) (bound : BitVec 32) (root count : Nat) : Prop :=
  ∃ elms, Chain mem (islHead mem root) elms ∧ elms.Nodup ∧ (∀ elm ∈ elms, elm < bound.toNat) ∧
    islTail mem root = elms.getLast?.getD idxNil ∧ elms.length = count

/-- The root is empty and so is the list, or the elements from the head on end at the tail as the
repair settles it. -/
def Healthy (mem : Bytes) (bound : BitVec 32) (root count : Nat) : Prop :=
  (islHead mem root = idxNil ∧ islTail mem root = idxNil ∧ count = 0) ∨
    (¬ LeadsOut mem bound root ∧ ∃ elms, Chain (settled mem root) (islHead mem root) elms ∧
      (∀ elm ∈ elms, elm < bound.toNat) ∧ elms.getLast? = some (settledTail mem root) ∧
        elms.length = count)

/-- The tail of a list that is not empty leads nowhere, least of all out of the segment. -/
theorem WellFormed.empty {count : Nat} (formed : WellFormed mem bound root count)
    (out : LeadsOut mem bound root) :
    islHead mem root = idxNil ∧ islTail mem root = idxNil ∧ count = 0 := by
  obtain ⟨elms, chain, nodup, inside, tail, rfl⟩ := formed
  cases elms with
  | nil => exact ⟨chain, tail, rfl⟩
  | cons elm rest =>
      have nonempty : elm :: rest ≠ [] := List.cons_ne_nil elm rest
      have last : islTail mem root = (elm :: rest).getLast nonempty := by
        rw [tail, List.getLast?_eq_getLast_of_ne_nil nonempty]
        rfl
      have tailInside := inside _ (List.getLast_mem nonempty)
      have headInside := inside elm List.mem_cons_self
      have ended := chain_getLast nonempty chain
      rw [← last] at tailInside ended
      rw [← chain.1] at headInside
      rcases out with (above | above) | ⟨linked, -⟩
      · exact absurd headInside (Nat.not_lt.mpr above)
      · exact absurd tailInside (Nat.not_lt.mpr above)
      · exact absurd ended linked

private theorem wellFormed_iff_healthy_leadsOut (count : Nat) (out : LeadsOut mem bound root) :
    WellFormed mem bound root count ↔ Healthy mem bound root count := by
  constructor
  · exact fun formed => .inl (formed.empty out)
  · rintro (⟨head, tail, rfl⟩ | ⟨inside, -⟩)
    · exact ⟨[], head, List.nodup_nil, fun _ none => (List.not_mem_nil none).elim, tail, rfl⟩
    · exact (inside out).elim

private theorem settledTail_lt (mem : Bytes) (root : Nat) : settledTail mem root < 256 ^ 4 := by
  unfold settledTail
  split
  · exact read_lt mem _ 4
  · exact read_lt mem _ 4

private theorem islTail_settled (mem : Bytes) (root : Nat) :
    islTail (settled mem root) root = settledTail mem root :=
  islTail_setTail mem (settledTail_lt mem root)

private theorem islHead_settled (mem : Bytes) (root : Nat) :
    islHead (settled mem root) root = islHead mem root := islHead_setTail mem root _

private theorem wellFormed_iff_healthy_settled (count : Nat) (inside : ¬ LeadsOut mem bound root) :
    WellFormed (settled mem root) bound root count ↔ Healthy mem bound root count := by
  have head : islHead mem root < bound.toNat :=
    Nat.not_le.mp fun above => inside (.inl (.inl above))
  unfold WellFormed
  rw [islHead_settled, islTail_settled]
  constructor
  · rintro ⟨elms, chain, -, elmsInside, tail, length⟩
    refine .inr ⟨inside, elms, chain, elmsInside, ?_, length⟩
    have nonempty : elms ≠ [] := by
      rintro rfl
      exact ne_idxNil head chain
    rw [List.getLast?_eq_getLast_of_ne_nil nonempty] at tail ⊢
    exact congrArg some tail.symm
  · rintro (⟨empty, -⟩ | ⟨-, elms, chain, elmsInside, last, length⟩)
    · exact (ne_idxNil head empty).elim
    · refine ⟨elms, chain, ?_, elmsInside, ?_, length⟩
      · exact Walk.nodup (fun elm member => ne_idxNil (elmsInside elm member)) chain
      · rw [last]
        rfl

end Repair

namespace ShmSeg

/-! ## The constructor -/

/-- What `shm_seg_ctor` leaves: whether it returned a handle, the uuid behind its pointer, and the
segment. -/
structure SegCtor where
  seg : Bool
  uuid : BitVec 64
  mem : Bytes

/-- `seg_verify`; it only prints that the count is not `seg_nfree`. -/
def segVerify (turns : Nat) (mem : Bytes) : Option Fixup :=
  islFixupList turns mem (segSize mem) segFreeRec

/-- The segment has a valid uuid. -/
def HasUuid (mem : Bytes) (param : ShmSegParam) : Prop :=
  segPa mem = param.shmSegPa.toNat ∧ segUuid mem ≠ 0 ∧ segUuid mem = segUuidDup mem

instance (mem : Bytes) (param : ShmSegParam) : Decidable (HasUuid mem param) :=
  inferInstanceAs (Decidable (_ ∧ _))

def SameSizes (mem : Bytes) (param : ShmSegParam) : Prop :=
  (segSize mem).toNat = param.shmSegSize.toNat ∧ segRecSize mem = param.shmRecSize.toNat ∧
    segUhdrSize mem = param.shmUhdrSize.toNat

instance (mem : Bytes) (param : ShmSegParam) : Decidable (SameSizes mem param) :=
  inferInstanceAs (Decidable (_ ∧ _))

/-- What `shm_seg_ctor` verifies at its end; `seg_verify_layout` is always true. -/
def segReady (mem : Bytes) (param : ShmSegParam) : Option SegCtor :=
  if segPa mem = param.shmSegPa.toNat ∧ segUuid mem = segUuidDup mem then
    some ⟨true, BitVec.ofNat 64 (segUuid mem), mem⟩
  else none

variable (shmPa2va : BitVec 64 → Bool) (roundUpAlign : BitVec 32 → BitVec 32 → BitVec 32)
  (genUuid64 : BitVec 64)

/-- `shmPa2va` tells whether `shm_pa2va` maps the segment. -/
def shmSegCtor (turns : Nat) (mem : Bytes) (uuid : BitVec 64) (param : ShmSegParam) :
    Option SegCtor :=
  if shmPa2va param.shmSegPa = false then some ⟨false, uuid, mem⟩
  -- Have uuid and don't match with the one on the segment.
  else if uuid ≠ 0 ∧ uuid.toNat ≠ segUuid mem then some ⟨false, uuid, mem⟩
  else if HasUuid mem param then
    if SameSizes mem param then
      (segVerify turns mem).bind fun fixup =>
        if fixup.ret = -1 then some ⟨false, uuid, fixup.mem⟩ else segReady fixup.mem param
    else some ⟨false, uuid, mem⟩
  else (segInit roundUpAlign genUuid64 mem param).bind fun fresh => segReady fresh param

/-- The header is as it was, but for the tail of the free list. -/
def HeaderKept (mem after : Bytes) : Prop :=
  ∀ address, address < hdrBytes → ¬ (segFreeRec + 4 ≤ address ∧ address < segFreeRec + 8) →
    after address = mem address

/-- The constructor attaches the segment with this uuid, and keeps its header. -/
def Reattaches (mem : Bytes) (uuid : BitVec 64) (param : ShmSegParam) : Prop :=
  ∃ turns out, shmSegCtor shmPa2va roundUpAlign genUuid64 turns mem uuid param = some out ∧
    out.seg = true ∧ out.uuid = uuid ∧ HeaderKept mem out.mem

/-- A handle that is not null stands for a well-formed free list of `seg_nfree` elements. -/
def Sound (mem : Bytes) (uuid : BitVec 64) (param : ShmSegParam) : Prop :=
  ∀ turns out, shmSegCtor shmPa2va roundUpAlign genUuid64 turns mem uuid param = some out →
    out.seg = true → WellFormed out.mem (segSize out.mem) segFreeRec (segNfree out.mem)

/-- The constructor takes the segment for the one it looks for. -/
structure Matches (mem : Bytes) (uuid : BitVec 64) (param : ShmSegParam) : Prop where
  mapped : shmPa2va param.shmSegPa = true
  uuid : uuid = 0 ∨ uuid.toNat = segUuid mem
  sizes : SameSizes mem param

variable {shmPa2va roundUpAlign genUuid64} {mem after : Bytes} {uuid : BitVec 64}
    {param : ShmSegParam}

private theorem segReady_seg {out : SegCtor} (ready : segReady mem param = some out) :
    (segPa mem = param.shmSegPa.toNat ∧ segUuid mem = segUuidDup mem) ∧
      out = ⟨true, BitVec.ofNat 64 (segUuid mem), mem⟩ := by
  unfold segReady at ready
  split at ready
  · exact ⟨‹_›, (Option.some.inj ready).symm⟩
  · cases ready

/-- A field of the header outside the tail of the free list. -/
theorem HeaderKept.field (kept : HeaderKept mem after) {off width : Nat}
    (inside : off + width ≤ hdrBytes) (apart : Apart (segFreeRec + 4) 4 off width) :
    read after off width = read mem off width := by
  refine read_congr fun address above below => kept address (by omega) ?_
  rcases apart with before | behind
  · omega
  · omega

private theorem headerKept_settled (mem : Bytes) : HeaderKept mem (settled mem segFreeRec) := by
  intro address _ outside
  exact write_of_outside _ (show address < segFreeRec + 4 ∨ segFreeRec + 4 + 4 ≤ address by omega)

/-- The header as the constructor sees it is kept by the repair of the free list. -/
theorem HeaderKept.hasUuid (kept : HeaderKept mem after) :
    HasUuid after param ↔ HasUuid mem param := by
  unfold HasUuid segPa segUuid segUuidDup
  rw [kept.field (by decide) (by decide), kept.field (by decide) (by decide),
    kept.field (by decide) (by decide)]

/-- The constructor on a segment with a valid uuid. -/
theorem shmSegCtor_attach (valid : HasUuid mem param) (turns : Nat)
    (fits : Matches shmPa2va mem uuid param) :
    shmSegCtor shmPa2va roundUpAlign genUuid64 turns mem uuid param =
      (segVerify turns mem).bind fun fixup =>
        if fixup.ret = -1 then some ⟨false, uuid, fixup.mem⟩ else segReady fixup.mem param := by
  have same : ¬ (uuid ≠ 0 ∧ uuid.toNat ≠ segUuid mem) :=
    fun differs => fits.uuid.elim differs.1 differs.2
  rw [shmSegCtor, fits.mapped, if_neg Bool.noConfusion, if_neg same, if_pos valid,
    if_pos fits.sizes]

/-- A handle for a segment with a valid uuid: the segment matched, its list was accepted, and what
the repair stored is the tail. -/
theorem shmSegCtor_handle (valid : HasUuid mem param) {turns : Nat} {out : SegCtor}
    (ran : shmSegCtor shmPa2va roundUpAlign genUuid64 turns mem uuid param = some out)
    (handle : out.seg = true) :
    Matches shmPa2va mem uuid param ∧ Accepted mem (segSize mem) segFreeRec ∧
      ((LeadsOut mem (segSize mem) segFreeRec ∧ out.mem = mem) ∨
        (¬ LeadsOut mem (segSize mem) segFreeRec ∧ out.mem = settled mem segFreeRec)) := by
  unfold shmSegCtor at ran
  by_cases unmapped : shmPa2va param.shmSegPa = false
  · rw [if_pos unmapped, Option.some.injEq] at ran
    rw [← ran] at handle
    cases handle
  · rw [if_neg unmapped] at ran
    by_cases differs : uuid ≠ 0 ∧ uuid.toNat ≠ segUuid mem
    · rw [if_pos differs, Option.some.injEq] at ran
      rw [← ran] at handle
      cases handle
    · have same : uuid = 0 ∨ uuid.toNat = segUuid mem := by
        by_contra neither
        exact differs (not_or.mp neither)
      rw [if_neg differs, if_pos valid] at ran
      by_cases sizes : SameSizes mem param
      · rw [if_pos sizes] at ran
        obtain ⟨fixup, fixed, rest⟩ := Option.bind_eq_some_iff.mp ran
        by_cases failed : fixup.ret = -1
        · rw [if_pos failed, Option.some.injEq] at rest
          rw [← rest] at handle
          cases handle
        · rw [if_neg failed] at rest
          obtain ⟨-, rfl⟩ := segReady_seg rest
          obtain ⟨accepted, stored⟩ := accepted_of_run fixed failed
          exact ⟨⟨Bool.not_eq_false _ ▸ unmapped, same, sizes⟩, accepted,
            stored.imp_right fun inside => ⟨inside.1, inside.2.2⟩⟩
      · rw [if_neg sizes, Option.some.injEq] at ran
        rw [← ran] at handle
        cases handle

/-- Only a segment with a valid uuid is attached with its header kept. -/
theorem Reattaches.hasUuid (some_ : uuid ≠ 0)
    (reattaches : Reattaches shmPa2va roundUpAlign genUuid64 mem uuid param) :
    HasUuid mem param := by
  obtain ⟨turns, out, ran, handle, -, kept⟩ := reattaches
  by_contra invalid
  unfold shmSegCtor at ran
  rw [if_neg invalid] at ran
  split at ran
  · cases ran
    cases handle
  · split at ran
    · cases ran
      cases handle
    · have same : uuid.toNat = segUuid mem := by
        by_contra differs
        exact ‹¬ (uuid ≠ 0 ∧ _)› ⟨some_, differs⟩
      obtain ⟨fresh, -, ready⟩ := Option.bind_eq_some_iff.mp ran
      obtain ⟨⟨pa, dup⟩, rfl⟩ := segReady_seg ready
      refine invalid (kept.hasUuid.mp ⟨pa, ?_, dup⟩)
      have uuidKept : segUuid fresh = segUuid mem := kept.field (by decide) (by decide)
      rw [uuidKept, ← same]
      exact fun zero => some_ (BitVec.eq_of_toNat_eq zero)

/-- A segment that matches, with a list that is accepted, is attached. -/
theorem shmSegCtor_accepted (valid : HasUuid mem param) (fits : Matches shmPa2va mem uuid param)
    (accepted : Accepted mem (segSize mem) segFreeRec) :
    ∃ turns after, shmSegCtor shmPa2va roundUpAlign genUuid64 turns mem uuid param =
        some ⟨true, BitVec.ofNat 64 (segUuid mem), after⟩ ∧ HeaderKept mem after ∧
      ((LeadsOut mem (segSize mem) segFreeRec ∧ after = mem) ∨
        (¬ LeadsOut mem (segSize mem) segFreeRec ∧ after = settled mem segFreeRec)) := by
  obtain ⟨turns, fixup, ran, taken⟩ := accepted.run
  have stored := (accepted_of_run ran taken).2.imp_right fun inside => And.intro inside.1 inside.2.2
  have kept : HeaderKept mem fixup.mem := by
    rcases stored with ⟨-, same⟩ | ⟨-, same⟩
    · rw [same]
      exact fun _ _ _ => rfl
    · rw [same]
      exact headerKept_settled mem
  obtain ⟨pa, -, dup⟩ := kept.hasUuid.mpr valid
  have uuidKept : segUuid fixup.mem = segUuid mem := kept.field (by decide) (by decide)
  refine ⟨turns, fixup.mem, ?_, kept, stored⟩
  rw [shmSegCtor_attach valid turns fits, segVerify, ran, Option.bind_some, if_neg taken, segReady,
    if_pos ⟨pa, dup⟩, uuidKept]

/-- A handle stands for a well-formed list exactly when the list was healthy. -/
theorem wellFormed_iff_healthy (stored : (LeadsOut mem (segSize mem) segFreeRec ∧ after = mem) ∨
      (¬ LeadsOut mem (segSize mem) segFreeRec ∧ after = settled mem segFreeRec)) :
    WellFormed after (segSize after) segFreeRec (segNfree after) ↔
      Healthy mem (segSize mem) segFreeRec (segNfree mem) := by
  rcases stored with ⟨out, rfl⟩ | ⟨inside, rfl⟩
  · exact wellFormed_iff_healthy_leadsOut _ out
  · have kept := headerKept_settled mem
    have size : segSize (settled mem segFreeRec) = segSize mem :=
      congrArg (BitVec.ofNat 32) (kept.field (by decide) (by decide))
    have nfree : segNfree (settled mem segFreeRec) = segNfree mem :=
      kept.field (by decide) (by decide)
    rw [size, nfree]
    exact wellFormed_iff_healthy_settled _ inside

/-- **When a segment is attached again, and when its handle is sound.** It is attached with its uuid
and its header exactly when it has a valid uuid, the sizes in its header are the parameters as they
are, and the repair accepts the free list. A handle is sound exactly when every list that is
accepted so is healthy. -/
theorem attaches_iff (shmPa2va : BitVec 64 → Bool)
    (roundUpAlign : BitVec 32 → BitVec 32 → BitVec 32) (genUuid64 : BitVec 64) (mem : Bytes)
    (uuid : BitVec 64) (param : ShmSegParam) :
    (uuid ≠ 0 → (Reattaches shmPa2va roundUpAlign genUuid64 mem uuid param ↔
      HasUuid mem param ∧ Matches shmPa2va mem uuid param ∧
        Accepted mem (segSize mem) segFreeRec)) ∧
      (HasUuid mem param → (Sound shmPa2va roundUpAlign genUuid64 mem uuid param ↔
        (Matches shmPa2va mem uuid param → Accepted mem (segSize mem) segFreeRec →
          Healthy mem (segSize mem) segFreeRec (segNfree mem)))) := by
  constructor
  · intro some_
    constructor
    · intro reattaches
      have valid := reattaches.hasUuid some_
      obtain ⟨turns, out, ran, handle, -, -⟩ := reattaches
      obtain ⟨fits, accepted, -⟩ := shmSegCtor_handle valid ran handle
      exact ⟨valid, fits, accepted⟩
    · rintro ⟨valid, fits, accepted⟩
      obtain ⟨turns, after, attached, kept, -⟩ := shmSegCtor_accepted valid fits accepted
      refine ⟨turns, _, attached, rfl, ?_, kept⟩
      dsimp only
      rw [← fits.uuid.resolve_left some_, BitVec.ofNat_toNat, BitVec.setWidth_eq]
  · intro valid
    constructor
    · intro sound fits accepted
      obtain ⟨turns, after, attached, -, stored⟩ := shmSegCtor_accepted valid fits accepted
      exact (wellFormed_iff_healthy stored).mp (sound turns _ attached rfl)
    · intro healthy turns out ran handle
      obtain ⟨fits, accepted, stored⟩ := shmSegCtor_handle valid ran handle
      exact (wellFormed_iff_healthy stored).mpr (healthy fits accepted)

/-- A segment with all of its records allocated. -/
def fullSegment : Bytes :=
  stores (fun _ => 0) [⟨0, 8, 7⟩, ⟨8, 8, 4096⟩, ⟨28, 4, 160⟩, ⟨32, 4, 64⟩, ⟨36, 2, 72⟩,
    setHead segFreeRec idxNil, setTail segFreeRec idxNil, ⟨64, 8, 7⟩]

/-- One record of this size behind the header. -/
def oneRecord (recSize : BitVec 32) : ShmSegParam := ⟨8, recSize, 72, 160, 4096⟩

/-- An empty root is refused like a corrupt one, and accepted all the same. -/
theorem attaches_iff_fullSegment :
    Reattaches (fun _ => true) roundUp 9 fullSegment 7 (oneRecord 64) ∧
    Sound (fun _ => true) roundUp 9 fullSegment 7 (oneRecord 64) := by
  have valid : HasUuid fullSegment (oneRecord 64) := by decide +kernel
  have sizes : SameSizes fullSegment (oneRecord 64) := by decide +kernel
  have out : LeadsOut fullSegment (segSize fullSegment) segFreeRec :=
    .inl (.inl (by decide +kernel))
  obtain ⟨attaches, sound⟩ := attaches_iff (fun _ => true) roundUp 9 fullSegment 7 (oneRecord 64)
  constructor
  · exact (attaches (by decide)).mpr ⟨valid, ⟨rfl, .inr (by decide +kernel), sizes⟩, .inl out⟩
  · exact (sound valid).mpr fun _ _ => .inl (by decide +kernel)

/-- A formatted segment whose records were rounded up is not attached again, and one that is has
no well-formed list: the record leads to the uuid, and the uuid out of the segment. -/
theorem formatted_not_attached :
    (∃ out, shmSegCtor (fun _ => true) roundUp 7 3 (fun _ => 0) 0 (oneRecord 60) = some out ∧
      out.seg = true ∧ out.uuid = 7 ∧
        ¬ Reattaches (fun _ => true) roundUp 9 out.mem out.uuid (oneRecord 60)) ∧
    ∃ out, shmSegCtor (fun _ => true) roundUp 0xdeadbeef 3 (fun _ => 0) 0
      (oneRecord 64) = some out ∧
      HasUuid out.mem (oneRecord 64) ∧
        ¬ Sound (fun _ => true) roundUp 9 out.mem out.uuid (oneRecord 64) := by
  constructor
  · have formatted : (shmSegCtor (fun _ => true) roundUp 7 3 (fun _ => 0) 0 (oneRecord 60)).map
        (fun out => (out.seg, out.uuid, segRecSize out.mem)) =
          some (true, 7, 64) := by decide +kernel
    obtain ⟨out, ran, result⟩ := Option.map_eq_some_iff.mp formatted
    obtain ⟨handle, uuid, recSize⟩ : out.seg = true ∧ out.uuid = 7 ∧ segRecSize out.mem = 64 := by
      simpa using result
    refine ⟨out, ran, handle, uuid, fun reattaches => ?_⟩
    have valid := reattaches.hasUuid (by rw [uuid]; decide)
    obtain ⟨turns, again, ranAgain, attached, -⟩ := reattaches
    have sizes := (shmSegCtor_handle valid ranAgain attached).1.sizes
    exact absurd (recSize.symm.trans sizes.2.1) (by decide)
  · have formatted : (shmSegCtor (fun _ => true) roundUp 0xdeadbeef 3 (fun _ => 0) 0
        (oneRecord 64)).map (fun out => (decide (HasUuid out.mem (oneRecord 64) ∧
          SameSizes out.mem (oneRecord 64) ∧ out.uuid.toNat = segUuid out.mem),
            segSize out.mem, islHead out.mem segFreeRec, islTail out.mem segFreeRec,
              ilNext out.mem 0)) =
        some (true, 160, 80, 0, 0xdeadbeef) := by decide +kernel
    obtain ⟨out, ran, result⟩ := Option.map_eq_some_iff.mp formatted
    simp only [Prod.mk.injEq, decide_eq_true_eq] at result
    obtain ⟨⟨valid, sizes, uuid⟩, size, head, tail, next⟩ := result
    refine ⟨out, ran, valid, fun sound => ?_⟩
    have leads : LeadsOut out.mem (segSize out.mem) segFreeRec := by
      refine .inr ?_
      rw [tail, next, size]
      decide
    have fits : Matches (fun _ => true) out.mem out.uuid (oneRecord 64) := ⟨rfl, .inr uuid, sizes⟩
    obtain ⟨turns, after, attached, -, stored⟩ :=
      @shmSegCtor_accepted _ roundUp 9 _ _ _ valid fits (.inl leads)
    have healthy := (wellFormed_iff_healthy stored).mp (sound turns _ attached rfl)
    rcases healthy with ⟨empty, -⟩ | ⟨inside, -⟩
    · exact absurd (head.symm.trans empty) (by decide)
    · exact inside leads

end ShmSeg

end Tvntd
