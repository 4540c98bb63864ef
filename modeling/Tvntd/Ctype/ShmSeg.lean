import Tvntd.Lib.Stride
import Tvntd.Ctype.ShmSlistUpdate

/-! # Formatting a shared memory segment

`seg_init` of `common/ctype/shm-seg.c` with what it calls. The header is at the
start of the segment, and its fields are read from and written to the bytes of
the segment like everything else: a record that overlaps the header overwrites
it. `round_up_align` is declared nowhere and is a parameter. `none` is a failed
`verify`, a division by zero, or a store in front of the segment.
-/

namespace Tvntd

open Bytewise

/-- `shm_seg_param_t` -/
structure ShmSegParam where
  shmRecAlignSz : BitVec 32
  shmRecSize : BitVec 32
  shmUhdrSize : BitVec 32
  shmSegSize : BitVec 64
  shmSegPa : BitVec 64

namespace ShmSeg

/-! ## The fields of `shm_seg_hdr_t` -/

/-- `sizeof(shm_seg_hdr_t)` -/
def hdrBytes : Nat := 72

def segUuid (mem : Bytes) : Nat := read mem 0 8

def segPa (mem : Bytes) : Nat := read mem 8 8

def segState (mem : Bytes) : Nat := read mem 24 4

def segSize (mem : Bytes) : BitVec 32 := BitVec.ofNat 32 (read mem 28 4)

def segRecSize (mem : Bytes) : Nat := read mem 32 4

def segUhdrSize (mem : Bytes) : Nat := read mem 36 2

def segNtotal (mem : Bytes) : Nat := read mem 44 4

def segNfree (mem : Bytes) : Nat := read mem 48 4

/-- The address of `seg_free_rec`. -/
def segFreeRec : Nat := 56

def segUuidDup (mem : Bytes) : Nat := read mem 64 8

def stateEmpty : Nat := 0x00000001

def stateInternRec : BitVec 32 := 0x10000000

def stateExternRec : BitVec 32 := 0x20000000

def fencePat : Nat := 0xcafecafe

/-! ## The bitmap -/

/-- `BIT_MASK_IN_U32` -/
def bitMaskInU32 (x : BitVec 32) : BitVec 32 := (1 : BitVec 32) <<< (x &&& 31).toNat

/-- The argument is an `int`, shifted arithmetically. -/
def bmapU32cnt (size : BitVec 32) : BitVec 32 :=
  let u32cnt := size.sshiftRight 5
  if bitMaskInU32 size ≠ 0 then u32cnt + 1 else u32cnt

/-- `bmap_init` with `clear` false. -/
def bmapInit (mem : Bytes) (bmap : Nat) (size : BitVec 32) : Bytes :=
  stores mem ((List.range (bmapU32cnt size).toInt.toNat).map fun i => ⟨bmap + 4 * i, 4, 2 ^ 32 - 1⟩)

/-! ## Formatting -/

structure SegUsage where
  recCnt : BitVec 32
  recFlg : BitVec 32
  recSiz : BitVec 32
  hdrSiz : BitVec 32
  uhdrOff : BitVec 32
  deriving DecidableEq

/-- `usr_siz`, what is left of the segment behind a header. -/
def usrSiz (param : ShmSegParam) (hdrSiz : BitVec 32) : BitVec 32 :=
  (param.shmSegSize - hdrSiz.setWidth 64).setWidth 32

def segCalUsage (roundUpAlign : BitVec 32 → BitVec 32 → BitVec 32) (p : ShmSegParam) :
    Option SegUsage :=
  -- Compute the header size + fence - the free bitmaps.
  let hdrSiz := roundUpAlign (BitVec.ofNat 32 hdrBytes + p.shmUhdrSize + 4) p.shmRecAlignSz
  let recSiz := roundUpAlign p.shmRecSize p.shmRecAlignSz
  -- The second division is by the record size if the first one is not.
  if recSiz = 0 then none
  else
    let usr := usrSiz p hdrSiz
    let cnt := if recSiz < usr then usr / recSiz else usr / 8
    -- Compute the header + fence + the free bitmaps.
    let bitmap := bmapU32cnt cnt * 4
    let uhdrOff := bitmap + BitVec.ofNat 32 hdrBytes + 4
    let hdrSiz := roundUpAlign (bitmap + p.shmUhdrSize) p.shmRecAlignSz
    let usr := usrSiz p hdrSiz
    if recSiz ≤ usr then some ⟨usr / recSiz, stateInternRec, recSiz, hdrSiz, uhdrOff⟩
    else some ⟨usr / 8, stateExternRec, recSiz, hdrSiz, uhdrOff⟩

/-- The loop of `shm_seg_reinit` that frees every record, and the offset behind the last one. -/
def reinitLoop : Nat → Bytes → BitVec 32 → BitVec 32 → Option (Bytes × BitVec 32)
  | 0, _, _, _ => none
  | turns + 1, mem, cnt, recOff =>
      if cnt.toNat < segNtotal mem then
        (islAddFront mem (segSize mem) segFreeRec recOff.toNat).bind fun next =>
          reinitLoop turns next (cnt + 1) (recOff + BitVec.ofNat 32 (segRecSize next))
      else some (mem, recOff)

/-- `(uint32_t *)(seg + seg->seg_uhdr_off - sizeof(uint32_t))`, in units of the header. -/
def fenceOff (use : SegUsage) : Nat := hdrBytes * (use.uhdrOff.toNat - 4)

/-- `(uint32_t *)(seg + sizeof(*seg))`, in units of the header. -/
def bitmapOff : Nat := hdrBytes * hdrBytes

/-- The segment before its records are freed. -/
def reinitHdr (mem : Bytes) (use : SegUsage) : Bytes :=
  let sized := stores mem [⟨32, 4, use.recSiz.toNat⟩, ⟨40, 4, use.uhdrOff.toNat⟩,
    ⟨44, 4, use.recCnt.toNat⟩, ⟨24, 4, use.recFlg.toNat⟩]
  let fenced := stores sized [⟨fenceOff use, 4, fencePat⟩]
  let mapped := bmapInit fenced bitmapOff (BitVec.ofNat 32 (segNtotal fenced))
  stores mapped [⟨24, 4, segState mapped ||| stateEmpty⟩, ⟨48, 4, segNtotal mapped⟩, ⟨52, 4, 0⟩]

def shmSegReinit (roundUpAlign : BitVec 32 → BitVec 32 → BitVec 32) (mem : Bytes)
    (param : ShmSegParam) : Option Bytes :=
  (segCalUsage roundUpAlign param).bind fun use =>
    if use.uhdrOff.toNat < 4 then none
    else
      (reinitLoop (2 ^ 32) (reinitHdr mem use) 0 use.hdrSiz).bind fun (freed, recOff) =>
        if read freed (fenceOff use) 4 = fencePat ∧ recOff ≤ segSize freed then some freed else none

/-- `seg_init`; the uuid is what `gen_uuid64` returns. -/
def segInit (roundUpAlign : BitVec 32 → BitVec 32 → BitVec 32) (genUuid64 : BitVec 64)
    (mem : Bytes) (param : ShmSegParam) : Option Bytes :=
  shmSegReinit roundUpAlign (stores mem [⟨0, 8, genUuid64.toNat⟩, ⟨64, 8, genUuid64.toNat⟩,
    ⟨8, 8, param.shmSegPa.toNat⟩, ⟨28, 4, param.shmSegSize.toNat⟩, ⟨32, 4, param.shmRecSize.toNat⟩,
    ⟨36, 2, param.shmUhdrSize.toNat⟩, ⟨38, 2, param.shmRecAlignSz.toNat⟩]) param

/-! ## What formatting should do -/

/-- The offsets of the records. -/
def records (use : SegUsage) : List Nat :=
  (Stride.strides use.recSiz use.recCnt.toNat use.hdrSiz).map BitVec.toNat

/-- No byte is in both ranges, each an offset and a width. -/
def NoneShared (first second : Nat × Nat) : Prop :=
  ∀ address, first.1 ≤ address → address < first.1 + first.2 →
    ¬ (second.1 ≤ address ∧ address < second.1 + second.2)

/-- The header, the bitmap, the fence, the user header and the records. -/
def ranges (param : ShmSegParam) (use : SegUsage) : List (Nat × Nat) :=
  (0, hdrBytes) :: (bitmapOff, 4 * (bmapU32cnt use.recCnt).toInt.toNat) :: (fenceOff use, 4) ::
    (use.uhdrOff.toNat, param.shmUhdrSize.toNat) ::
      (records use).map fun record => (record, use.recSiz.toNat)

/-- The ranges are disjoint and inside the segment. -/
structure Laid (param : ShmSegParam) (use : SegUsage) : Prop where
  disjoint : (ranges param use).Pairwise NoneShared
  inside : ∀ range ∈ ranges param use, range.1 + range.2 ≤ param.shmSegSize.toNat

/-- Formatting succeeds, lays out the segment and leaves every record in the free list. -/
def FormatsWell (roundUpAlign : BitVec 32 → BitVec 32 → BitVec 32) (genUuid64 : BitVec 64)
    (mem : Bytes) (param : ShmSegParam) : Prop :=
  ∃ use after, segCalUsage roundUpAlign param = some use ∧
    segInit roundUpAlign genUuid64 mem param = some after ∧ Laid param use ∧
      ∃ elms, IsList after (segSize after) segFreeRec elms ∧ elms.Perm (records use)

/-! ## The free list that is left -/

variable {mem next : Bytes} {bound : BitVec 32} {use : SegUsage}

/-- A record behind the header overlaps no field of it. -/
theorem apart_field {off field width : Nat} (behind : hdrBytes ≤ off)
    (inside : field + width ≤ hdrBytes) :
    Apart off 4 field width := .inr (Nat.le_trans inside behind)

private theorem apart_root_field {field width : Nat} (inside : field + width ≤ segFreeRec) :
    Apart segFreeRec 4 field width := .inr inside

/-- Adding a record behind the header to the free list: where `verify` passes, the root does not
hold `IDX_NIL`, and the record is linked to what the root led to. -/
theorem islAddFront_eq {off : Nat} (behind : hdrBytes ≤ off)
    (added : islAddFront mem bound segFreeRec off = some next) :
    next = stores mem [setNext off (islHead mem segFreeRec), setHead segFreeRec off] ∧
      islHead mem segFreeRec < bound.toNat := by
  unfold islAddFront at added
  by_cases checks : off < bound.toNat ∧ islHead mem segFreeRec < bound.toNat ∧
      islTail mem segFreeRec < bound.toNat
  · have head := checks.2.1
    have tail := checks.2.2
    refine ⟨?_, head⟩
    have kept : islTail (stores mem [setNext off (islHead mem segFreeRec), setHead segFreeRec off])
        segFreeRec = islTail mem segFreeRec :=
      (islTail_setHead (stores mem [setNext off (islHead mem segFreeRec)]) segFreeRec off).trans
        (read_write_of_apart _ (apart_field behind (by decide)))
    rw [if_pos checks, Option.some.injEq, islAddFrontStores, kept, if_neg (ne_idxNil tail)] at added
    exact added.symm
  · rw [if_neg checks] at added
    cases added

private theorem ilNext_added {off : Nat} (behind : hdrBytes ≤ off)
    (added : islAddFront mem bound segFreeRec off = some next) : ilNext next off ≠ idxNil := by
  obtain ⟨rfl, head⟩ := islAddFront_eq behind added
  have linked : ilNext (stores mem [setNext off (islHead mem segFreeRec), setHead segFreeRec off]) off =
      ilNext (stores mem [setNext off (islHead mem segFreeRec)]) off :=
    read_write_of_apart _ (apart_field behind (show segFreeRec + 4 ≤ hdrBytes by decide)).symm
  rw [linked, ilNext_setNext mem (inside_fits head)]
  exact ne_idxNil head

/-- Fields of the header in front of the root, and links of other records, are kept. -/
theorem read_added {off field width : Nat} (behind : hdrBytes ≤ off)
    (apart : Apart off 4 field width) (root : Apart segFreeRec 4 field width)
    (added : islAddFront mem bound segFreeRec off = some next) :
    read next field width = read mem field width := by
  obtain ⟨rfl, -⟩ := islAddFront_eq behind added
  exact (read_write_of_apart _ root).trans (read_write_of_apart _ apart)

/-- The header describes records of this size, of which there are this many. -/
structure Describes (mem : Bytes) (recSiz recCnt : BitVec 32) : Prop where
  size : segRecSize mem = recSiz.toNat
  total : segNtotal mem = recCnt.toNat

theorem Describes.added {recSiz recCnt : BitVec 32} (describes : Describes mem recSiz recCnt)
    {off : Nat}
    (behind : hdrBytes ≤ off) (added : islAddFront mem bound segFreeRec off = some next) :
    Describes next recSiz recCnt where
  size := (read_added behind (apart_field behind (by decide)) (apart_root_field (by decide))
    added).trans describes.size
  total := (read_added behind (apart_field behind (by decide)) (apart_root_field (by decide))
    added).trans describes.total

/-- The loop never puts `IDX_NIL` into a record, and leaves the links apart from its records. -/
theorem ilNext_reinitLoop {recSiz recCnt : BitVec 32} : ∀ {left turns : Nat} {mem after : Bytes}
    {cnt off last : BitVec 32}, Describes mem recSiz recCnt → cnt.toNat + left = recCnt.toNat →
      (∀ record ∈ (Stride.strides recSiz left off).map BitVec.toNat, hdrBytes ≤ record) →
        ((Stride.strides recSiz left off).map BitVec.toNat).Pairwise (Apart · 4 · 4) →
          reinitLoop turns mem cnt off = some (after, last) →
            (∀ record ∈ (Stride.strides recSiz left off).map BitVec.toNat,
              ilNext after record ≠ idxNil) ∧
              ∀ other, hdrBytes ≤ other →
                (∀ record ∈ (Stride.strides recSiz left off).map BitVec.toNat,
                  Apart record 4 other 4) → ilNext after other = ilNext mem other := by
  intro left
  induction left with
  | zero =>
      intro turns mem after cnt off last describes counted _ _ ran
      refine ⟨fun _ none => (List.not_mem_nil none).elim, fun other _ _ => ?_⟩
      cases turns with
      | zero => cases ran
      | succ turns =>
          rw [reinitLoop, describes.total, if_neg (by omega), Option.some.injEq,
            Prod.mk.injEq] at ran
          rw [ran.1]
  | succ left ih =>
      intro turns mem after cnt off last describes counted behind apart ran
      obtain ⟨here, later⟩ := List.forall_mem_cons.mp behind
      obtain ⟨hereApart, laterApart⟩ := List.pairwise_cons.mp apart
      cases turns with
      | zero => cases ran
      | succ turns =>
          rw [reinitLoop, describes.total, if_pos (by omega)] at ran
          obtain ⟨next, added, rest⟩ := Option.bind_eq_some_iff.mp ran
          have still := describes.added here added
          have stride : BitVec.ofNat 32 (segRecSize next) = recSiz := by
            rw [still.size, BitVec.ofNat_toNat, BitVec.setWidth_eq]
          have advanced : (cnt + 1).toNat + left = recCnt.toNat := by
            have bounded := recCnt.isLt
            have one : (1 : BitVec 32).toNat = 1 := rfl
            rw [BitVec.toNat_add, one]
            omega
          rw [stride] at rest
          obtain ⟨linked, others⟩ := ih still advanced later laterApart rest
          constructor
          · refine List.forall_mem_cons.mpr ⟨?_, linked⟩
            rw [others off.toNat here fun record member => (hereApart record member).symm]
            exact ilNext_added here added
          · intro other otherBehind otherApart
            obtain ⟨firstApart, restApart⟩ := List.forall_mem_cons.mp otherApart
            rw [others other otherBehind restApart]
            exact read_added here firstApart (apart_field otherBehind (by decide)).symm added

/-- Disjoint ranges that are not empty follow each other. -/
theorem NoneShared.apart {first second : Nat × Nat} (disjoint : NoneShared first second)
    (some_ : 0 < first.2) (other : 0 < second.2) :
    first.1 + first.2 ≤ second.1 ∨ second.1 + second.2 ≤ first.1 := by
  by_contra overlap
  obtain ⟨before, after⟩ := not_or.mp overlap
  exact disjoint (max first.1 second.1) (by omega) (by omega) ⟨by omega, by omega⟩

/-- In a segment that is laid out, the fence and the records are behind the header. -/
theorem Laid.behind {param : ShmSegParam} (laid : Laid param use) (some_ : 0 < use.recSiz.toNat) :
    hdrBytes ≤ fenceOff use ∧ ∀ record ∈ records use, hdrBytes ≤ record := by
  have disjoint := (List.pairwise_cons.mp laid.disjoint).1
  have fence := (disjoint (fenceOff use, 4) (by simp)).apart (by decide) (Nat.succ_pos 3)
  constructor
  · change 0 + hdrBytes ≤ fenceOff use ∨ fenceOff use + 4 ≤ 0 at fence
    omega
  · intro record member
    have inside : (record, use.recSiz.toNat) ∈
        (records use).map fun record => (record, use.recSiz.toNat) := List.mem_map_of_mem member
    have apart := (disjoint _ (List.mem_cons_of_mem _ (List.mem_cons_of_mem _
      (List.mem_cons_of_mem _ inside)))).apart (by decide) some_
    change 0 + hdrBytes ≤ record ∨ record + use.recSiz.toNat ≤ 0 at apart
    omega

/-- The bitmap is behind the header. -/
theorem read_bmapInit (mem : Bytes) (size : BitVec 32) {field width : Nat}
    (inside : field + width ≤ hdrBytes) :
    read (bmapInit mem bitmapOff size) field width = read mem field width := by
  apply read_stores_of_apart
  intro s member
  obtain ⟨i, -, rfl⟩ := List.mem_map.mp member
  have behind : hdrBytes ≤ bitmapOff := by decide
  exact .inr (Nat.le_trans inside (Nat.le_trans behind (Nat.le_add_right _ _)))

/-- What `seg_cal_usage` stored in the header is there until the records are freed. -/
theorem read_reinitHdr (mem : Bytes) (behind : hdrBytes ≤ fenceOff use) {field : Nat}
    (inside : field + 4 ≤ hdrBytes) (apart : Apart 24 4 field 4 ∧ Apart 48 4 field 4 ∧ Apart 52 4 field 4) :
    read (reinitHdr mem use) field 4 = read (stores mem [⟨32, 4, use.recSiz.toNat⟩,
      ⟨40, 4, use.uhdrOff.toNat⟩, ⟨44, 4, use.recCnt.toNat⟩,
        ⟨24, 4, use.recFlg.toNat⟩]) field 4 := by
  unfold reinitHdr
  dsimp only
  rw [read_stores_of_apart, read_bmapInit _ _ inside]
  · exact read_write_of_apart _ (.inr (Nat.le_trans inside behind))
  · obtain ⟨state, nfree, pending⟩ := apart
    simp only [List.forall_mem_cons, List.not_mem_nil, false_imp_iff, implies_true, and_true]
    exact ⟨state, nfree, pending⟩

/-- The header before the records are freed describes them. -/
theorem describes_reinitHdr (mem : Bytes) (behind : hdrBytes ≤ fenceOff use) :
    Describes (reinitHdr mem use) use.recSiz use.recCnt := by
  constructor
  · refine (read_reinitHdr mem behind (by decide) (by decide)).trans ?_
    rw [stores_cons, read_stores_of_apart, read_write_of_lt mem use.recSiz.isLt]
    simp [Apart]
  · refine (read_reinitHdr mem behind (by decide) (by decide)).trans ?_
    rw [stores_cons, stores_cons, stores_cons, read_stores_of_apart,
      read_write_of_lt _ use.recCnt.isLt]
    simp [Apart]

theorem recSiz_of_ite {fits : Prop} [Decidable fits] {first second : SegUsage} {recSiz : BitVec 32}
    (used : (if fits then some first else some second) = some use) (same : first.recSiz = recSiz)
    (other : second.recSiz = recSiz) : use.recSiz = recSiz := by
  split at used
  · rw [← Option.some.inj used, same]
  · rw [← Option.some.inj used, other]

private theorem recSiz_pos {roundUpAlign : BitVec 32 → BitVec 32 → BitVec 32} {param : ShmSegParam}
    (used : segCalUsage roundUpAlign param = some use) : 0 < use.recSiz.toNat := by
  unfold segCalUsage at used
  dsimp only at used
  by_cases zero : roundUpAlign param.shmRecSize param.shmRecAlignSz = 0
  · rw [if_pos zero] at used
    cases used
  · rw [if_neg zero] at used
    rw [recSiz_of_ite used rfl rfl]
    exact Nat.pos_of_ne_zero fun none => zero (BitVec.eq_of_toNat_eq none)

/-- **Formatting a segment with a record never leaves the free list it should**: the first record
is linked to whatever the root held before, which is not `IDX_NIL`. -/
theorem not_isList_of_segInit {roundUpAlign : BitVec 32 → BitVec 32 → BitVec 32}
    {genUuid64 : BitVec 64}
    {mem after : Bytes} {param : ShmSegParam} {elms : List Nat}
    (used : segCalUsage roundUpAlign param = some use) (several : 0 < use.recCnt.toNat)
    (formatted : segInit roundUpAlign genUuid64 mem param = some after) (laid : Laid param use)
    (listed : elms.Perm (records use)) : ¬ IsList after bound segFreeRec elms := by
  intro list
  obtain ⟨fence, behind⟩ := laid.behind (recSiz_pos used)
  unfold segInit shmSegReinit at formatted
  rw [used, Option.bind_some] at formatted
  split at formatted
  · cases formatted
  · obtain ⟨⟨freed, last⟩, ran, checked⟩ := Option.bind_eq_some_iff.mp formatted
    dsimp only at checked
    split at checked
    · cases checked
      have apart : (records use).Pairwise (Apart · 4 · 4) :=
        (listed.pairwise_iff fun apart => apart.symm).mp list.apart
      have linked := (ilNext_reinitLoop (describes_reinitHdr _ fence)
        (by rw [show (0 : BitVec 32).toNat = 0 from rfl, Nat.zero_add]) behind apart ran).1
      have nonempty : elms ≠ [] := by
        intro none
        have length := listed.length_eq
        rw [none, records, List.length_map, Stride.length_strides] at length
        exact Nat.ne_of_lt several length
      exact linked _ (listed.subset (list.tail_inside nonempty)) (list.tail_next nonempty)
    · cases checked

/-- Where a record fits, formatting never does what it should. -/
theorem not_formatsWell (roundUpAlign : BitVec 32 → BitVec 32 → BitVec 32) (genUuid64 : BitVec 64)
    (mem : Bytes) (param : ShmSegParam)
    (fits : ∀ use, segCalUsage roundUpAlign param = some use → 0 < use.recCnt.toNat) :
    ¬ FormatsWell roundUpAlign genUuid64 mem param := by
  rintro ⟨use, after, used, formatted, laid, elms, list, listed⟩
  exact not_isList_of_segInit used (fits use used) formatted laid listed list

/-- Rounding up to a multiple of the alignment. -/
def roundUp (size align : BitVec 32) : BitVec 32 := (size + align - 1) / align * align

/-- Records of 64 bytes in a segment of 512 bytes, with a user header of 16 bytes. -/
def smallParam : ShmSegParam := ⟨8, 64, 16, 512, 4096⟩

private theorem segCalUsage_smallParam :
    segCalUsage roundUp smallParam = some ⟨7, stateInternRec, 64, 24, 80⟩ := by decide

theorem not_formatsWell_onSmallParam : ¬ FormatsWell roundUp 7 (fun _ => 0) smallParam :=
  not_formatsWell roundUp 7 (fun _ => 0) smallParam fun use used => by
    rw [segCalUsage_smallParam, Option.some.injEq] at used
    rw [← used]
    decide

/-- The seven records are behind the bitmap of four bytes, where the header still is. -/
theorem smallParam_not_laid : ¬ FormatsWell roundUp 7 (fun _ => 0) smallParam := by
  rintro ⟨use, after, used, -, laid, -⟩
  rw [segCalUsage_smallParam, Option.some.injEq] at used
  subst used
  have behind := (laid.behind (by decide)).2 24 (by decide)
  exact absurd behind (by decide)

end ShmSeg

end Tvntd
