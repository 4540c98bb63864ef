import Mathlib.Data.List.Basic
import Mathlib.Tactic.Linarith
import Tvntd.Ctype.ShmSeg

/-! # Bitmaps

The functions of `include/ctype/bitmap.h` and `common/ctype/bmap.c` on an array of
words. `bmap_u32cnt` counts one word more than the size takes where the size is a
multiple of the word, and the count of the free bits goes over whole words: it
also counts the bits behind the size.

`none` is an access outside of the array or a failed `assert`.
-/

namespace Tvntd

namespace Bitmap

open ShmSeg

/-- `U32_IDX_IN_BIT_ARR` -/
def u32IdxInBitArr (x : BitVec 32) : BitVec 32 := x.sshiftRight 5

/-- The number of turns of a loop up to an `int`. -/
def turns (count : BitVec 32) : Nat := count.toInt.toNat

/-- A store to a word of the array. -/
def storeWord (bmap : List (BitVec 32)) (i : Nat) (word : BitVec 32) : Option (List (BitVec 32)) :=
  if i < bmap.length then some (bmap.set i word) else none

/-- `bmap_init` -/
def bmapInit (bmap : List (BitVec 32)) (size : BitVec 32) (clear : Bool) :
    Option (List (BitVec 32)) :=
  let init : BitVec 32 := if clear = false then 0xffffffff else 0
  (List.range (turns (bmapU32cnt size))).foldlM (fun bmap i => storeWord bmap i init) bmap

/-- `bmap_set` -/
def bmapSet (bmap : List (BitVec 32)) (size pos : BitVec 32) : Option (List (BitVec 32)) :=
  if pos.toInt < size.toInt then
    bmap[(u32IdxInBitArr pos).toNat]?.bind fun word =>
      storeWord bmap (u32IdxInBitArr pos).toNat (word ||| bitMaskInU32 pos)
  else none

/-- `bmap_clear` -/
def bmapClear (bmap : List (BitVec 32)) (size pos : BitVec 32) : Option (List (BitVec 32)) :=
  if pos.toInt < size.toInt then
    bmap[(u32IdxInBitArr pos).toNat]?.bind fun word =>
      storeWord bmap (u32IdxInBitArr pos).toNat (word &&& ~~~ bitMaskInU32 pos)
  else none

/-- `bmap_free_bit` -/
def bmapFreeBit (bmap : List (BitVec 32)) (size bitPos : BitVec 32) : Option (List (BitVec 32)) :=
  bmapClear bmap size bitPos

/-- The zero bits of a word, as the inner loop of `bmap_num_free_bits` adds them up. -/
def wordFreeBits (word : BitVec 32) (nfree : Nat) : Nat :=
  (List.range 32).foldl (fun nfree j => if word &&& ((1 : BitVec 32) <<< j) = 0 then nfree + 1
    else nfree) nfree

/-- `bmap_num_free_bits`. The count is an `int`. -/
def bmapNumFreeBits (bmap : List (BitVec 32)) (size : BitVec 32) : Option Int :=
  ((List.range (turns (bmapU32cnt size))).foldlM (fun nfree i =>
    bmap[i]?.map fun word => if word = 0 then nfree + 32 else wordFreeBits word nfree) 0).map
      fun nfree => (BitVec.ofNat 32 nfree).toInt

/-- The operations of a sequence. -/
inductive BmapOp
  | init (clear : Bool)
  | set (pos : BitVec 32)
  | clear (pos : BitVec 32)
  | freeBit (pos : BitVec 32)

def bmapStep (size : BitVec 32) (bmap : List (BitVec 32)) : BmapOp → Option (List (BitVec 32))
  | .init clear => bmapInit bmap size clear
  | .set pos => bmapSet bmap size pos
  | .clear pos => bmapClear bmap size pos
  | .freeBit pos => bmapFreeBit bmap size pos

def bmapRun (size : BitVec 32) (bmap : List (BitVec 32)) (ops : List BmapOp) :
    Option (List (BitVec 32)) := ops.foldlM (bmapStep size) bmap

/-- A position of the bitmap: not negative and below its size. -/
def BmapOp.Below (size : BitVec 32) : BmapOp → Prop
  | .init _ => True
  | .set pos => 0 ≤ pos.toInt ∧ pos.toInt < size.toInt
  | .clear pos => 0 ≤ pos.toInt ∧ pos.toInt < size.toInt
  | .freeBit pos => 0 ≤ pos.toInt ∧ pos.toInt < size.toInt

/-! ## Bits by position -/

/-- The bit at a position. -/
def bitAt (bmap : List (BitVec 32)) (pos : Nat) : Bool :=
  (bmap[pos / 32]?.getD 0).getLsbD (pos % 32)

/-- The number of positions below the bound whose bit is zero. -/
def zerosBelow (bmap : List (BitVec 32)) (bound : Nat) : Nat :=
  (List.range bound).countP fun pos => !bitAt bmap pos

/-- The bits of the array behind the size are all ones. -/
def FilledBehind (bmap : List (BitVec 32)) (size : Nat) : Prop :=
  ∀ pos, size ≤ pos → pos < 32 * bmap.length → bitAt bmap pos = true

/-- Whether the bits behind the size are ones after some operations: as the last initialisation
left them, or as they were in the first place. -/
def filledAfter (before : Prop) : List BmapOp → Prop
  | [] => before
  | .init clear :: rest => filledAfter (clear = false) rest
  | _ :: rest => filledAfter before rest

variable {size pos : BitVec 32} {bmap after : List (BitVec 32)}

private theorem toInt_of_positive (positive : 0 ≤ size.toInt) : size.toInt = size.toNat := by
  rw [BitVec.toInt_eq_toNat_of_msb]
  rw [BitVec.msb_eq_toInt]
  simpa using positive

private theorem u32IdxInBitArr_toNat (positive : 0 ≤ pos.toInt) :
    (u32IdxInBitArr pos).toNat = pos.toNat / 32 := by
  have sign : pos.msb = false := by
    rw [BitVec.msb_eq_toInt]
    simpa using positive
  rw [u32IdxInBitArr, BitVec.sshiftRight_eq_of_msb_false sign, BitVec.toNat_ushiftRight,
    Nat.shiftRight_eq_div_pow]

private theorem bitMaskInU32_getLsbD (x : BitVec 32) (j : Nat) :
    (bitMaskInU32 x).getLsbD j = decide (j = x.toNat % 32) := by
  have index : (x &&& 31).toNat = x.toNat % 32 := by
    rw [BitVec.toNat_and]
    exact Nat.and_two_pow_sub_one_eq_mod x.toNat 5
  rw [bitMaskInU32, index]
  have one : (1 : BitVec 32) <<< (x.toNat % 32) = BitVec.twoPow 32 (x.toNat % 32) := by
    rw [BitVec.twoPow_eq]
    rfl
  have lower : x.toNat % 32 < 32 := Nat.mod_lt _ (by decide)
  rw [one, BitVec.getLsbD_twoPow]
  simp [lower, eq_comm]

/-- The mask is never zero: there is one word more than the size fills. -/
theorem turns_bmapU32cnt (positive : 0 < size.toInt) :
    turns (bmapU32cnt size) = size.toNat / 32 + 1 := by
  have filled : bitMaskInU32 size ≠ 0 := by
    intro zero
    have bit := bitMaskInU32_getLsbD size (size.toNat % 32)
    rw [zero] at bit
    simp at bit
  have whole := u32IdxInBitArr_toNat (Int.le_of_lt positive)
  have bound : size.toNat < 2 ^ 31 := by
    have same := toInt_of_positive (Int.le_of_lt positive)
    have upper := BitVec.toInt_lt (x := size)
    omega
  have counted : (bmapU32cnt size).toNat = size.toNat / 32 + 1 := by
    rw [bmapU32cnt, if_pos filled, BitVec.toNat_add]
    change ((u32IdxInBitArr size).toNat + 1) % 2 ^ 32 = _
    rw [whole]
    omega
  have sign : 0 ≤ (bmapU32cnt size).toInt := by
    rw [BitVec.toInt_eq_toNat_cond, counted]
    split
    · omega
    · omega
  rw [turns, toInt_of_positive sign, counted]
  rfl

/-! ## The operations by position -/

/-- What is at a position when one word is replaced. -/
theorem bitAt_set {i : Nat} (inside : i < bmap.length) (word : BitVec 32) (q : Nat) :
    bitAt (bmap.set i word) q = if q / 32 = i then word.getLsbD (q % 32) else bitAt bmap q := by
  unfold bitAt
  by_cases here : q / 32 = i
  · rw [if_pos here, here, List.getElem?_set_self inside]
    rfl
  · rw [if_neg here, List.getElem?_set_ne (Ne.symm here)]

/-- A word that differs from the old one at a position only. -/
theorem bitAt_put (inside : pos.toNat / 32 < bmap.length) {word : BitVec 32} {value : Bool}
    (put : ∀ j < 32, word.getLsbD j =
      if j = pos.toNat % 32 then value else bmap[pos.toNat / 32].getLsbD j) (q : Nat) :
    bitAt (bmap.set (pos.toNat / 32) word) q = if q = pos.toNat then value else bitAt bmap q := by
  rw [bitAt_set inside]
  by_cases here : q / 32 = pos.toNat / 32
  · have own : bmap[pos.toNat / 32].getLsbD (q % 32) = bitAt bmap q := by
      rw [bitAt, here, List.getElem?_eq_getElem inside, Option.getD_some]
    have place : q % 32 = pos.toNat % 32 ↔ q = pos.toNat := by omega
    rw [if_pos here, put _ (Nat.mod_lt _ (by decide)), own]
    simp only [place]
  · have other : q ≠ pos.toNat := fun same => here (by rw [same])
    rw [if_neg here, if_neg other]

private theorem bmapSet_bits (inside : pos.toNat / 32 < bmap.length) (below : 0 ≤ pos.toInt)
    (inSize : pos.toInt < size.toInt) :
    ∃ after, bmapSet bmap size pos = some after ∧ after.length = bmap.length ∧
      ∀ q, bitAt after q = if q = pos.toNat then true else bitAt bmap q := by
  refine ⟨bmap.set (pos.toNat / 32) (bmap[pos.toNat / 32] ||| bitMaskInU32 pos), ?_,
    List.length_set, bitAt_put inside ?_⟩
  · rw [bmapSet, if_pos inSize, u32IdxInBitArr_toNat below, List.getElem?_eq_getElem inside,
      Option.bind_some, storeWord, if_pos inside]
  · intro j _
    rw [BitVec.getLsbD_or, bitMaskInU32_getLsbD]
    by_cases same : j = pos.toNat % 32
    · simp [same]
    · simp [same]

private theorem bmapClear_bits (inside : pos.toNat / 32 < bmap.length) (below : 0 ≤ pos.toInt)
    (inSize : pos.toInt < size.toInt) :
    ∃ after, bmapClear bmap size pos = some after ∧ after.length = bmap.length ∧
      ∀ q, bitAt after q = if q = pos.toNat then false else bitAt bmap q := by
  refine ⟨bmap.set (pos.toNat / 32) (bmap[pos.toNat / 32] &&& ~~~ bitMaskInU32 pos), ?_,
    List.length_set, bitAt_put inside ?_⟩
  · rw [bmapClear, if_pos inSize, u32IdxInBitArr_toNat below, List.getElem?_eq_getElem inside,
      Option.bind_some, storeWord, if_pos inside]
  · intro j small
    rw [BitVec.getLsbD_and, BitVec.getLsbD_not, bitMaskInU32_getLsbD]
    by_cases same : j = pos.toNat % 32
    · simp [same]
    · simp [same, small]

/-- The words that were filled so far. -/
theorem storeWord_loop (bmap : List (BitVec 32)) (init : BitVec 32) : ∀ count ≤ bmap.length,
    (List.range count).foldlM (fun bmap i => storeWord bmap i init) bmap =
      some (List.replicate count init ++ bmap.drop count) := by
  intro count
  induction count with
  | zero => exact fun _ => rfl
  | succ count ih =>
      intro inside
      have room : count < bmap.length := inside
      rw [List.range_succ, List.foldlM_append, ih (Nat.le_of_lt room)]
      have stored : storeWord (List.replicate count init ++ bmap.drop count) count init =
          some ((List.replicate count init ++ bmap.drop count).set count init) := by
        apply if_pos
        rw [List.length_append, List.length_replicate, List.length_drop]
        omega
      change ([count].foldlM (fun bmap i => storeWord bmap i init)
        (List.replicate count init ++ bmap.drop count)) = _
      rw [List.foldlM_cons, stored]
      change some _ = some _
      rw [List.set_append_right count init (by rw [List.length_replicate]),
        List.length_replicate, Nat.sub_self, List.drop_eq_getElem_cons room, List.set_cons_zero,
        List.replicate_succ', List.append_assoc, List.singleton_append]

theorem bmapInit_bits (positive : 0 < size.toInt) (whole : size.toNat / 32 + 1 = bmap.length)
    (clear : Bool) :
    ∃ after, bmapInit bmap size clear = some after ∧ after.length = bmap.length ∧
      ∀ q < 32 * bmap.length, bitAt after q = !clear := by
  have filled := storeWord_loop bmap (if clear = false then 0xffffffff else 0) bmap.length
    (Nat.le_refl _)
  rw [List.drop_length, List.append_nil] at filled
  refine ⟨List.replicate bmap.length (if clear = false then 0xffffffff else 0), ?_,
    List.length_replicate, ?_⟩
  · rw [bmapInit, turns_bmapU32cnt positive, whole]
    exact filled
  · intro q inside
    have lower : q % 32 < 32 := Nat.mod_lt _ (by decide)
    have word : q / 32 < bmap.length := by omega
    rw [bitAt, List.getElem?_replicate, if_pos word, Option.getD_some]
    cases clear with
    | true => simp
    | false =>
        have ones : (0xffffffff : BitVec 32) = BitVec.allOnes 32 := by decide
        rw [if_pos rfl, ones, BitVec.getLsbD_allOnes]
        simpa using lower

/-! ## Counting -/

private theorem foldl_count (p : Nat → Prop) [DecidablePred p] (list : List Nat) (count : Nat) :
    list.foldl (fun count j => if p j then count + 1 else count) count =
      count + list.countP fun j => decide (p j) := by
  induction list generalizing count with
  | nil => rfl
  | cons j rest ih =>
      rw [List.foldl_cons, ih, List.countP_cons]
      by_cases holds : p j
      · simp only [holds, if_true, decide_true]
        omega
      · simp [holds]

private theorem and_shift_eq_zero (word : BitVec 32) {j : Nat} (inside : j < 32) :
    word &&& ((1 : BitVec 32) <<< j) = 0 ↔ word.getLsbD j = false := by
  have mask : (1 : BitVec 32) <<< j = BitVec.twoPow 32 j := by
    rw [BitVec.twoPow_eq]
    rfl
  have nonzero : BitVec.twoPow 32 j ≠ 0 := by
    intro zero
    have selected := congrArg (fun bits => bits.getLsbD j) zero
    simp [inside] at selected
  rw [mask, BitVec.and_twoPow]
  cases present : word.getLsbD j with
  | false => simp
  | true => simpa using nonzero

private theorem wordFreeBits_eq (word : BitVec 32) (nfree : Nat) :
    wordFreeBits word nfree = nfree + (List.range 32).countP fun j => !word.getLsbD j := by
  rw [wordFreeBits, foldl_count]
  congr 1
  apply List.countP_congr
  intro j member
  rw [decide_eq_true_eq, and_shift_eq_zero word (List.mem_range.mp member)]
  simp

/-- The zero word is no exception: all of its bits are free. -/
theorem zeroWord_free : (List.range 32).countP (fun j => !(0 : BitVec 32).getLsbD j) = 32 := by
  decide

private theorem zerosBelow_add (bmap : List (BitVec 32)) (bound more : Nat) :
    zerosBelow bmap (bound + more) = zerosBelow bmap bound +
      (List.range more).countP fun j => !bitAt bmap (bound + j) := by
  rw [zerosBelow, List.range_add, List.countP_append, List.countP_map]
  rfl

/-- The zeros of one word more. -/
theorem zerosBelow_word (bmap : List (BitVec 32)) (i : Nat) :
    zerosBelow bmap (32 * (i + 1)) = zerosBelow bmap (32 * i) +
      (List.range 32).countP fun j => !(bmap[i]?.getD 0).getLsbD j := by
  rw [Nat.mul_succ, zerosBelow_add]
  congr 1
  apply List.countP_congr
  intro j member
  have lower := List.mem_range.mp member
  have word : (32 * i + j) / 32 = i := by omega
  have bit : (32 * i + j) % 32 = j := by omega
  rw [bitAt, word, bit]

/-- The loop over words that are all there counts the zeros of these words. -/
theorem numFreeBits_loop (bmap : List (BitVec 32)) : ∀ count ≤ bmap.length,
    (List.range count).foldlM (fun nfree i => bmap[i]?.map fun word =>
      if word = 0 then nfree + 32 else wordFreeBits word nfree) 0 =
        some (zerosBelow bmap (32 * count)) := by
  intro count
  induction count with
  | zero => exact fun _ => rfl
  | succ count ih =>
      intro inside
      have room : count < bmap.length := inside
      rw [List.range_succ, List.foldlM_append, ih (Nat.le_of_lt room), zerosBelow_word]
      simp only [Option.bind_eq_bind, Option.bind_some, List.foldlM_cons, List.foldlM_nil,
        List.getElem?_eq_getElem room, Option.map_some, Option.getD_some, Option.pure_def,
        Option.some.injEq]
      split
      · next zero => rw [zero, zeroWord_free]
      · exact wordFreeBits_eq _ _

/-- The loop goes wrong at a word behind the array. -/
theorem numFreeBits_outside (bmap : List (BitVec 32)) :
    (List.range (bmap.length + 1)).foldlM (fun nfree i => bmap[i]?.map fun word =>
      if word = 0 then nfree + 32 else wordFreeBits word nfree) 0 = none := by
  rw [List.range_succ, List.foldlM_append, numFreeBits_loop bmap _ (Nat.le_refl _)]
  simp

/-- The zeros behind a bound are counted too. -/
theorem zerosBelow_eq_iff (bmap : List (BitVec 32)) {bound more : Nat}
    (whole : bound + more = 32 * bmap.length) :
    zerosBelow bmap (bound + more) = zerosBelow bmap bound ↔ FilledBehind bmap bound := by
  rw [zerosBelow_add, Nat.add_eq_left, List.countP_eq_zero]
  constructor
  · intro none pos behind inside
    have ones := none (pos - bound) (List.mem_range.mpr (by omega))
    rw [Nat.add_sub_cancel' behind] at ones
    simpa using ones
  · intro filled j member
    have inside := List.mem_range.mp member
    have ones := filled (bound + j) (by omega) (by omega)
    simp [ones]

/-- The count is right where the array has a word for the bits behind the size, and they are all
ones. -/
theorem bmapNumFreeBits_iff (positive : 0 < size.toInt)
    (words : bmap.length = (size.toNat + 31) / 32) :
    bmapNumFreeBits bmap size = some (zerosBelow bmap size.toNat : Int) ↔
      size.toNat % 32 ≠ 0 ∧ FilledBehind bmap size.toNat := by
  have bound : size.toNat < 2 ^ 31 := by
    have same := toInt_of_positive (Int.le_of_lt positive)
    have upper := BitVec.toInt_lt (x := size)
    omega
  rw [bmapNumFreeBits, turns_bmapU32cnt positive]
  by_cases full : size.toNat % 32 = 0
  · have outside : size.toNat / 32 + 1 = bmap.length + 1 := by omega
    rw [outside, numFreeBits_outside]
    simp [full]
  · obtain ⟨more, whole⟩ : ∃ more, size.toNat + more = 32 * bmap.length :=
      ⟨32 * bmap.length - size.toNat, by omega⟩
    have inside : size.toNat / 32 + 1 = bmap.length := by omega
    rw [inside, numFreeBits_loop bmap _ (Nat.le_refl _), ← whole, Option.map_some,
      Option.some.injEq, ← zerosBelow_eq_iff bmap whole]
    -- at most 31 bits are counted too many, so the count wraps for none of them
    have few : zerosBelow bmap size.toNat ≤ size.toNat := by
      have counted := @List.countP_le_length _ (fun pos => !bitAt bmap pos) (List.range size.toNat)
      rwa [List.length_range] at counted
    have more_le : zerosBelow bmap (size.toNat + more) ≤ zerosBelow bmap size.toNat + more := by
      have counted := @List.countP_le_length _ (fun j => !bitAt bmap (size.toNat + j))
        (List.range more)
      rw [List.length_range] at counted
      rw [zerosBelow_add]
      omega
    rw [BitVec.toInt_eq_toNat_cond, BitVec.toNat_ofNat, Nat.mod_eq_of_lt (by omega)]
    split
    · simp [full]
    · omega

/-! ## Sequences of operations -/

private theorem storeWord_length {i : Nat} {word : BitVec 32}
    (stored : storeWord bmap i word = some after) : after.length = bmap.length := by
  unfold storeWord at stored
  split at stored
  · cases stored
    exact List.length_set
  · cases stored

private theorem bmapInit_length {clear : Bool} (filled : bmapInit bmap size clear = some after) :
    after.length = bmap.length := by
  have keeps : ∀ (is : List Nat) (bmap : List (BitVec 32)),
      is.foldlM (fun bmap i => storeWord bmap i (if clear = false then 0xffffffff else 0)) bmap =
        some after → after.length = bmap.length := by
    intro is
    induction is with
    | nil =>
        intro bmap done
        cases done
        rfl
    | cons i is ih =>
        intro bmap went
        rw [List.foldlM_cons, Option.bind_eq_bind, Option.bind_eq_some_iff] at went
        obtain ⟨next, stored, later⟩ := went
        rw [ih next later, storeWord_length stored]
  exact keeps _ bmap filled

/-- No operation changes the number of words. -/
theorem bmapStep_length {op : BmapOp} (stepped : bmapStep size bmap op = some after) :
    after.length = bmap.length := by
  have cleared : ∀ pos, bmapClear bmap size pos = some after → after.length = bmap.length := by
    intro pos done
    unfold bmapClear at done
    split at done
    · obtain ⟨word, -, stored⟩ := Option.bind_eq_some_iff.mp done
      exact storeWord_length stored
    · cases done
  cases op with
  | init clear => exact bmapInit_length stepped
  | set pos =>
      change bmapSet bmap size pos = some after at stepped
      unfold bmapSet at stepped
      split at stepped
      · obtain ⟨word, -, stored⟩ := Option.bind_eq_some_iff.mp stepped
        exact storeWord_length stored
      · cases stepped
  | clear pos => exact cleared pos stepped
  | freeBit pos => exact cleared pos stepped

private theorem bmapRun_length {ops : List BmapOp} (ran : bmapRun size bmap ops = some after) :
    after.length = bmap.length := by
  induction ops generalizing bmap with
  | nil =>
      cases ran
      rfl
  | cons op rest ih =>
      rw [bmapRun, List.foldlM_cons, Option.bind_eq_bind, Option.bind_eq_some_iff] at ran
      obtain ⟨next, stepped, later⟩ := ran
      rw [ih later, bmapStep_length stepped]

private theorem filledAfter_cons (before : Prop) (op : BmapOp) (rest : List BmapOp) :
    filledAfter before (op :: rest) = filledAfter (filledAfter before [op]) rest := by
  cases op with
  | init clear => rfl
  | set pos => rfl
  | clear pos => rfl
  | freeBit pos => rfl

private theorem filledBehind_congr {bound : Nat} (length : after.length = bmap.length)
    (same : ∀ q, bound ≤ q → bitAt after q = bitAt bmap q) :
    FilledBehind after bound ↔ FilledBehind bmap bound := by
  constructor
  · intro filled q behind inside
    rw [← same q behind]
    exact filled q behind (length ▸ inside)
  · intro filled q behind inside
    rw [same q behind]
    exact filled q behind (length ▸ inside)

/-- With a word for the bits behind the size no operation leaves the array, and only an
initialisation changes these bits. -/
theorem bmapStep_filled (positive : 0 < size.toInt) (partly : size.toNat % 32 ≠ 0)
    (words : bmap.length = (size.toNat + 31) / 32) (op : BmapOp) (below : op.Below size) :
    ∃ after, bmapStep size bmap op = some after ∧
      (FilledBehind after size.toNat ↔ filledAfter (FilledBehind bmap size.toNat) [op]) := by
  have nonneg := toInt_of_positive (Int.le_of_lt positive)
  have room : ∀ {pos : BitVec 32}, 0 ≤ pos.toInt → pos.toInt < size.toInt →
      pos.toNat < size.toNat ∧ pos.toNat / 32 < bmap.length := by
    intro pos lower upper
    have same := toInt_of_positive lower
    omega
  have cleared : ∀ pos : BitVec 32, 0 ≤ pos.toInt → pos.toInt < size.toInt →
      ∃ after, bmapClear bmap size pos = some after ∧
        (FilledBehind after size.toNat ↔ FilledBehind bmap size.toNat) := by
    intro pos lower upper
    obtain ⟨inSize, inside⟩ := room lower upper
    obtain ⟨after, done, length, bits⟩ := bmapClear_bits inside lower upper
    refine ⟨after, done, filledBehind_congr length fun q behind => ?_⟩
    rw [bits, if_neg (by omega)]
  cases op with
  | init clear =>
      have whole : size.toNat / 32 + 1 = bmap.length := by omega
      obtain ⟨after, done, length, bits⟩ := bmapInit_bits positive whole clear
      refine ⟨after, done, ?_⟩
      change _ ↔ clear = false
      constructor
      · intro filled
        have bit := filled size.toNat (Nat.le_refl _) (by omega)
        rw [bits size.toNat (by omega)] at bit
        simpa using bit
      · rintro rfl q - inside
        exact bits q (length ▸ inside)
  | set pos =>
      obtain ⟨inSize, inside⟩ := room below.1 below.2
      obtain ⟨after, done, length, bits⟩ := bmapSet_bits inside below.1 below.2
      refine ⟨after, done, filledBehind_congr length fun q behind => ?_⟩
      rw [bits, if_neg (by omega)]
  | clear pos => exact cleared pos below.1 below.2
  | freeBit pos => exact cleared pos below.1 below.2

theorem filledAfter_congr {before other : Prop} (same : before ↔ other) (ops : List BmapOp) :
    filledAfter before ops ↔ filledAfter other ops := by rw [propext same]

private theorem bmapRun_filled (positive : 0 < size.toInt) (partly : size.toNat % 32 ≠ 0)
    {ops : List BmapOp} (below : ∀ op ∈ ops, op.Below size)
    (words : bmap.length = (size.toNat + 31) / 32) :
    ∃ after, bmapRun size bmap ops = some after ∧
      (FilledBehind after size.toNat ↔ filledAfter (FilledBehind bmap size.toNat) ops) := by
  induction ops generalizing bmap with
  | nil => exact ⟨bmap, rfl, Iff.rfl⟩
  | cons op rest ih =>
      obtain ⟨next, stepped, here⟩ :=
        bmapStep_filled positive partly words op (below op List.mem_cons_self)
      obtain ⟨after, ran, later⟩ := ih (fun other member =>
        below other (List.mem_cons_of_mem _ member)) ((bmapStep_length stepped).trans words)
      refine ⟨after, ?_, ?_⟩
      · rw [bmapRun, List.foldlM_cons, stepped]
        exact ran
      · rw [later, filledAfter_cons]
        exact filledAfter_congr here rest

/-- **Bitmaps.** A sequence of operations stays inside the array and the free bits below the size
are counted, exactly where the size is no multiple of the word and the bits behind it are ones:
the last initialisation filled them, or they were ones and there was none. -/
theorem bitmap_right_iff (positive : 0 < size.toInt)
    (words : bmap.length = (size.toNat + 31) / 32) (ops : List BmapOp)
    (below : ∀ op ∈ ops, op.Below size) :
    (∃ after, bmapRun size bmap ops = some after ∧
      bmapNumFreeBits after size = some (zerosBelow after size.toNat : Int)) ↔
        size.toNat % 32 ≠ 0 ∧ filledAfter (FilledBehind bmap size.toNat) ops := by
  constructor
  · rintro ⟨after, ran, counted⟩
    have length := (bmapRun_length ran).trans words
    obtain ⟨partly, filled⟩ := (bmapNumFreeBits_iff positive length).mp counted
    obtain ⟨final, again, iff⟩ := bmapRun_filled positive partly below words
    rw [ran] at again
    cases again
    exact ⟨partly, iff.mp filled⟩
  · rintro ⟨partly, filled⟩
    obtain ⟨after, ran, iff⟩ := bmapRun_filled positive partly below words
    have length := (bmapRun_length ran).trans words
    exact ⟨after, ran, (bmapNumFreeBits_iff positive length).mpr ⟨partly, iff.mpr filled⟩⟩

/-- One word of zeros. The count for a size of 32 reads a second word, and the one for a size of 1
counts all bits of the word. -/
theorem bmapNumFreeBits_wrong :
    (¬ ∃ after, bmapRun 32 [0] [] = some after ∧
      bmapNumFreeBits after 32 = some (zerosBelow after 32 : Int)) ∧
    ¬ ∃ after, bmapRun 1 [0] [] = some after ∧
      bmapNumFreeBits after 1 = some (zerosBelow after 1 : Int) := by
  refine ⟨?_, ?_⟩
  · rintro ⟨after, ran, counted⟩
    cases ran
    exact absurd counted (by decide)
  · rintro ⟨after, ran, counted⟩
    cases ran
    exact absurd counted (by decide)

theorem bitmap_right_thirtyThree :
    ∃ after, bmapRun 33 [0, 0] [.init false, .clear 0, .freeBit 32] = some after ∧
      bmapNumFreeBits after 33 = some (zerosBelow after 33 : Int) := by
  have below : ∀ op ∈ [BmapOp.init false, .clear 0, .freeBit 32], op.Below 33 := by
    intro op member
    rcases List.mem_cons.mp member with rfl | member
    · trivial
    rcases List.mem_cons.mp member with rfl | member
    · exact ⟨by decide, by decide⟩
    rw [List.mem_singleton.mp member]
    exact ⟨by decide, by decide⟩
  exact (bitmap_right_iff (by decide) rfl _ below).mpr ⟨by decide, rfl⟩

end Bitmap

end Tvntd
