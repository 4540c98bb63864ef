import Mathlib.Data.List.Basic
import Mathlib.Tactic.Common
import Mathlib.Algebra.Group.Nat.Defs
import Mathlib.Algebra.Group.Int.Defs

/-! # Putting a file into the object store

A stream is copied to a temporary file and to a digest until a read returns what
is left of the limit. The digest names the object, and the temporary file takes
its place in the store unless an object of that name is there. At the end of the
stream a read returns a negative length, which the file refuses to write.
-/

namespace Tvntd.ObjStore

abbrev Bytes := List (BitVec 8)

/-! ## Names of objects -/

abbrev Digest := Fin 20 → BitVec 8

structure ObjectId where
  w1 : BitVec 32
  w2 : BitVec 32
  w3 : BitVec 32
  w4 : BitVec 32
  w5 : BitVec 32
deriving DecidableEq

/-- The first byte is taken with its sign, which the shifts push out of the word. -/
def decodeInt32 (intbuf : Digest) (offset : Fin 20) : BitVec 32 :=
  let r := (intbuf offset).signExtend 32 <<< 8
  let r := r ||| (intbuf (offset + 1)).setWidth 32
  let r := r <<< 8
  let r := r ||| (intbuf (offset + 2)).setWidth 32
  (r <<< 8) ||| (intbuf (offset + 3)).setWidth 32

def ObjectId.fromRaw (bs : Digest) : ObjectId where
  w1 := decodeInt32 bs 0
  w2 := decodeInt32 bs 4
  w3 := decodeInt32 bs 8
  w4 := decodeInt32 bs 12
  w5 := decodeInt32 bs 16

def encodeInt32 (v : BitVec 32) : List (BitVec 8) :=
  [(v >>> 24).setWidth 8, (v >>> 16).setWidth 8, (v >>> 8).setWidth 8, v.setWidth 8]

def ObjectId.toRaw (oid : ObjectId) : List (BitVec 8) :=
  encodeInt32 oid.w1 ++ encodeInt32 oid.w2 ++ encodeInt32 oid.w3 ++ encodeInt32 oid.w4 ++
    encodeInt32 oid.w5

private theorem encodeInt32_decodeInt32 (intbuf : Digest) (offset : Fin 20) :
    encodeInt32 (decodeInt32 intbuf offset) =
      [intbuf offset, intbuf (offset + 1), intbuf (offset + 2), intbuf (offset + 3)] := by
  simp only [encodeInt32, decodeInt32, List.cons.injEq, and_true]
  refine ⟨?first, ?second, ?third, ?fourth⟩
  case fourth =>
    ext i small
    simp
  all_goals
    ext i small
    simp [small]
    grind

private theorem toRaw_fromRaw (bs : Digest) : (ObjectId.fromRaw bs).toRaw = List.ofFn bs := by
  simp [ObjectId.toRaw, ObjectId.fromRaw, encodeInt32_decodeInt32, List.ofFn_succ]

/-! ## Paths of objects -/

abbrev Path := List String

def hexbyte (digit : BitVec 4) : Char :=
  if digit.toNat < 10 then Char.ofNat ('0'.toNat + digit.toNat)
  else Char.ofNat ('a'.toNat + (digit.toNat - 10))

/-- The last `o` digits, padded with zeros once nothing is left of the word. -/
def formatHexByte : Nat → BitVec 32 → List Char
  | 0, _ => []
  | o + 1, w =>
      if w = 0 then List.replicate (o + 1) '0'
      else formatHexByte o (w >>> 4) ++ [hexbyte (w.setWidth 4)]

def ObjectId.toHexByteArray (oid : ObjectId) : List Char :=
  formatHexByte 8 oid.w1 ++ formatHexByte 8 oid.w2 ++ formatHexByte 8 oid.w3 ++
    formatHexByte 8 oid.w4 ++ formatHexByte 8 oid.w5

def toPathLoop (dirHexChar : Nat) : Nat → Path → List Char → Path
  | 0, base, hex => base ++ [String.ofList hex]
  | dirLevel + 1, base, hex =>
      toPathLoop dirHexChar dirLevel (base ++ [String.ofList (hex.take dirHexChar)])
        (hex.drop dirHexChar)

def ObjectId.toPath (oid : ObjectId) (base : Path) (dirLevel dirHexChar : Nat) : Path :=
  toPathLoop dirHexChar dirLevel base oid.toHexByteArray

example : ObjectId.toPath ⟨0xa9993e36, 0x4706816a, 0xba3e2571, 0x7850c26c, 0x9cd0d89d⟩
    ["obj"] 2 2 = ["obj", "a9", "99", "3e364706816aba3e25717850c26c9cd0d89d"] := by
  decide +kernel

/-! ## Copying -/

/-- What one read returns: at least a byte, and no more than an array holds. -/
structure Chunk where
  bytes : Bytes
  nonempty : bytes ≠ []
  fits : bytes.length < 2 ^ 31

abbrev InputStream := List Chunk

def content (stream : InputStream) : Bytes := stream.flatMap Chunk.bytes

/-- What the temporary file holds and what the digest was fed. -/
structure Copy where
  fos : Bytes
  md : Bytes
deriving DecidableEq

/-- The loop ends normally, or by an exception that leaves the temporary file. At the end of the
stream `read` returns -1, which `write` rejects before the loop looks at it. -/
def copyLoop (limit : BitVec 32) (copy : Copy) : InputStream → Except Copy Copy
  | [] => .error copy
  | chunk :: rest =>
      let len := BitVec.ofNat 32 chunk.bytes.length
      let copy : Copy := ⟨copy.fos ++ chunk.bytes, copy.md ++ chunk.bytes⟩
      if len = limit ∨ len.slt 0 then .ok copy else copyLoop (limit - len) copy rest

/-- The objects, the temporary files and whether a file can be renamed to a path. -/
structure Disk where
  file : Path → Option Bytes
  temp : List Bytes
  renames : Path → Bool

inductive Exn where
  | indexOutOfBounds
deriving DecidableEq

def oidDirLevels : Nat := 2

def oidDirHexChars : Nat := 2

/-- The digest is that of everything the algorithm was fed. A null result is `none`. -/
def putFile (sha1 : Bytes → Digest) (base : Path) (stream : InputStream) (limit : BitVec 32)
    (disk : Disk) : Except Exn (Option ObjectId) × Disk :=
  match copyLoop limit ⟨[], []⟩ stream with
  | .error copy => (.error .indexOutOfBounds, { disk with temp := copy.fos :: disk.temp })
  | .ok copy =>
      let oid := ObjectId.fromRaw (sha1 copy.md)
      let saved := oid.toPath base oidDirLevels oidDirHexChars
      if disk.file saved = none then
        if disk.renames saved then
          (.ok (some oid), { disk with
            file := fun path => if path = saved then some copy.fos else disk.file path })
        else (.ok none, disk)
      else (.ok (some oid), disk)

/-! ## Where the loop ends -/

private theorem Chunk.length_pos (chunk : Chunk) : 0 < chunk.bytes.length :=
  List.length_pos_of_ne_nil chunk.nonempty

private theorem Chunk.toInt_length (chunk : Chunk) :
    (BitVec.ofNat 32 chunk.bytes.length).toInt = chunk.bytes.length := by
  have fits := chunk.fits
  have toNat : (BitVec.ofNat 32 chunk.bytes.length).toNat = chunk.bytes.length :=
    Nat.mod_eq_of_lt (by omega)
  rw [BitVec.toInt_eq_toNat_of_lt (by omega), toNat]

theorem Chunk.not_slt (chunk : Chunk) : (BitVec.ofNat 32 chunk.bytes.length).slt 0 = false := by
  rw [BitVec.slt, chunk.toInt_length]
  simp

private theorem content_cons (chunk : Chunk) (rest : InputStream) :
    content (chunk :: rest) = chunk.bytes ++ content rest := rfl

/-- The loop ends behind a chunk, with all that was read until then; the limit was reached or
missed by a multiple of the range of `int`. -/
theorem of_copyLoop_eq_ok {stream : InputStream} : ∀ {limit : BitVec 32} {copy done : Copy},
    copyLoop limit copy stream = .ok done →
      ∃ front rest, stream = front ++ rest ∧ front ≠ [] ∧
        limit = BitVec.ofNat 32 (content front).length ∧
          done = ⟨copy.fos ++ content front, copy.md ++ content front⟩ := by
  induction stream with
  | nil =>
      intro limit copy done ran
      cases ran
  | cons chunk stream ih =>
      intro limit copy done ran
      simp only [copyLoop, chunk.not_slt, Bool.false_eq_true, or_false] at ran
      split at ran
      case isTrue reached =>
        cases ran
        refine ⟨[chunk], stream, rfl, List.cons_ne_nil _ _, ?_, ?_⟩
        · simp [content, ← reached]
        · simp [content]
      case isFalse =>
        obtain ⟨front, rest, rfl, -, left, rfl⟩ := ih ran
        refine ⟨chunk :: front, rest, rfl, List.cons_ne_nil _ _, ?_, ?_⟩
        · have whole : limit = limit - BitVec.ofNat 32 chunk.bytes.length +
              BitVec.ofNat 32 chunk.bytes.length := (BitVec.sub_add_cancel _ _).symm
          rw [whole, left, content_cons, List.length_append, ← BitVec.ofNat_add, Nat.add_comm]
        · simp [content_cons]

/-- Where the chunks come out at the limit the loop ends there. -/
theorem copyLoop_of_front {front : InputStream} (rest : InputStream) :
    ∀ {limit : BitVec 32} (copy : Copy), front ≠ [] →
      limit.toInt = (content front).length →
        copyLoop limit copy (front ++ rest) =
          .ok ⟨copy.fos ++ content front, copy.md ++ content front⟩ := by
  induction front with
  | nil =>
      intro limit copy some
      exact absurd rfl some
  | cons chunk front ih =>
      intro limit copy _ reached
      have small := limit.toInt_lt
      have length := chunk.toInt_length
      rw [content_cons, List.length_append] at reached
      simp only [List.cons_append, copyLoop, chunk.not_slt, Bool.false_eq_true, or_false]
      cases front with
      | nil =>
          have same : BitVec.ofNat 32 chunk.bytes.length = limit := by
            apply BitVec.eq_of_toInt_eq
            rw [length, reached]
            simp [content]
          rw [if_pos same]
          simp [content]
      | cons second front =>
          have more := second.length_pos
          rw [content_cons, List.length_append] at reached
          have apart : BitVec.ofNat 32 chunk.bytes.length ≠ limit := by
            intro same
            rw [same] at length
            omega
          have left : (limit - BitVec.ofNat 32 chunk.bytes.length).toInt =
              (content (second :: front)).length := by
            rw [BitVec.toInt_sub, length, reached, content_cons, List.length_append]
            rw [Int.bmod_eq_of_le] <;> omega
          rw [if_neg apart, ih _ (List.cons_ne_nil _ _) left]
          simp [content_cons]

/-! ## What is stored -/

/-- The first bytes of the stream, up to the limit. -/
def firstBytes (stream : InputStream) (limit : BitVec 32) : Bytes :=
  (content stream).take limit.toInt.toNat

/-- Exactly the first bytes are written and hashed, their digest is returned, and the object of
that name holds them. -/
structure PutsFirst (sha1 : Bytes → Digest) (base : Path) (stream : InputStream)
    (limit : BitVec 32) (disk : Disk) : Prop where
  copied : copyLoop limit ⟨[], []⟩ stream =
    .ok ⟨firstBytes stream limit, firstBytes stream limit⟩
  returned : ∃ oid : ObjectId, (putFile sha1 base stream limit disk).1 = .ok (some oid) ∧
    oid.toRaw = List.ofFn (sha1 (firstBytes stream limit)) ∧
      (putFile sha1 base stream limit disk).2.file
        (oid.toPath base oidDirLevels oidDirHexChars) = some (firstBytes stream limit)

/-- Some reads together return exactly as many bytes as the limit, which is positive. -/
def ComesOut (stream : InputStream) (limit : BitVec 32) : Prop :=
  ∃ front rest, stream = front ++ rest ∧ 0 < limit.toInt ∧
    limit.toInt = (content front).length

/-- The path can take the bytes, or holds them already. -/
def Takes (disk : Disk) (path : Path) (bytes : Bytes) : Prop :=
  disk.file path = some bytes ∨ (disk.file path = none ∧ disk.renames path = true)

private theorem firstBytes_of_front {front rest : InputStream} {limit : BitVec 32}
    (reached : limit.toInt = (content front).length) :
    firstBytes (front ++ rest) limit = content front := by
  have parts : content (front ++ rest) = content front ++ content rest := List.flatMap_append
  rw [firstBytes, reached, Int.toNat_natCast, parts, List.take_left]

private theorem comesOut_of_copied {stream : InputStream} {limit : BitVec 32}
    (copied : copyLoop limit ⟨[], []⟩ stream =
      .ok ⟨firstBytes stream limit, firstBytes stream limit⟩) : ComesOut stream limit := by
  obtain ⟨front, rest, rfl, some, limits, done⟩ := of_copyLoop_eq_ok copied
  have first : firstBytes (front ++ rest) limit = content front := (Copy.mk.inj done).1
  obtain ⟨chunk, later, rfl⟩ := List.exists_cons_of_ne_nil some
  have positive : 0 < (content (chunk :: later)).length := by
    have more := chunk.length_pos
    rw [content_cons, List.length_append]
    omega
  have within : (content (chunk :: later)).length ≤ limit.toInt.toNat := by
    rw [← first, firstBytes]
    exact List.length_take_le _ _
  have small := limit.toInt_lt
  refine ⟨chunk :: later, rest, rfl, by omega, ?_⟩
  -- the bytes read are at most the limit, so that no multiple of the range lies between them
  have toNat : limit.toNat = (content (chunk :: later)).length := by
    rw [limits]
    exact Nat.mod_eq_of_lt (by omega)
  rw [BitVec.toInt_eq_toNat_of_lt (by omega), toNat]

private theorem copied_of_comesOut {stream : InputStream} {limit : BitVec 32}
    (comesOut : ComesOut stream limit) :
    copyLoop limit ⟨[], []⟩ stream = .ok ⟨firstBytes stream limit, firstBytes stream limit⟩ := by
  obtain ⟨front, rest, rfl, positive, reached⟩ := comesOut
  have some : front ≠ [] := by
    rintro rfl
    rw [reached] at positive
    exact absurd positive (by decide)
  rw [copyLoop_of_front rest _ some reached, firstBytes_of_front reached]
  rfl

/-- **The store.** The first bytes are stored and named exactly where some reads come out at the
limit and the path of their digest can take them. -/
theorem putFile_putsFirst_iff (sha1 : Bytes → Digest) (base : Path) (stream : InputStream)
    (limit : BitVec 32) (disk : Disk) :
    PutsFirst sha1 base stream limit disk ↔
      ComesOut stream limit ∧
        Takes disk ((ObjectId.fromRaw (sha1 (firstBytes stream limit))).toPath base
          oidDirLevels oidDirHexChars) (firstBytes stream limit) := by
  constructor
  · rintro ⟨copied, oid, returned, -, held⟩
    refine ⟨comesOut_of_copied copied, ?_⟩
    rw [putFile, copied] at returned held
    dsimp only at returned held
    split at returned
    case isTrue absent =>
      split at returned
      case isTrue renames => exact Or.inr ⟨absent, renames⟩
      case isFalse => cases returned
    case isFalse present =>
      cases returned
      rw [if_neg present] at held
      exact Or.inl held
  · rintro ⟨comesOut, takes⟩
    have copied := copied_of_comesOut comesOut
    refine ⟨copied, ObjectId.fromRaw (sha1 (firstBytes stream limit)), ?_, toRaw_fromRaw _, ?_⟩
    · rcases takes with held | ⟨absent, renames⟩
      · simp [putFile, copied, held]
      · simp [putFile, copied, absent, renames]
    · rcases takes with held | ⟨absent, renames⟩
      · simp [putFile, copied, held]
      · simp [putFile, copied, absent, renames]

/-- A stream that ends before the limit, and a read that goes beyond it, end in an exception. -/
theorem exists_putFile_not_putsFirst :
    ∃ (stream : InputStream) (disk : Disk), disk = ⟨fun _ => none, [], fun _ => true⟩ ∧
      content stream = [0x61, 0x62, 0x63] ∧
        ∀ sha1 : Bytes → Digest,
          (putFile sha1 [] stream 4 disk).1 = .error .indexOutOfBounds ∧
            ¬ PutsFirst sha1 [] stream 4 disk ∧
          (putFile sha1 [] stream 2 disk).1 = .error .indexOutOfBounds ∧
            ¬ PutsFirst sha1 [] stream 2 disk := by
  refine ⟨[⟨[0x61, 0x62, 0x63], List.cons_ne_nil _ _, by decide⟩], _, rfl, rfl, fun sha1 => ?_⟩
  refine ⟨rfl, fun puts => ?_, rfl, fun puts => ?_⟩
  · obtain ⟨oid, returned, -⟩ := puts.returned
    cases returned
  · obtain ⟨oid, returned, -⟩ := puts.returned
    cases returned

end Tvntd.ObjStore
