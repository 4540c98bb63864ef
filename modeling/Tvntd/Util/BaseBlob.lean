import Mathlib.Data.List.Forall2
import Tvntd.Lib.Proto3
import Tvntd.Lib.Words

/-! # Numbers as strings of bytes

`BaseBlob` keeps its bytes in the message `bit::Blob`. The operators that go over
the bytes do so in words of four and leave out what is left of a string whose
length is no multiple of four. The comparisons take the length of the message for
the length of the string.
-/

namespace Tvntd

open Proto3 Words

/-- `bit::Blob` -/
structure Blob where
  byte : BitVec 32
  blob : Bytes
deriving DecidableEq

namespace Blob

/-- A negative number is written as one of 64 bits. -/
def serialize (self : Blob) : Bytes :=
  scalar 1 (self.byte.signExtend 64).toNat ++ string 2 self.blob

/-- What is read, and whether the message ends there. -/
def parse (message : Bytes) : Blob × Bool :=
  match getScalar 1 message with
  | none => (⟨0, []⟩, false)
  | some (byte, message) =>
      match getPayload 2 message with
      | none => (⟨BitVec.ofNat 32 byte, []⟩, false)
      | some (blob, message) => (⟨BitVec.ofNat 32 byte, blob⟩, message = [])

/-- `ByteSize` -/
def byteSize (self : Blob) : Nat := self.serialize.length

theorem setWidth_signExtend (byte : BitVec 32) : (byte.signExtend 64).setWidth 32 = byte := by
  apply BitVec.eq_of_getLsbD_eq
  intro position inside
  simp only [BitVec.getLsbD_setWidth, BitVec.getLsbD_signExtend]
  grind

theorem parse_serialize (self : Blob) : parse self.serialize = (self, true) := by
  have second := getPayload_string (skips_nil (lengthTag 2)) self.blob
  rw [List.append_nil] at second
  have skips : Skips (scalarTag 1) (string 2 self.blob) := by
    simpa using skips_string (by decide : lengthTag 2 ≠ scalarTag 1) self.blob
      (skips_nil (scalarTag 1))
  have first := getScalar_scalar skips (self.byte.signExtend 64).toNat
  have low : BitVec.ofNat 32 (self.byte.signExtend 64).toNat = self.byte := by
    rw [BitVec.ofNat_toNat]
    exact setWidth_signExtend self.byte
  simp only [parse, serialize, first, second, low, decide_true]

end Blob

/-- `bl_data` is owned, or null. -/
structure BaseBlob where
  blData : Option Blob
deriving DecidableEq

/-- `memcmp`; `none` where it reads behind an array. -/
def memcmp (array1 array2 : Bytes) (n : Nat) : Option Int :=
  if n ≤ array1.length ∧ n ≤ array2.length then
    let differing := ((array1.zip array2).take n).find? fun pair => pair.1 ≠ pair.2
    some (differing.elim 0 fun pair => (pair.1.toNat : Int) - pair.2.toNat)
  else none

namespace BaseBlob

/-! ## Constructors -/

/-- `BaseBlob(int bits, const char *str)`, of a string with that many bits. -/
def ofBits (bits : Nat) (str : Bytes) : BaseBlob :=
  let blob := str.take (bits / 8)
  ⟨some ⟨BitVec.ofNat 32 blob.length, blob⟩⟩

/-- `BaseBlob(const std::string &in)` -/
def ofString (input : Bytes) : BaseBlob :=
  let (blData, parsed) := Blob.parse input
  if parsed = false then ⟨none⟩ else ⟨some blData⟩

/-- `BaseBlob(std::istream *in)`, of a stream with the bytes. -/
def ofIstream (input : Bytes) : BaseBlob :=
  let (blData, parsed) := Blob.parse input
  if parsed then ⟨none⟩ else ⟨some blData⟩

/-- `BaseBlob(const BaseBlob &cpy)` -/
def copy (cpy : BaseBlob) : BaseBlob := ⟨cpy.blData⟩

def isValid (self : BaseBlob) : Bool := self.blData.isSome

/-- `SerializeToString` and `SerializeToOstream`; from here on `none` is an access through the null
pointer, or behind an array. -/
def serializeToString (self : BaseBlob) : Option Bytes := self.blData.map Blob.serialize

/-! ## Comparisons -/

/-- What is readable behind `data()` of a string: its bytes and a null byte. -/
def blGetData (blData : Blob) : Bytes := blData.blob ++ [0]

/-- The call of `memcmp` in the comparisons. -/
def compare (a b : BaseBlob) : Option Int :=
  match a.blData, b.blData with
  | some aData, some bData => memcmp (blGetData aData) (blGetData bData) aData.byteSize
  | _, _ => none

/-- `operator ==` -/
def eq (a b : BaseBlob) : Option Bool := (compare a b).map fun result => decide (result = 0)

/-- `operator !=` -/
def ne (a b : BaseBlob) : Option Bool := (compare a b).map fun result => decide (result ≠ 0)

/-- `operator <` -/
def lt (a b : BaseBlob) : Option Bool := (compare a b).map fun result => decide (result < 0)

/-! ## Words -/

/-- The loops over `bl_data_ptr`: every word is replaced. -/
def overWords (blData : Blob) (f : Word → Word) : Blob :=
  { blData with blob := store blData.blob ((words blData.blob).map f) }

def blSetNull (self : BaseBlob) : Option BaseBlob :=
  self.blData.map fun blData => ⟨some (overWords blData fun _ => 0)⟩

def blIsNull (self : BaseBlob) : Option Bool :=
  self.blData.map fun blData => (words blData.blob).all fun word => decide (word = 0)

/-- `operator ~` -/
def complement (self : BaseBlob) : BaseBlob :=
  match self.blData with
  | some _ =>
      let ret := self.copy
      ⟨ret.blData.map fun blData => overWords blData fun word => ~~~word⟩
  | none => ofBits 0 []

/-! ## What the operators do -/

/-- A valid blob with these bytes. -/
def holding (byte : BitVec 32) (bytes : Bytes) : BaseBlob := ⟨some ⟨byte, bytes⟩⟩

/-- A blob is valid and has these bytes. -/
def Holds (self : BaseBlob) (bytes : Bytes) : Prop := ∃ byte, self = holding byte bytes

/-- What the constructor makes of the serialised blob. -/
def Restores (constructor : Bytes → BaseBlob) (self : BaseBlob) (bytes : Bytes) : Prop :=
  ∃ message, self.serializeToString = some message ∧ (constructor message).Holds bytes

variable (byte : BitVec 32) (bytes : Bytes)

private theorem ofString_restores : Restores ofString (holding byte bytes) bytes := by
  refine ⟨_, rfl, byte, ?_⟩
  simp only [ofString, Blob.parse_serialize, holding]
  rfl

private theorem ofIstream_serialize : ofIstream (Blob.serialize ⟨byte, bytes⟩) = ⟨none⟩ := by
  simp only [ofIstream, Blob.parse_serialize, if_true]

private theorem not_ofIstream_restores : ¬ Restores ofIstream (holding byte bytes) bytes := by
  rintro ⟨message, serialized, _, restored⟩
  cases serialized
  rw [ofIstream_serialize] at restored
  cases restored

/-! ### Comparisons -/

private theorem byteSize_eq : Blob.byteSize ⟨byte, bytes⟩ =
    (scalar 1 (byte.signExtend 64).toNat).length + (string 2 bytes).length :=
  List.length_append

private theorem length_varint_pos (value : Nat) : 0 < (varint value).length :=
  List.length_pos_of_ne_nil (varint_ne_nil value)

private theorem length_blGetData : (blGetData ⟨byte, bytes⟩).length = bytes.length + 1 :=
  List.length_append

/-- Every comparison of a message that is not empty reads too far. -/
theorem readable_lt_byteSize (content : ¬ (byte = 0 ∧ bytes = [])) :
    (blGetData ⟨byte, bytes⟩).length < Blob.byteSize ⟨byte, bytes⟩ := by
  rw [byteSize_eq, length_blGetData]
  by_cases empty : bytes = []
  · have value : (byte.signExtend 64).toNat ≠ 0 := by
      intro zero
      apply content
      refine ⟨?_, empty⟩
      have extended : byte.signExtend 64 = 0 := BitVec.eq_of_toNat_eq zero
      rw [← Blob.setWidth_signExtend byte, extended]
      rfl
    have groups := length_varint_pos (byte.signExtend 64).toNat
    rw [scalar, if_neg value, List.length_cons, empty, List.length_nil]
    omega
  · have groups := length_varint_pos bytes.length
    rw [string, if_neg empty, submessage, List.length_cons, List.length_append]
    omega

private theorem byteSize_empty : Blob.byteSize ⟨0, []⟩ = 0 := rfl

/-- No comparison ever sees a byte. -/
theorem compare_holding (otherByte : BitVec 32) (other : Bytes) :
    compare (holding byte bytes) (holding otherByte other) =
      if byte = 0 ∧ bytes = [] then some 0 else none := by
  change memcmp (blGetData ⟨byte, bytes⟩) _ (Blob.byteSize ⟨byte, bytes⟩) = _
  by_cases content : byte = 0 ∧ bytes = []
  · obtain ⟨rfl, rfl⟩ := content
    rw [byteSize_empty, memcmp, if_pos ⟨Nat.zero_le _, Nat.zero_le _⟩]
    rfl
  · have outside := readable_lt_byteSize byte bytes content
    rw [memcmp, if_neg content, if_neg fun inside => absurd inside.1 (Nat.not_le.mpr outside)]

private theorem eq_holding_iff (otherByte : BitVec 32) (other : Bytes) :
    eq (holding byte bytes) (holding otherByte other) = some (decide (bytes = other)) ↔
      byte = 0 ∧ bytes = [] ∧ other = [] := by
  rw [eq, compare_holding]
  split
  · rename_i empty
    obtain ⟨rfl, rfl⟩ := empty
    simp
  · rename_i content
    exact iff_of_false (fun none => nomatch none) fun empty => content ⟨empty.1, empty.2.1⟩

/-! ### Words -/

private theorem complement_holding : (holding byte bytes).complement =
    holding byte (store bytes ((words bytes).map fun word => ~~~word)) := rfl

private theorem complement_complement :
    (holding byte bytes).complement.complement = holding byte bytes := by
  rw [complement_holding, complement_holding, store_store_map]
  have twice : (fun word : Word => ~~~word) ∘ (fun word => ~~~word) = id := by
    funext word
    exact BitVec.not_not
  rw [twice, List.map_id, store_words]

/-- The complement differs in the bytes of the words, and in no other. -/
theorem forall₂_complement :
    List.Forall₂ (· ≠ ·) bytes (store bytes ((words bytes).map fun word => ~~~word)) ↔
      4 ∣ bytes.length := by
  rw [store_not, ← rest_eq_nil_iff]
  constructor
  · intro differ
    have behind := List.forall₂_drop (front bytes).length differ
    have own : bytes.drop (front bytes).length = rest bytes :=
      calc bytes.drop (front bytes).length
          = (front bytes ++ rest bytes).drop (front bytes).length := by rw [front_append_rest]
        _ = rest bytes := List.drop_left
    rw [own, List.drop_left' (List.length_map _), List.forall₂_same] at behind
    exact List.eq_nil_iff_forall_not_mem.mpr fun byte inside => behind byte inside rfl
  · intro whole
    have words : front bytes = bytes := by
      have both := front_append_rest bytes
      rwa [whole, List.append_nil] at both
    rw [whole, List.append_nil, words, List.forall₂_map_right_iff, List.forall₂_same]
    exact fun byte _ => BitVec.ne_not_self (by decide)

private theorem blIsNull_holding : (holding byte bytes).blIsNull =
    some (decide (∀ byte ∈ front bytes, byte = 0)) := by
  change some _ = _
  congr 1
  rw [Bool.eq_iff_iff, List.all_eq_true, decide_eq_true_iff, ← words_all_zero_iff]
  simp only [decide_eq_true_iff]

private theorem blSetNull_holding : (holding byte bytes).blSetNull =
    some (holding byte (List.replicate (front bytes).length 0 ++ rest bytes)) := by
  rw [← store_zero]
  rfl

/-- It is right about a string in which the bytes behind the words are zero or another byte is
not. -/
theorem blIsNull_iff : (holding byte bytes).blIsNull = some (decide (∀ byte ∈ bytes, byte = 0)) ↔
    (∀ byte ∈ rest bytes, byte = 0) ∨ ∃ byte ∈ front bytes, byte ≠ 0 := by
  have all : (∀ byte ∈ bytes, byte = 0) ↔
      (∀ byte ∈ front bytes, byte = 0) ∧ ∀ byte ∈ rest bytes, byte = 0 := by
    conv_lhs => rw [← front_append_rest bytes]
    exact List.forall_mem_append
  have some_ : (∃ byte ∈ front bytes, byte ≠ 0) ↔ ¬ ∀ byte ∈ front bytes, byte = 0 := by
    push Not
    exact Iff.rfl
  rw [blIsNull_holding, Option.some.injEq, decide_eq_decide, all, some_]
  tauto

/-- After `bl_set_null` a blob is taken for null, whatever stands behind its words. -/
theorem blIsNull_blSetNull {next : BaseBlob} (set : (holding byte bytes).blSetNull = some next) :
    next.blIsNull = some true := by
  rw [blSetNull_holding, Option.some.injEq] at set
  subst set
  have whole : (front bytes).length = 4 * (bytes.length / 4) := by
    rw [front, List.length_take]
    omega
  have short := length_rest_lt bytes
  have words : front (List.replicate (front bytes).length (0 : Byte) ++ rest bytes) =
      List.replicate (front bytes).length 0 := by
    have count : 4 * ((List.replicate (front bytes).length (0 : Byte) ++ rest bytes).length / 4) =
        (front bytes).length := by
      rw [List.length_append, List.length_replicate, whole]
      omega
    rw [front, count]
    exact List.take_left' List.length_replicate
  rw [blIsNull_holding, words]
  exact congrArg some (decide_eq_true fun byte inside => List.eq_of_mem_replicate inside)

private theorem set_zero_iff :
    (∀ byte ∈ List.replicate (front bytes).length 0 ++ rest bytes, byte = 0) ↔
      ∀ byte ∈ rest bytes, byte = 0 := by
  rw [List.forall_mem_append]
  exact and_iff_right fun byte inside => List.eq_of_mem_replicate inside

/-- **The laws of a blob.** The constructor from a string restores a blob and the one from a stream
never does; a comparison is right for empty messages of empty strings only; the complement is
its own inverse, and it differs in every byte where the length is a multiple of four; and the
bytes behind the words are neither set nor seen. -/
theorem baseBlob_laws :
    Restores ofString (holding byte bytes) bytes ∧
    ¬ Restores ofIstream (holding byte bytes) bytes ∧
    (∀ otherByte other,
      eq (holding byte bytes) (holding otherByte other) = some (decide (bytes = other)) ↔
        byte = 0 ∧ bytes = [] ∧ other = []) ∧
    (holding byte bytes).complement.complement = holding byte bytes ∧
    ((∃ other, (holding byte bytes).complement.Holds other ∧
      List.Forall₂ (· ≠ ·) bytes other) ↔ 4 ∣ bytes.length) ∧
    ((holding byte bytes).blIsNull = some (decide (∀ byte ∈ bytes, byte = 0)) ↔
      (∀ byte ∈ rest bytes, byte = 0) ∨ ∃ byte ∈ front bytes, byte ≠ 0) ∧
    ∃ next other, (holding byte bytes).blSetNull = some next ∧ next.Holds other ∧
      next.blIsNull = some true ∧ ((∀ byte ∈ other, byte = 0) ↔ ∀ byte ∈ rest bytes, byte = 0) := by
  refine ⟨ofString_restores byte bytes, not_ofIstream_restores byte bytes,
    eq_holding_iff byte bytes, complement_complement byte bytes, ?_, blIsNull_iff byte bytes,
    _, _, blSetNull_holding byte bytes, ⟨byte, rfl⟩,
    blIsNull_blSetNull byte bytes (blSetNull_holding byte bytes), set_zero_iff bytes⟩
  rw [complement_holding]
  constructor
  · rintro ⟨other, ⟨otherByte, same⟩, differ⟩
    cases same
    exact (forall₂_complement bytes).mp differ
  · intro whole
    exact ⟨_, ⟨byte, rfl⟩, (forall₂_complement bytes).mpr whole⟩

/-- A blob of one byte that is not zero. -/
theorem single_byte_breaks_laws :
    ¬ Restores ofIstream (ofBits 8 [65]) [65] ∧
    eq (holding 0 []) (ofBits 8 [65]) = some true ∧
    (ofBits 8 [65]).complement = ofBits 8 [65] ∧
    (ofBits 8 [65]).blIsNull = some true :=
  ⟨not_ofIstream_restores 1 [65], by decide, by decide, by decide⟩

end BaseBlob

end Tvntd
