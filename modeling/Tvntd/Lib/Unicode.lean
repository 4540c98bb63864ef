import Mathlib.Data.List.Basic
import Mathlib.Tactic.Common

/-! # UTF-8 and UTF-16

Characters as bytes and as code units, over lists. A decoder of bytes replaces
what is malformed: it takes the first character of what is left, or, where there
is none, one `U+FFFD` for some bytes.
-/

namespace Unicode

abbrev Bytes := List UInt8

abbrev Units := List UInt16

/-! ## Bytes -/

/-- The bytes of some characters, one behind the other. -/
def ValidUtf8 (bytes : Bytes) : Prop := bytes.toByteArray.IsValidUTF8

instance (bytes : Bytes) : Decidable (ValidUtf8 bytes) :=
  inferInstanceAs (Decidable bytes.toByteArray.IsValidUTF8)

theorem validUtf8_nil : ValidUtf8 [] := ByteArray.isValidUTF8_empty

theorem validUtf8_encode (c : Char) : ValidUtf8 (String.utf8EncodeChar c) := by
  rw [ValidUtf8, ← List.utf8Encode_singleton]
  exact ByteArray.isValidUTF8_utf8Encode

theorem ValidUtf8.append {front back : Bytes} (first : ValidUtf8 front) (rest : ValidUtf8 back) :
    ValidUtf8 (front ++ back) := by
  rw [ValidUtf8, List.toByteArray_append]
  exact ByteArray.IsValidUTF8.append first rest

/-- A byte below `0x80` is a character. -/
theorem encode_ascii {byte : UInt8} (ascii : byte.toNat < 128) :
    String.utf8EncodeChar (Char.ofUInt8 byte) = [byte] := by
  have code : (Char.ofUInt8 byte).val.toNat = byte.toNat := rfl
  have small : byte.toNat ≤ 0x7f := Nat.le_of_lt_succ ascii
  simp only [String.utf8EncodeChar, code, if_pos small, UInt8.ofNat_toNat]

theorem validUtf8_ascii {bytes : Bytes} (ascii : ∀ byte ∈ bytes, byte.toNat < 128) :
    ValidUtf8 bytes := by
  induction bytes with
  | nil => exact validUtf8_nil
  | cons byte rest ih =>
      have first := validUtf8_encode (Char.ofUInt8 byte)
      rw [encode_ascii (ascii byte List.mem_cons_self)] at first
      exact first.append (ih fun other later => ascii other (List.mem_cons_of_mem _ later))

/-- The first character of what is left. -/
def decodeChar? (bytes : Bytes) : Option Char := bytes.toByteArray.utf8DecodeChar? 0

private theorem decodeChar?_encode (c : Char) (rest : Bytes) :
    decodeChar? (String.utf8EncodeChar c ++ rest) = some c := by
  rw [decodeChar?, List.toByteArray_append]
  exact ByteArray.utf8DecodeChar?_utf8EncodeChar_append

/-! ## Code units -/

/-- One unit, or the two halves of a pair. -/
def units (c : Char) : Units :=
  if c.toNat < 0x10000 then [UInt16.ofNat c.toNat]
  else [UInt16.ofNat (0xD800 + (c.toNat - 0x10000) / 1024),
    UInt16.ofNat (0xDC00 + (c.toNat - 0x10000) % 1024)]

/-- The units of some bytes. How many bytes of a malformed rest one `U+FFFD` stands for is up to
the decoder. -/
def decode (malformed : Bytes → Nat) : Bytes → Units
  | [] => []
  | byte :: rest =>
      match decodeChar? (byte :: rest) with
      | some c => units c ++ decode malformed (rest.drop (c.utf8Size - 1))
      | none => 0xFFFD :: decode malformed (rest.drop (malformed (byte :: rest) - 1))
  termination_by bytes => bytes.length
  decreasing_by all_goals simp only [List.length_drop, List.length_cons]; omega

theorem decode_encode (malformed : Bytes → Nat) (c : Char) (rest : Bytes) :
    decode malformed (String.utf8EncodeChar c ++ rest) = units c ++ decode malformed rest := by
  have size := String.length_utf8EncodeChar c
  cases encoded : String.utf8EncodeChar c with
  | nil =>
      have positive := c.utf8Size_pos
      rw [encoded, List.length_nil] at size
      omega
  | cons byte bytes =>
      have first := decodeChar?_encode c rest
      rw [encoded, List.cons_append] at first
      rw [encoded, List.length_cons] at size
      have behind : (bytes ++ rest).drop (c.utf8Size - 1) = rest := by
        rw [← size, Nat.add_sub_cancel, List.drop_left]
      rw [List.cons_append, decode, first]
      simp only [behind]

end Unicode
