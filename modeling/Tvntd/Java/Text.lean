import Mathlib.Data.List.Basic
import Mathlib.Tactic.Common
import Tvntd.Lib.Unicode

/-! # Strings, bytes and exceptions

A string is a list of UTF-16 code units, and is stored as its bytes in UTF-8: two
units that make a pair are one character of four bytes, and a unit that lacks its
other half is written as a question mark.
-/

namespace Tvntd

/-- Why a request comes to nothing. -/
inductive Exception where
  | nullPointer
  | illegalArgument
deriving DecidableEq

/-- Code units. -/
abbrev Text := List UInt16

abbrev Octets := List UInt8

namespace Text

def ofString (text : String) : Text :=
  text.toList.flatMap Unicode.units

def isHighSurrogate (unit : UInt16) : Bool := decide (0xD800 ≤ unit) && decide (unit < 0xDC00)

def isLowSurrogate (unit : UInt16) : Bool := decide (0xDC00 ≤ unit) && decide (unit < 0xE000)

/-- The bytes of a unit that is no half of a pair. -/
def unitBytes (unit : UInt16) : Octets :=
  let code := unit.toNat
  if code < 0x80 then [UInt8.ofNat code]
  else if code < 0x800 then [UInt8.ofNat (0xC0 + code / 64), UInt8.ofNat (0x80 + code % 64)]
  else if isHighSurrogate unit || isLowSurrogate unit then [0x3F]
  else
    [UInt8.ofNat (0xE0 + code / 4096), UInt8.ofNat (0x80 + code / 64 % 64),
      UInt8.ofNat (0x80 + code % 64)]

def pairBytes (high low : UInt16) : Octets :=
  let code := 0x10000 + (high.toNat - 0xD800) * 1024 + (low.toNat - 0xDC00)
  [UInt8.ofNat (0xF0 + code / 262144), UInt8.ofNat (0x80 + code / 4096 % 64),
    UInt8.ofNat (0x80 + code / 64 % 64), UInt8.ofNat (0x80 + code % 64)]

/-- The bytes in UTF-8. -/
def getBytes : Text → Octets
  | [] => []
  | [unit] => unitBytes unit
  | high :: low :: rest =>
      if isHighSurrogate high && isLowSurrogate low then pairBytes high low ++ getBytes rest
      else unitBytes high ++ getBytes (low :: rest)

theorem one_le_length_unitBytes (unit : UInt16) : 1 ≤ (unitBytes unit).length := by
  simp only [unitBytes]
  split
  · simp
  · split
    · simp
    · split
      · simp
      · simp

/-- No unit is written in less than a byte. -/
theorem length_le_getBytes (text : Text) : text.length ≤ (getBytes text).length := by
  induction text using getBytes.induct with
  | case1 => exact Nat.le_refl 0
  | case2 unit => exact one_le_length_unitBytes unit
  | case3 high low rest pair ih =>
      rw [getBytes, if_pos pair, List.length_append]
      simp only [List.length_cons, pairBytes, List.length_nil]
      omega
  | case4 high low rest single ih =>
      rw [getBytes, if_neg single, List.length_append]
      have first := one_le_length_unitBytes high
      simp only [List.length_cons] at ih ⊢
      omega

end Text

/-- The first `limit` units of a string, as bytes. -/
def toRawByte (str : Option Text) (limit : Nat) : Option Octets :=
  str.map fun str =>
    if limit < str.length then Text.getBytes (str.take limit) else Text.getBytes str

/-- The uuid of a user: the text of a UUID has 36 bytes. -/
@[ext] structure UserUuid where
  bytes : Octets
  length_eq : bytes.length = 36
deriving DecidableEq

def publicUuid : UserUuid :=
  ⟨Text.getBytes (Text.ofString "00000000-ffff-0000-ffff-00ff00ff00ff"), by decide +kernel⟩

end Tvntd
