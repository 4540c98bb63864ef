import Tvntd.Java.Text
import Tvntd.Lib.Unicode

/-! # Strings as limited bytes

`Util.toRawByte` cuts a string at a number of code units, where the columns that
keep it are limited in bytes, and `Util.fromRawByte` reads it back. A unit that
is not ASCII takes more bytes than one, and a cut inside a surrogate pair leaves
a half of it, which is written as a question mark.
-/

namespace Tvntd

open Unicode

/-- `Util.toRawByte`; `none` is the exception of `substring`. -/
def utilToRawByte (str : Option Text) (limit : Int) : Option (Option Octets) :=
  match str with
  | none => some none
  | some str => if limit < 0 then none else some (toRawByte (some str) limit.toNat)

/-- `Util.fromRawByte` -/
def fromRawByte (malformed : Octets → Nat) (input : Option Octets) : Text :=
  match input with
  | some bytes => Unicode.decode malformed bytes
  | none => []

namespace Text

def isSurrogate (unit : UInt16) : Bool := isHighSurrogate unit || isLowSurrogate unit

/-- What a unit that is no half of a pair is read back as. -/
def repairedUnit (unit : UInt16) : UInt16 := if isSurrogate unit then 0x3F else unit

/-- What a string is read back as. -/
def repaired : Text → Text
  | [] => []
  | [unit] => [repairedUnit unit]
  | high :: low :: rest =>
      if isHighSurrogate high && isLowSurrogate low then high :: low :: repaired rest
      else repairedUnit high :: repaired (low :: rest)

/-- Every surrogate is a half of a pair. -/
def Paired : Text → Prop
  | [] => True
  | [unit] => isSurrogate unit = false
  | high :: low :: rest =>
      if isHighSurrogate high && isLowSurrogate low then Paired rest
      else isSurrogate high = false ∧ Paired (low :: rest)

def isAscii (unit : UInt16) : Bool := decide (unit < 0x80)

/-! ## Units and characters -/

private theorem isSurrogate_eq_false_iff (unit : UInt16) :
    isSurrogate unit = false ↔ unit.toNat < 0xD800 ∨ 0xE000 ≤ unit.toNat := by
  simp only [isSurrogate, isHighSurrogate, isLowSurrogate, Bool.or_eq_false_iff,
    Bool.and_eq_false_iff, decide_eq_false_iff_not, UInt16.le_iff_toNat_le, UInt16.lt_iff_toNat_lt,
    UInt16.reduceToNat]
  omega

/-- The bytes of a unit are those of a character that has one unit. -/
theorem exists_unit (unit : UInt16) :
    ∃ c, unitBytes unit = String.utf8EncodeChar c ∧ units c = [repairedUnit unit] := by
  have bound := unit.toNat_lt
  by_cases half : isSurrogate unit = true
  · refine ⟨⟨0x3F, by decide⟩, ?_, ?_⟩
    · have range : ¬ (unit.toNat < 0xD800 ∨ 0xE000 ≤ unit.toNat) := by
        rw [← isSurrogate_eq_false_iff, half]
        exact Bool.noConfusion
      have notOne : ¬ unit.toNat < 0x80 := by omega
      have notTwo : ¬ unit.toNat < 0x800 := by omega
      have halves : (isHighSurrogate unit || isLowSurrogate unit) = true := half
      simp only [unitBytes]
      rw [if_neg notOne, if_neg notTwo, if_pos halves]
      rfl
    · rw [repairedUnit, if_pos half]
      rfl
  · have whole := Bool.eq_false_iff.mpr half
    have range := (isSurrogate_eq_false_iff unit).mp whole
    have halves : ¬ (isHighSurrogate unit || isLowSurrogate unit) = true := half
    have valid : unit.toUInt32.isValidChar := by
      rw [UInt32.isValidChar, Nat.isValidChar, UInt16.toNat_toUInt32]
      omega
    refine ⟨⟨unit.toUInt32, valid⟩, ?_, ?_⟩
    · simp only [unitBytes, String.utf8EncodeChar, UInt16.toNat_toUInt32]
      by_cases one : unit.toNat < 0x80
      · have least : unit.toNat ≤ 0x7f := by omega
        rw [if_pos one, if_pos least]
      · have more : ¬ unit.toNat ≤ 0x7f := by omega
        rw [if_neg one, if_neg more, Nat.add_comm 0x80]
        by_cases two : unit.toNat < 0x800
        · have least : unit.toNat ≤ 0x7ff := by omega
          have top : unit.toNat / 64 % 32 = unit.toNat / 64 := Nat.mod_eq_of_lt (by omega)
          rw [if_pos two, if_pos least, top, Nat.add_comm 0xC0]
        · have most : ¬ unit.toNat ≤ 0x7ff := by omega
          have least : unit.toNat ≤ 0xffff := by omega
          have top : unit.toNat / 4096 % 16 = unit.toNat / 4096 := Nat.mod_eq_of_lt (by omega)
          rw [if_neg two, if_neg halves, if_neg most, if_pos least, top, Nat.add_comm 0xE0,
            Nat.add_comm 0x80]
    · have code : Char.toNat ⟨unit.toUInt32, valid⟩ = unit.toNat := UInt16.toNat_toUInt32 unit
      rw [repairedUnit, if_neg half, units, code, if_pos bound, UInt16.ofNat_toNat]

/-- The bytes of a pair are those of the character that has both units. -/
theorem exists_pair {high low : UInt16} (first : isHighSurrogate high = true)
    (second : isLowSurrogate low = true) :
    ∃ c, pairBytes high low = String.utf8EncodeChar c ∧ units c = [high, low] := by
  simp only [isHighSurrogate, isLowSurrogate, Bool.and_eq_true, decide_eq_true_eq,
    UInt16.le_iff_toNat_le, UInt16.lt_iff_toNat_lt, UInt16.reduceToNat] at first second
  obtain ⟨own, ownEq⟩ : ∃ own, high.toNat = 0xD800 + own := Nat.exists_eq_add_of_le first.1
  obtain ⟨other, otherEq⟩ : ∃ other, low.toNat = 0xDC00 + other :=
    Nat.exists_eq_add_of_le second.1
  have ownSmall : own < 1024 := by omega
  have otherSmall : other < 1024 := by omega
  obtain ⟨point, pointEq⟩ : ∃ point, point = 0x10000 + (own * 1024 + other) := ⟨_, rfl⟩
  have code : 0x10000 + (high.toNat - 0xD800) * 1024 + (low.toNat - 0xDC00) = point := by omega
  have word : (UInt32.ofNat point).toNat = point := by
    apply UInt32.toNat_ofNat_of_lt'
    rw [UInt32.size]
    omega
  have valid : (UInt32.ofNat point).isValidChar := by
    rw [UInt32.isValidChar, Nat.isValidChar, word]
    omega
  refine ⟨⟨_, valid⟩, ?_, ?_⟩
  · have notOne : ¬ point ≤ 0x7f := by omega
    have notTwo : ¬ point ≤ 0x7ff := by omega
    have notThree : ¬ point ≤ 0xffff := by omega
    have top : point / 262144 % 8 = point / 262144 := Nat.mod_eq_of_lt (by omega)
    simp only [pairBytes, String.utf8EncodeChar, word, code]
    rw [if_neg notOne, if_neg notTwo, if_neg notThree, top, Nat.add_comm 0xF0, Nat.add_comm 0x80,
      Nat.add_comm 0x80, Nat.add_comm 0x80]
  · have value : Char.toNat ⟨_, valid⟩ = point := word
    have large : ¬ point < 0x10000 := by omega
    have top : 0xD800 + (point - 0x10000) / 1024 = high.toNat := by omega
    have rest : 0xDC00 + (point - 0x10000) % 1024 = low.toNat := by omega
    rw [units, value, if_neg large, top, rest, UInt16.ofNat_toNat, UInt16.ofNat_toNat]

/-! ## Writing and reading -/

/-- What is written is UTF-8, and read back with its halves of pairs repaired. -/
theorem getBytes_read (malformed : Octets → Nat) (text : Text) :
    ValidUtf8 (getBytes text) ∧ Unicode.decode malformed (getBytes text) = repaired text := by
  induction text using getBytes.induct with
  | case1 => exact ⟨validUtf8_nil, by rw [getBytes, Unicode.decode, repaired]⟩
  | case2 unit =>
      obtain ⟨c, bytes, units⟩ := exists_unit unit
      have read := decode_encode malformed c []
      rw [List.append_nil, units, Unicode.decode, List.append_nil] at read
      rw [getBytes, bytes, repaired]
      exact ⟨validUtf8_encode c, read⟩
  | case3 high low rest pair ih =>
      obtain ⟨first, second⟩ := Bool.and_eq_true_iff.mp pair
      obtain ⟨c, bytes, units⟩ := exists_pair first second
      rw [getBytes, if_pos pair, bytes, repaired, if_pos pair, decode_encode, units, ih.2]
      exact ⟨(validUtf8_encode c).append ih.1, rfl⟩
  | case4 high low rest single ih =>
      obtain ⟨c, bytes, units⟩ := exists_unit high
      rw [getBytes, if_neg single, bytes, repaired, if_neg single, decode_encode, units, ih.2]
      exact ⟨(validUtf8_encode c).append ih.1, rfl⟩

private theorem length_repaired (text : Text) : (repaired text).length = text.length := by
  induction text using getBytes.induct with
  | case1 => rfl
  | case2 unit => rfl
  | case3 high low rest pair ih =>
      rw [repaired, if_pos pair, List.length_cons, List.length_cons, ih]
      rfl
  | case4 high low rest single ih =>
      rw [repaired, if_neg single, List.length_cons, ih]
      rfl

private theorem repairedUnit_eq_iff (unit : UInt16) :
    repairedUnit unit = unit ↔ isSurrogate unit = false := by
  unfold repairedUnit
  by_cases half : isSurrogate unit = true
  · rw [if_pos half, half]
    refine iff_of_false ?_ Bool.noConfusion
    rintro rfl
    exact absurd half (by decide)
  · rw [if_neg half]
    exact iff_of_true rfl (Bool.eq_false_iff.mpr half)

/-- A string is read back as it is exactly if it has no half of a pair alone. -/
theorem repaired_eq_iff (text : Text) : repaired text = text ↔ Paired text := by
  induction text using getBytes.induct with
  | case1 => exact iff_of_true rfl trivial
  | case2 unit =>
      rw [repaired, Paired, List.cons.injEq, repairedUnit_eq_iff]
      exact and_iff_left rfl
  | case3 high low rest pair ih =>
      rw [repaired, if_pos pair, Paired, if_pos pair, List.cons.injEq, List.cons.injEq, ih]
      exact (and_iff_right rfl).trans (and_iff_right rfl)
  | case4 high low rest single ih =>
      rw [repaired, if_neg single, Paired, if_neg single, List.cons.injEq, repairedUnit_eq_iff, ih]

theorem isAscii_iff (unit : UInt16) : isAscii unit = true ↔ unit.toNat < 0x80 := by
  rw [isAscii, decide_eq_true_eq, UInt16.lt_iff_toNat_lt]
  rfl

theorem isSurrogate_of_isAscii {unit : UInt16} (ascii : isAscii unit = true) :
    isSurrogate unit = false := by
  rw [isAscii_iff] at ascii
  exact (isSurrogate_eq_false_iff unit).mpr (Or.inl (by omega))

/-- A unit that is no surrogate takes one byte exactly if it is ASCII. -/
theorem length_unitBytes_iff {unit : UInt16} (whole : isSurrogate unit = false) :
    (unitBytes unit).length ≤ 1 ↔ isAscii unit = true := by
  have halves : ¬ (isHighSurrogate unit || isLowSurrogate unit) = true :=
    Bool.eq_false_iff.mp whole
  rw [isAscii_iff]
  simp only [unitBytes]
  by_cases one : unit.toNat < 0x80
  · rw [if_pos one]
    exact iff_of_true (Nat.le_refl 1) one
  · rw [if_neg one, if_neg halves]
    refine iff_of_false ?_ one
    split
    · simp
    · simp

/-- As many bytes as units are the bytes of ASCII. -/
theorem length_getBytes_iff (text : Text) :
    (getBytes text).length ≤ text.length ∧ Paired text ↔ ∀ unit ∈ text, isAscii unit = true := by
  induction text using getBytes.induct with
  | case1 => simp [getBytes, Paired]
  | case2 unit =>
      rw [getBytes, Paired, List.length_singleton, List.forall_mem_singleton]
      constructor
      · rintro ⟨short, whole⟩
        exact (length_unitBytes_iff whole).mp short
      · intro ascii
        have whole := isSurrogate_of_isAscii ascii
        exact ⟨(length_unitBytes_iff whole).mpr ascii, whole⟩
  | case3 high low rest pair ih =>
      have least := length_le_getBytes rest
      refine iff_of_false ?_ ?_
      · rintro ⟨short, -⟩
        rw [getBytes, if_pos pair, List.length_append, pairBytes] at short
        simp only [List.length_cons, List.length_nil] at short
        omega
      · intro ascii
        have whole := isSurrogate_of_isAscii (ascii high List.mem_cons_self)
        rw [isSurrogate, Bool.or_eq_false_iff] at whole
        rw [whole.1] at pair
        cases pair
  | case4 high low rest single ih =>
      have least := length_le_getBytes (low :: rest)
      have first := one_le_length_unitBytes high
      rw [getBytes, if_neg single, Paired, if_neg single, List.length_append, List.length_cons,
        List.forall_mem_cons, ← ih]
      constructor
      · rintro ⟨short, whole, paired⟩
        have one := length_unitBytes_iff whole
        exact ⟨one.mp (by omega), by omega, paired⟩
      · rintro ⟨ascii, short, paired⟩
        have whole := isSurrogate_of_isAscii ascii
        have one := (length_unitBytes_iff whole).mpr ascii
        exact ⟨by omega, whole, paired⟩

end Text

/-! ## Limits -/

/-- At most so many bytes of UTF-8, read back as the beginning of the string, and as all of it if
its bytes fit. -/
def RawByteRight (malformed : Octets → Nat) (str : Text) (limit : Int) : Prop :=
  ∃ bytes, utilToRawByte (some str) limit = some (some bytes) ∧ (bytes.length : Int) ≤ limit ∧
    ValidUtf8 bytes ∧ fromRawByte malformed (some bytes) <+: str ∧
    (((Text.getBytes str).length : Int) ≤ limit → fromRawByte malformed (some bytes) = str)

/-- All bytes fit and no half of a pair is alone, or the units that are kept of a longer string are
ASCII. -/
def LimitFits (str : Text) (limit : Int) : Prop :=
  0 ≤ limit ∧ (((Text.getBytes str).length : Int) ≤ limit ∧ Text.Paired str ∨
    limit < str.length ∧ ∀ unit ∈ str.take limit.toNat, Text.isAscii unit = true)

/-- What is said of the units that are kept. -/
theorem rawByteRight_kept_iff (malformed : Octets → Nat) {str kept : Text} {limit : Int}
    (keeps : utilToRawByte (some str) limit = some (some (Text.getBytes kept)))
    (front : kept <+: str) :
    RawByteRight malformed str limit ↔
      ((Text.getBytes kept).length : Int) ≤ limit ∧ Text.Paired kept ∧
        (((Text.getBytes str).length : Int) ≤ limit → kept = str) := by
  obtain ⟨valid, read⟩ := Text.getBytes_read malformed kept
  have back : fromRawByte malformed (some (Text.getBytes kept)) = Text.repaired kept := read
  constructor
  · rintro ⟨bytes, written, short, -, begins, whole⟩
    rw [keeps, Option.some_inj, Option.some_inj] at written
    subst written
    rw [back] at begins whole
    have same : Text.repaired kept = kept := by
      have length := Text.length_repaired kept
      have short := List.prefix_of_prefix_length_le begins front (Nat.le_of_eq length)
      exact short.eq_of_length length
    rw [same] at whole
    exact ⟨short, (Text.repaired_eq_iff kept).mp same, whole⟩
  · rintro ⟨short, paired, whole⟩
    have same := (Text.repaired_eq_iff kept).mpr paired
    refine ⟨_, keeps, short, valid, ?_, ?_⟩
    · rw [back, same]
      exact front
    · rw [back, same]
      exact whole

/-- **Strings as limited bytes.** The limit is kept, and the string is read back, exactly where its
bytes fit or what is kept of it is ASCII. -/
theorem rawByteRight_iff (malformed : Octets → Nat) (str : Text) (limit : Int) :
    RawByteRight malformed str limit ↔ LimitFits str limit := by
  have least := Text.length_le_getBytes str
  unfold LimitFits
  by_cases negative : limit < 0
  · refine iff_of_false ?_ fun fits => by omega
    rintro ⟨bytes, written, -⟩
    rw [utilToRawByte, if_pos negative] at written
    cases written
  · have positive : 0 ≤ limit := by omega
    rw [and_iff_right positive]
    by_cases cut : limit.toNat < str.length
    · have keeps : utilToRawByte (some str) limit =
          some (some (Text.getBytes (str.take limit.toNat))) := by
        rw [utilToRawByte, if_neg negative, toRawByte, Option.map_some, if_pos cut]
      have length : (str.take limit.toNat).length = limit.toNat := by
        rw [List.length_take]
        omega
      have ascii := Text.length_getBytes_iff (str.take limit.toNat)
      rw [rawByteRight_kept_iff malformed keeps (List.take_prefix _ _)]
      constructor
      · rintro ⟨short, paired, -⟩
        exact Or.inr ⟨by omega, ascii.mp ⟨by omega, paired⟩⟩
      · rintro (⟨fits, -⟩ | ⟨-, all⟩)
        · omega
        · obtain ⟨short, paired⟩ := ascii.mpr all
          exact ⟨by omega, paired, fun fits => by omega⟩
    · have keeps : utilToRawByte (some str) limit = some (some (Text.getBytes str)) := by
        rw [utilToRawByte, if_neg negative, toRawByte, Option.map_some, if_neg cut]
      rw [rawByteRight_kept_iff malformed keeps (List.prefix_refl str)]
      constructor
      · rintro ⟨short, paired, -⟩
        exact Or.inl ⟨short, paired⟩
      · rintro (⟨fits, paired⟩ | ⟨long, -⟩)
        · exact ⟨fits, paired, fun _ => rfl⟩
        · omega

/-- Two letters of two bytes each do not fit into two bytes. -/
theorem accents_exceed_limit : ¬ RawByteRight (fun _ => 1) [0xE1, 0xE1] 2 := by
  rw [rawByteRight_iff]
  rintro ⟨-, fits | cut⟩
  · exact absurd fits.1 (by decide)
  · exact absurd cut.1 (by decide)

end Tvntd
