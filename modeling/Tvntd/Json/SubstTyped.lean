import Tvntd.Json.SubstText

/-! # Values through `js_subst_str`

A string that is exactly `${x}` is replaced by the text of the value of `x`, and
the type of the result is found from that text again. Integers and booleans come
back as they are. A string comes back unless its text can be read as a number
or a boolean: the conversions also take the empty text, blanks in front, digits
of base 16 without a prefix, infinities and NaNs.
-/

namespace Tvntd.VarSubst

open Numerals

/-! ## The type of a text -/

/-- A text some base takes for an integer. -/
theorem integerValue_isSome_iff {val : List Byte} : (integerValue val).isSome = true ↔
    val = [] ∨ Digits 16 (unsigned val) ∨ Prefixed (unsigned val) := by
  have reads : (integerValue val).isSome = true ↔
      ∃ base ∈ [10, 16, 8, 2], (strtoull base val).2 = [] := by
    rw [integerValue, List.findSome?_isSome_iff]
    constructor
    · rintro ⟨base, tried, found⟩
      refine ⟨base, tried, ?_⟩
      by_contra rest
      rw [if_neg rest] at found
      cases found
    · rintro ⟨base, tried, ended⟩
      exact ⟨base, tried, by rw [if_pos ended]; rfl⟩
  have hexadecimal : Digits 16 (strtoullBody 16 val) ↔
      Digits 16 (unsigned val) ∨ Prefixed (unsigned val) := digits_hexPrefix_iff
  rw [reads]
  constructor
  · rintro ⟨base, tried, ended⟩
    rcases strtoull_rest_iff.mp ended with empty | digits
    · exact Or.inl empty
    · right
      simp only [List.mem_cons, List.not_mem_nil, or_false] at tried
      rcases tried with rfl | rfl | rfl | rfl
      · exact Or.inl (digits.mono (by decide))
      · exact hexadecimal.mp digits
      · exact Or.inl (digits.mono (by decide))
      · exact Or.inl (digits.mono (by decide))
  · intro numeral
    refine ⟨16, by decide, strtoull_rest_iff.mpr ?_⟩
    exact numeral.imp_right hexadecimal.mpr

/-- A text is a string again when it is UTF-8 and not taken for a number or a boolean. -/
theorem typedValue_string_iff {val : List Byte} :
    typedValue val = some (.string (cStr val)) ↔
      ((val ≠ [] ∧ ¬ Digits 16 (unsigned val) ∧ ¬ Prefixed (unsigned val) ∧
        ¬ IsReal (unsigned val)) ∧ utf8Check (cStr val) = true) ∧ ¬ IsBoolean val := by
  have integers : (integerValue val).isSome = true ↔ _ := integerValue_isSome_iff
  unfold typedValue
  cases integer : integerValue val with
  | some num =>
      have taken := integers.mp (by rw [integer]; rfl)
      constructor
      · exact fun same => nomatch same
      · rintro ⟨⟨⟨some, noDigits, noPrefix, -⟩, -⟩, -⟩
        exact (taken.elim some fun digits => digits.elim noDigits noPrefix).elim
  | none =>
      have untaken : ¬ (val = [] ∨ Digits 16 (unsigned val) ∨ Prefixed (unsigned val)) := by
        rw [← integers, integer]
        exact Bool.false_ne_true
      simp only [not_or] at untaken
      by_cases real : (strtod val).2 = []
      · have isReal := (strtod_rest_iff.mp real).resolve_left untaken.1
        simp only [if_pos real]
        constructor
        · intro same
          unfold jsonReal at same
          split at same
          · cases same
          · cases same
        · exact fun free => (free.1.1.2.2.2 isReal).elim
      · have noReal : ¬ IsReal (unsigned val) := fun isReal =>
          real (strtod_rest_iff.mpr (Or.inr isReal))
        simp only [if_neg real]
        constructor
        · intro same
          have words : ¬ IsBoolean val := by
            rintro (word | word)
            · rw [if_pos word] at same
              cases same
            · rw [if_neg (by rw [word]; decide), if_pos word] at same
              cases same
          refine ⟨⟨⟨untaken.1, untaken.2.1, untaken.2.2, noReal⟩, ?_⟩, words⟩
          rw [if_neg (not_or.mp words).1, if_neg (not_or.mp words).2, jsonString] at same
          by_contra refused
          rw [if_neg refused] at same
          cases same
        · intro free
          have words := not_or.mp free.2
          rw [if_neg words.1, if_neg words.2, jsonString, if_pos free.1.2]

/-! ## One variable -/

/-- The string `${x}`. -/
def referenceStr (name : CStr) : CStr where
  bytes := reference name.bytes
  ended := by
    simp only [reference, List.mem_cons, List.mem_append, List.not_mem_nil, or_false, not_or]
    exact ⟨by decide, by decide, name.ended, by decide⟩

section Reference

variable {lookup : List Byte → Option Json} {name : CStr} {value : Json}

/-- The string is replaced by the text of the value, once and as a whole. -/
theorem jsSubstStr_reference (inner : 125#8 ∉ name.bytes)
    (defined : lookup (reference name.bytes) = some value) :
    jsSubstStr lookup (referenceStr name) = typedValue (jsAppendVal value) := by
  have found : keywordAt (reference name.bytes) = some (reference name.bytes) :=
    keywordAt_append inner []
  have rest : substLoop lookup ((reference name.bytes).length - 1)
      (123#8 :: (name.bytes ++ [125#8])) = ([], 0) := by
    have whole : (123#8 :: (name.bytes ++ [125#8])).drop ((reference name.bytes).length - 1) = [] :=
      List.drop_eq_nil_of_le (Nat.le_refl _)
    rw [substLoop_ahead, whole, substLoop]
  have loop : substLoop lookup 0 (referenceStr name).bytes = (jsAppendVal value, 1) := by
    change substLoop lookup 0 (36#8 :: 123#8 :: (name.bytes ++ [125#8])) = _
    rw [substLoop_known found defined, rest, List.append_nil]
  rw [jsSubstStr, loop, if_neg Nat.one_ne_zero]

private theorem typedValue_integer (num : BitVec 64) :
    typedValue (jsAppendVal (.integer num)) = some (.integer num) := by
  have read := strtoull_toStringInteger num
  have value : integerValue (toStringInteger num) = some num := by
    rw [integerValue, List.findSome?_cons, read, if_pos rfl]
  rw [jsAppendVal, typedValue, value]

/-- A decimal or `0x` integer or a decimal real, behind a sign. -/
def IsNumeral (str : List Byte) : Prop :=
  Digits 10 (sign str).2 ∨ Prefixed (sign str).2 ∨
    ∃ image, decimalFloat (sign str).2 = some (image, [])

/-- An integer or a boolean comes back from `${x}`, and so does a string that is the text of no
number and no boolean. -/
def ComesBack (lookup : List Byte → Option Json) (name : CStr) (value : Json) : Prop :=
  match value with
  | .integer _ | .true | .false => jsSubstStr lookup (referenceStr name) = some value
  | .string str => ¬ IsNumeral str.bytes → ¬ IsBoolean str.bytes →
      jsSubstStr lookup (referenceStr name) = some value
  | _ => True

/-- The string is not empty, and behind blanks and a sign there are not only digits of base 16,
with or without `0x`, and no real, infinity or NaN. -/
def NoOtherNumeral (str : List Byte) : Prop :=
  str ≠ [] ∧ ¬ Digits 16 (unsigned str) ∧ ¬ Prefixed (unsigned str) ∧ ¬ IsReal (unsigned str)

/-- **Values through `js_subst_str`.** A value comes back exactly if it is not one of the strings
that the conversions take for a number although they are the text of none, and is UTF-8, as every
string of a dictionary is. -/
theorem comesBack_iff (inner : 125#8 ∉ name.bytes)
    (defined : lookup (reference name.bytes) = some value) :
    ComesBack lookup name value ↔ ∀ str, value = .string str →
      ¬ IsNumeral str.bytes → ¬ IsBoolean str.bytes →
        NoOtherNumeral str.bytes ∧ utf8Check str = true := by
  have result := jsSubstStr_reference inner defined
  cases value with
  | string str =>
      have own : cStr str.bytes = str := (CStr.ext_iff _ _).mpr (cStr_bytes str.ended)
      have string : typedValue str.bytes = _ ↔ _ := typedValue_string_iff
      rw [own] at string
      rw [ComesBack, result, jsAppendVal, string]
      constructor
      · rintro back other ⟨rfl⟩ numeral boolean
        exact (back numeral boolean).1
      · exact fun free numeral boolean => ⟨free str rfl numeral boolean, boolean⟩
  | integer num =>
      rw [ComesBack, result, typedValue_integer]
      simp
  | true =>
      rw [ComesBack, result]
      exact ⟨fun _ _ same => (nomatch same), fun _ => rfl⟩
  | false =>
      rw [ComesBack, result]
      exact ⟨fun _ _ same => (nomatch same), fun _ => rfl⟩
  | _ => simp [ComesBack]

end Reference

/-- A dictionary of one variable, `${a}`. -/
def ofVariable (value : Json) (kw : List Byte) : Option Json :=
  if kw = reference [97#8] then some value else none

/-- The smallest integer comes back. -/
theorem comesBack_smallest :
    ComesBack (ofVariable (.integer (BitVec.intMin 64))) ⟨[97#8], by decide⟩
      (.integer (BitVec.intMin 64)) :=
  (comesBack_iff (by decide) rfl).mpr fun _ same => nomatch same

/-- The empty string comes back as the integer `0`. -/
theorem empty_becomes_integer :
    ¬ ComesBack (ofVariable (.string ⟨[], by decide⟩)) ⟨[97#8], by decide⟩
      (.string ⟨[], by decide⟩) := by
  intro back
  have noNumeral : ¬ IsNumeral [] := by
    rintro (digits | ⟨x, digits, same, -⟩ | ⟨image, same⟩)
    · exact digits.1 rfl
    · cases same
    · cases same
  have noBoolean : ¬ IsBoolean [] := by
    rintro (word | word)
    · cases word
    · cases word
  have same := back noNumeral noBoolean
  rw [jsSubstStr_reference (by decide) rfl] at same
  cases same

end Tvntd.VarSubst
