import Tvntd.Lib.Loop
import Tvntd.Tools.Json2Cpp

/-! # Names in their buffers

The loops of `conv_field_name` and `conv_class_name` of `tools/json/json2c++.cpp`,
read by read and write by write. A key is its bytes and the terminator, and the
output is a buffer of `name_size` bytes; a read or a write outside has no
outcome.

`conv_class_name` steps over a run of separators and then once more. Behind a run
that ends the key this is a step over the terminator.
-/

namespace Tvntd.CppJson

open Numerals (isupper tolower)

/-- `toupper` -/
def toupper (c : Byte) : Byte := if 97#8 ≤ c && c ≤ 122#8 then c - 32#8 else c

/-- `src[i]` -/
def readKey (key : CStr) (i : Nat) : Option Byte := (key.bytes ++ [0#8])[i]?

/-- `*dst++ = c` -/
def putChar (out : List Byte) (c : Byte) : Option (List Byte) :=
  if out.length < nameSize then some (out ++ [c]) else none

/-- `*src == '-' || *src == '_'` -/
def isSeparator (c : Byte) : Bool := c = 45#8 || c = 95#8

/-- The index of `src`, and the bytes in front of `dst`. -/
structure FieldWalk where
  src : Nat
  out : List Byte

/-- `conv_field_name`, with the bytes it leaves in the buffer. -/
def convFieldWalk (key : CStr) : Loop FieldWalk (List Byte) where
  turn walk := do
    let c ← readKey key walk.src
    if c = 0#8 ∨ c = 58#8 then
      let out ← putChar walk.out 0#8
      return .inr out
    else if c = 45#8 then
      let out ← putChar walk.out 95#8
      return .inl ⟨walk.src + 1, out⟩
    else
      let out ← if isupper c then putChar walk.out 95#8 else some walk.out
      let out ← putChar out (tolower c)
      return .inl ⟨walk.src + 1, out⟩

/-- The same, and whether the inner loop runs. -/
structure ClassWalk where
  inner : Bool
  src : Nat
  out : List Byte

/-- `conv_class_name`, with the bytes it leaves in the buffer. -/
def convClassWalk (key : CStr) : Loop ClassWalk (List Byte) where
  turn walk := do
    let c ← readKey key walk.src
    if walk.inner then
      if isSeparator c ∧ c ≠ 0#8 then
        return .inl { walk with src := walk.src + 1 }
      else
        let out ← if c ≠ 0#8 then putChar walk.out (toupper c) else some walk.out
        -- the outer loop advances, whatever stopped the inner one
        return .inl ⟨false, walk.src + 1, out⟩
    else if c = 0#8 ∨ c = 58#8 then
      let out ← putChar walk.out 0#8
      return .inr out
    else if isSeparator c then
      return .inl { walk with inner := true }
    else
      let out ← putChar walk.out (if walk.src = 0 then toupper c else c)
      return .inl { walk with src := walk.src + 1, out := out }

/-- The call returns, having stayed in the key and in the buffer. -/
def FieldSafe (key : CStr) : Prop := ∃ out, (convFieldWalk key).Returns ⟨0, []⟩ out

/-- The same for the name of a class. -/
def ClassSafe (key : CStr) : Prop := ∃ out, (convClassWalk key).Returns ⟨false, 0, []⟩ out

/-! ## What fits -/

/-- The bytes in front of the first colon. -/
def stem (key : CStr) : List Byte := key.bytes.takeWhile fun c => c ≠ 58#8

/-- A byte for each byte of the stem, one more for each capital, and the terminator. -/
def FieldFits (key : CStr) : Prop := (stem key).length + (stem key).countP isupper < nameSize

/-- The bytes in front of the first colon that is not behind a separator. -/
def scanned : Bool → List Byte → List Byte
  | _, [] => []
  | behind, c :: rest =>
      if c = 58#8 ∧ behind = false then [] else c :: scanned (isSeparator c) rest

/-- These bytes end in no separator, and those that are none fit with the terminator. -/
def ClassFits (key : CStr) : Prop :=
  (∀ last ∈ (scanned false key.bytes).getLast?, isSeparator last = false) ∧
    (scanned false key.bytes).countP (fun c => !isSeparator c) < nameSize

instance (key : CStr) : Decidable (FieldFits key) := inferInstanceAs (Decidable (_ < _))

instance (key : CStr) : Decidable (ClassFits key) :=
  inferInstanceAs (Decidable ((∀ last ∈ (scanned false key.bytes).getLast?, _) ∧ _))

variable {key : CStr} {before rest out : List Byte} {c : Byte}

theorem readKey_nil (split : key.bytes = before) : readKey key before.length = some 0#8 := by
  simp [readKey, split]

private theorem readKey_cons (split : key.bytes = before ++ c :: rest) :
    readKey key before.length = some c := by
  simp [readKey, split]

/-- A read behind the terminator. -/
theorem readKey_behind (split : key.bytes = before) : readKey key (before.length + 1) = none := by
  simp [readKey, split]

private theorem ne_zero_of_split (split : key.bytes = before ++ c :: rest) : c ≠ 0#8 := by
  rintro rfl
  exact key.ended (by simp [split])

/-! ## Fields -/

/-- What a byte of a key becomes, written into the buffer. -/
theorem convFieldWalk_turn (out : List Byte) (split : key.bytes = before ++ c :: rest)
    (other : c ≠ 58#8) :
    (convFieldWalk key).turn ⟨before.length, out⟩ =
      if (out ++ convFieldByte c).length ≤ nameSize then
        some (.inl ⟨before.length + 1, out ++ convFieldByte c⟩)
      else none := by
  have nonzero := ne_zero_of_split split
  simp only [convFieldWalk, readKey_cons split, nonzero, other, or_self, if_false,
    Option.bind_eq_bind, Option.bind_some]
  by_cases dash : c = 45#8
  · simp only [dash, if_true, convFieldByte, List.length_append, List.length_singleton, putChar]
    by_cases room : out.length < nameSize
    · rw [if_pos room, if_pos (by omega)]
      rfl
    · rw [if_neg room, if_neg (by omega)]
      rfl
  · simp only [dash, if_false, convFieldByte]
    cases capital : isupper c with
    | false =>
        simp only [Bool.false_eq_true, if_false, List.nil_append, List.length_append,
          List.length_singleton, putChar]
        by_cases room : out.length < nameSize
        · rw [if_pos room, if_pos (by omega)]
          rfl
        · rw [if_neg room, if_neg (by omega)]
          rfl
    | true =>
        simp only [if_true, List.length_append, List.length_singleton, putChar]
        by_cases room : out.length < nameSize
        · simp only [room, if_true, Option.bind_some, List.length_append, List.length_singleton]
          by_cases more : out.length + 1 < nameSize
          · rw [if_pos more, if_pos (by omega)]
            simp
          · rw [if_neg more, if_neg (by omega)]
            rfl
        · rw [if_neg room, if_neg (by omega)]
          rfl

private theorem convFieldWalk_ends (out : List Byte) (c : Byte)
    (found : readKey key before.length = some c)
    (ends : c = 0#8 ∨ c = 58#8) : (convFieldWalk key).turn ⟨before.length, out⟩ =
      if out.length < nameSize then some (.inr (out ++ [0#8])) else none := by
  simp only [convFieldWalk, found, ends, if_true, Option.bind_eq_bind, Option.bind_some, putChar]
  split <;> rfl

/-- **The loop of `conv_field_name`** leaves the name and a terminator, if there is room. -/
theorem convFieldWalk_returns_iff : ∀ {rest before : List Byte} (out left : List Byte),
    key.bytes = before ++ rest → ((convFieldWalk key).Returns ⟨before.length, out⟩ left ↔
      (out ++ convFieldLoop rest).length < nameSize ∧
        left = out ++ convFieldLoop rest ++ [0#8]) := by
  have stops : ∀ {before out left : List Byte} (c : Byte),
      readKey key before.length = some c → (c = 0#8 ∨ c = 58#8) →
        ((convFieldWalk key).Returns ⟨before.length, out⟩ left ↔
          out.length < nameSize ∧ left = out ++ [0#8]) := by
    intro before out left c found ends
    have turn := convFieldWalk_ends out c found ends
    by_cases room : out.length < nameSize
    · rw [if_pos room] at turn
      have returned := Loop.returns_of_done turn
      exact ⟨fun again => ⟨room, again.unique returned⟩, fun right => right.2 ▸ returned⟩
    · rw [if_neg room] at turn
      exact iff_of_false (Loop.not_returns_of_stuck turn) fun right => room right.1
  intro rest
  induction rest with
  | nil =>
      intro before out left split
      rw [List.append_nil] at split
      rw [stops 0#8 (readKey_nil split) (.inl rfl), convFieldLoop, List.append_nil]
  | cons c rest ih =>
      intro before out left split
      by_cases colon : c = 58#8
      · rw [stops c (readKey_cons split) (.inr colon), convFieldLoop, if_pos colon,
          List.append_nil]
      · have turn := convFieldWalk_turn out split colon
        rw [convFieldLoop, if_neg colon, ← List.append_assoc]
        have later : key.bytes = (before ++ [c]) ++ rest := by
          rw [split, List.append_assoc, List.singleton_append]
        have next := ih (out ++ convFieldByte c) left later
        rw [List.length_append, List.length_singleton] at next
        by_cases room : (out ++ convFieldByte c).length ≤ nameSize
        · rw [if_pos room] at turn
          rw [← next]
          exact ⟨fun returns => returns.tail turn, fun returns => returns.of_turn turn⟩
        · rw [if_neg room] at turn
          refine iff_of_false (Loop.not_returns_of_stuck turn) ?_
          rintro ⟨fits, -⟩
          rw [List.length_append] at fits
          omega

private theorem length_convFieldByte (c : Byte) :
    (convFieldByte c).length = 1 + if isupper c then 1 else 0 := by
  unfold convFieldByte
  by_cases dash : c = 45#8
  · rw [if_pos dash, dash]
    rfl
  · rw [if_neg dash]
    cases isupper c <;> rfl

private theorem length_convFieldLoop (bytes : List Byte) : (convFieldLoop bytes).length =
    (bytes.takeWhile fun c => c ≠ 58#8).length +
      (bytes.takeWhile fun c => c ≠ 58#8).countP isupper := by
  induction bytes with
  | nil => rfl
  | cons c rest ih =>
      rw [convFieldLoop]
      by_cases colon : c = 58#8
      · simp [colon]
      · rw [if_neg colon, List.length_append, length_convFieldByte, ih,
          List.takeWhile_cons_of_pos (by simpa using colon), List.length_cons, List.countP_cons]
        omega

private theorem fieldSafe_iff (key : CStr) : FieldSafe key ↔ FieldFits key := by
  unfold FieldSafe FieldFits stem
  have whole : key.bytes = [] ++ key.bytes := rfl
  have returns := fun left => convFieldWalk_returns_iff [] left whole
  rw [← length_convFieldLoop]
  constructor
  · rintro ⟨left, returned⟩
    exact ((returns left).mp returned).1
  · exact fun fits => ⟨_, (returns _).mpr ⟨fits, rfl⟩⟩

/-! ## Classes -/

/-- The call returns from here. -/
def ClassReturns (key : CStr) (walk : ClassWalk) : Prop :=
  ∃ out, (convClassWalk key).Returns walk out

variable {inner : Bool}

private theorem classReturns_of_turn {walk next : ClassWalk}
    (turn : (convClassWalk key).turn walk = some (.inl next)) :
    ClassReturns key walk ↔ ClassReturns key next :=
  ⟨fun ⟨out, returned⟩ => ⟨out, returned.tail turn⟩,
    fun ⟨out, returned⟩ => ⟨out, returned.of_turn turn⟩⟩

private theorem not_classReturns_of_stuck {walk : ClassWalk}
    (stuck : (convClassWalk key).turn walk = none) : ¬ ClassReturns key walk :=
  fun ⟨_, returned⟩ => Loop.not_returns_of_stuck stuck returned

/-- The end of the outer loop needs room for the terminator. -/
theorem classReturns_end (found : readKey key before.length = some c)
    (ends : c = 0#8 ∨ c = 58#8) :
    ClassReturns key ⟨false, before.length, out⟩ ↔ out.length < nameSize := by
  have turn : (convClassWalk key).turn ⟨false, before.length, out⟩ =
      if out.length < nameSize then some (.inr (out ++ [0#8])) else none := by
    simp only [convClassWalk, found, ends, Bool.false_eq_true, if_false, if_true,
      Option.bind_eq_bind, Option.bind_some, putChar]
    split <;> rfl
  by_cases room : out.length < nameSize
  · rw [if_pos room] at turn
    exact iff_of_true ⟨_, Loop.returns_of_done turn⟩ room
  · rw [if_neg room] at turn
    exact iff_of_false (not_classReturns_of_stuck turn) room

/-- A separator is passed by the inner loop, which goes on behind it. -/
theorem classReturns_separator (split : key.bytes = before ++ c :: rest)
    (separates : isSeparator c = true) : ClassReturns key ⟨inner, before.length, out⟩ ↔
      ClassReturns key ⟨true, before.length + 1, out⟩ := by
  have nonzero := ne_zero_of_split split
  have passes : (convClassWalk key).turn ⟨true, before.length, out⟩ =
      some (.inl ⟨true, before.length + 1, out⟩) := by
    simp [convClassWalk, readKey_cons split, separates, nonzero]
  cases inner with
  | true => exact classReturns_of_turn passes
  | false =>
      have plain : c ≠ 58#8 := by
        rintro rfl
        exact absurd separates (by decide)
      have enters : (convClassWalk key).turn ⟨false, before.length, out⟩ =
          some (.inl ⟨true, before.length, out⟩) := by
        simp [convClassWalk, readKey_cons split, separates, nonzero, plain]
      rw [classReturns_of_turn enters, classReturns_of_turn passes]

/-- Another byte is written, also a colon if a separator stands in front of it. -/
theorem classReturns_plain (split : key.bytes = before ++ c :: rest)
    (plain : isSeparator c = false) (goes : ¬ (c = 58#8 ∧ inner = false)) :
    ClassReturns key ⟨inner, before.length, out⟩ ↔ out.length < nameSize ∧
      ClassReturns key ⟨false, before.length + 1,
        out ++ [if inner ∨ before.length = 0 then toupper c else c]⟩ := by
  have nonzero := ne_zero_of_split split
  have turn : (convClassWalk key).turn ⟨inner, before.length, out⟩ =
      if out.length < nameSize then some (.inl ⟨false, before.length + 1,
        out ++ [if inner ∨ before.length = 0 then toupper c else c]⟩) else none := by
    cases inner with
    | true =>
        simp only [convClassWalk, readKey_cons split, plain, nonzero, Option.bind_eq_bind,
          Option.bind_some, if_true, Bool.false_eq_true, false_and, if_false, ne_eq,
          not_false_eq_true, true_or, putChar]
        split <;> rfl
    | false =>
        have colon : c ≠ 58#8 := fun same => goes ⟨same, rfl⟩
        simp only [convClassWalk, readKey_cons split, plain, nonzero, colon, Option.bind_eq_bind,
          Option.bind_some, Bool.false_eq_true, if_false, false_or, putChar]
        split <;> rfl
  by_cases room : out.length < nameSize
  · rw [if_pos room] at turn
    rw [classReturns_of_turn turn]
    exact (and_iff_right room).symm
  · rw [if_neg room] at turn
    exact iff_of_false (not_classReturns_of_stuck turn) fun right => room right.1

/-- Behind the terminator there is nothing to read. -/
theorem not_classReturns_inner (split : key.bytes = before) :
    ¬ ClassReturns key ⟨true, before.length, out⟩ := by
  have steps : (convClassWalk key).turn ⟨true, before.length, out⟩ =
      some (.inl ⟨false, before.length + 1, out⟩) := by
    simp [convClassWalk, readKey_nil split]
  have stuck : (convClassWalk key).turn ⟨false, before.length + 1, out⟩ = none := by
    simp [convClassWalk, readKey_behind split]
  rw [classReturns_of_turn steps]
  exact not_classReturns_of_stuck stuck

/-- The last byte is no separator; in front of no byte, the inner loop does not run. -/
def EndsPlain (inner : Bool) (bytes : List Byte) : Prop :=
  bytes.getLast?.elim inner isSeparator = false

private theorem endsPlain_cons (inner : Bool) (c : Byte) (bytes : List Byte) :
    EndsPlain inner (c :: bytes) ↔ EndsPlain (isSeparator c) bytes := by
  unfold EndsPlain
  rw [List.getLast?_cons]
  cases bytes.getLast? <;> rfl

/-- **The loops of `conv_class_name`** return where the bytes they scan end in no separator and
their name fits. -/
theorem classReturns_iff : ∀ {rest before : List Byte} (out : List Byte) (inner : Bool),
    key.bytes = before ++ rest → (ClassReturns key ⟨inner, before.length, out⟩ ↔
      EndsPlain inner (scanned inner rest) ∧
        out.length + (scanned inner rest).countP (fun c => !isSeparator c) < nameSize) := by
  intro rest
  induction rest with
  | nil =>
      intro before out inner split
      rw [List.append_nil] at split
      cases inner with
      | true => exact iff_of_false (not_classReturns_inner split) (by simp [scanned, EndsPlain])
      | false =>
          rw [classReturns_end (readKey_nil split) (.inl rfl)]
          simp [scanned, EndsPlain]
  | cons c rest ih =>
      intro before out inner split
      have later : key.bytes = (before ++ [c]) ++ rest := by
        rw [split, List.append_assoc, List.singleton_append]
      have length : (before ++ [c]).length = before.length + 1 := by simp
      by_cases colon : c = 58#8 ∧ inner = false
      · obtain ⟨rfl, rfl⟩ := colon
        rw [classReturns_end (readKey_cons split) (.inr rfl)]
        simp [scanned, EndsPlain]
      · rw [scanned, if_neg colon, endsPlain_cons, List.countP_cons]
        cases separates : isSeparator c with
        | true =>
            have next := ih out true later
            rw [length] at next
            rw [classReturns_separator split separates, next]
            simp
        | false =>
            have next := ih (out ++ [if inner ∨ before.length = 0 then toupper c else c]) false
              later
            rw [length] at next
            rw [classReturns_plain split separates colon, next, List.length_append,
              List.length_singleton]
            simp only [Bool.not_false, if_true]
            constructor
            · rintro ⟨-, ends, fits⟩
              exact ⟨ends, by omega⟩
            · rintro ⟨ends, fits⟩
              exact ⟨by omega, ends, by omega⟩

private theorem classSafe_iff (key : CStr) : ClassSafe key ↔ ClassFits key := by
  have whole : key.bytes = [] ++ key.bytes := rfl
  have returns := classReturns_iff [] false whole
  rw [List.length_nil, Nat.zero_add] at returns
  refine returns.trans (and_congr_left fun _ => ?_)
  unfold EndsPlain
  cases (scanned false key.bytes).getLast? <;> simp

/-- **Both names.** The calls stay in the key and in the buffer exactly where both names fit and
no separator ends what is scanned. -/
theorem namesSafe_iff_fit (key : CStr) :
    FieldSafe key ∧ ClassSafe key ↔ FieldFits key ∧ ClassFits key :=
  and_congr (fieldSafe_iff key) (classSafe_iff key)

/-- The key `a-`: the class name is sought behind its terminator. -/
theorem lastDash_not_safe : ¬ ∀ key : CStr, FieldSafe key ∧ ClassSafe key := by
  intro safe
  have returns := (safe ⟨[97#8, 45#8], by decide⟩).2
  exact absurd ((classSafe_iff _).mp returns) (by decide)

end Tvntd.CppJson
