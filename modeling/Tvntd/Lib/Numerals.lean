import Mathlib.Data.List.TakeWhile
import Mathlib.Data.Nat.Digits.Lemmas

/-! # Numerals of the C library

Text is a list of bytes without the terminator. `strtoull` and `strtod` give the number with the
text behind the numeral, and the whole text where there is no numeral. A `double` is its IEEE 754
image; conversions round to the nearest one, ties to even. The locale is "C".
-/

namespace Numerals

abbrev Text := List (BitVec 8)

def isupper (c : BitVec 8) : Bool := 65#8 ≤ c && c ≤ 90#8

def tolower (c : BitVec 8) : BitVec 8 := if isupper c then c + 32#8 else c

def isspace (c : BitVec 8) : Bool := c = 32#8 || (9#8 ≤ c && c ≤ 13#8)

/-- The digit a byte stands for, letters after the decimal digits; 36 for any other byte. -/
def digitValue (c : BitVec 8) : Nat :=
  if 48#8 ≤ c && c ≤ 57#8 then c.toNat - 48
  else if 97#8 ≤ tolower c && tolower c ≤ 122#8 then (tolower c).toNat - 87
  else 36

def isDigit (base : Nat) (c : BitVec 8) : Bool := digitValue c < base

def ofDigits (base : Nat) (digits : Text) : Nat :=
  digits.foldl (fun num c => base * num + digitValue c) 0

/-- A sign in front, `true` for a minus, and what is behind it. -/
def sign : Text → Bool × Text
  | 45#8 :: rest => (true, rest)
  | 43#8 :: rest => (false, rest)
  | str => (false, str)

/-- The bytes a numeral may have. -/
def inNumeral (c : BitVec 8) : Bool :=
  isspace c || isDigit 36 c || [40#8, 41#8, 43#8, 45#8, 46#8, 95#8].contains c

/-! ## Integers -/

/-- Past the prefix `0x` of a hexadecimal numeral. -/
def hexPrefix : Text → Text
  | 48#8 :: x :: c :: rest =>
      if tolower x = 120#8 && isDigit 16 c then c :: rest else 48#8 :: x :: c :: rest
  | str => str

/-- An out of range numeral gives `ULLONG_MAX`; a minus negates modulo `2 ^ 64`. -/
def strtoull (base : Nat) (str : Text) : BitVec 64 × Text :=
  let (negative, unsigned) := sign (str.dropWhile isspace)
  let body := if base = 16 then hexPrefix unsigned else unsigned
  let digits := body.takeWhile (isDigit base)
  let num := ofDigits base digits
  if digits = [] then (0#64, str)
  else
    (if 2 ^ 64 ≤ num then BitVec.allOnes 64
      else if negative then -BitVec.ofNat 64 num else BitVec.ofNat 64 num,
    body.dropWhile (isDigit base))

def decimal (num : Nat) : Text := (Nat.toDigits 10 num).map fun c => BitVec.ofNat 8 c.toNat

/-- `std::to_string` of a `long long` -/
def toStringInteger (num : BitVec 64) : Text :=
  if num.toInt < 0 then 45#8 :: decimal num.toInt.natAbs else decimal num.toInt.natAbs

/-! ## Doubles -/

/-- `num / den`, rounded to the nearest natural number, ties to even. -/
def roundQuotient (num den : Nat) : Nat :=
  let quotient := num / den
  let twice := 2 * (num % den)
  if twice < den then quotient
  else if den < twice then quotient + 1
  else quotient + quotient % 2

/-- `num / den / 2 ^ exponent` as a quotient. -/
def scale (num den : Nat) (exponent : Int) : Nat × Nat :=
  (num * 2 ^ (-exponent).toNat, den * 2 ^ exponent.toNat)

/-- `HUGE_VAL` -/
def hugeVal : BitVec 64 := 0x7ff0000000000000#64

def nanImage : BitVec 64 := 0x7ff8000000000000#64

def signBit : BitVec 64 := 0x8000000000000000#64

/-- The double next to `num / den`, by the exponent of its last bit. -/
def nearest (num den : Nat) : BitVec 64 :=
  if num = 0 then 0#64
  else
    let guess : Int := (Nat.log2 num : Int) - Nat.log2 den
    let (top, bottom) := scale num den guess
    let exponent := max (if bottom ≤ top then guess - 52 else guess - 53) (-1074)
    let (top, bottom) := scale num den exponent
    let image := (exponent + 1074).toNat * 2 ^ 52 + roundQuotient top bottom
    if hugeVal.toNat ≤ image then hugeVal else BitVec.ofNat 64 image

/-- The digits of a fraction, as a number with the count of digits behind the point. -/
def mantissa (base : Nat) (str : Text) : Option ((Nat × Nat) × Text) :=
  let whole := str.takeWhile (isDigit base)
  let rest := str.dropWhile (isDigit base)
  let (part, rest) := match rest with
    | 46#8 :: behind => (behind.takeWhile (isDigit base), behind.dropWhile (isDigit base))
    | rest => ([], rest)
  if whole = [] && part = [] then none
  else some ((ofDigits base (whole ++ part), part.length), rest)

/-- An exponent behind its letter, if one follows. -/
def exponentPart (letter : BitVec 8) (str : Text) : Int × Text :=
  match str with
  | c :: behind =>
      let (negative, unsigned) := sign behind
      let digits := unsigned.takeWhile (isDigit 10)
      if tolower c = letter && !digits.isEmpty then
        (if negative then -(ofDigits 10 digits : Int) else ofDigits 10 digits,
          unsigned.dropWhile (isDigit 10))
      else (0, str)
  | [] => (0, [])

/-- `num * base ^ exponent` as a double. -/
def power (base num : Nat) (exponent : Int) : BitVec 64 :=
  nearest (num * base ^ exponent.toNat) (base ^ (-exponent).toNat)

def decimalFloat (str : Text) : Option (BitVec 64 × Text) :=
  (mantissa 10 str).map fun ((num, places), rest) =>
    let (exponent, rest) := exponentPart 101#8 rest
    (power 10 num (exponent - places), rest)

def hexFloat : Text → Option (BitVec 64 × Text)
  | 48#8 :: x :: str =>
      if tolower x = 120#8 then
        (mantissa 16 str).map fun ((num, places), rest) =>
          let (exponent, rest) := exponentPart 112#8 rest
          (power 2 num (exponent - 4 * places), rest)
      else none
  | _ => none

/-- What is behind a word, in either case of letters. -/
def word : Text → Text → Option Text
  | [], str => some str
  | w :: ws, c :: str => if tolower c = w then word ws str else none
  | _ :: _, [] => none

/-- `(…)` behind `nan` -/
def nanSequence (str : Text) : Text :=
  match str with
  | 40#8 :: behind =>
      match behind.dropWhile fun c => isDigit 36 c || c = 95#8 with
      | 41#8 :: rest => rest
      | _ => str
  | _ => str

def strtodUnsigned (str : Text) : Option (BitVec 64 × Text) :=
  (hexFloat str).or <| (decimalFloat str).or <|
    ((word [105#8, 110#8, 102#8, 105#8, 110#8, 105#8, 116#8, 121#8] str).map (hugeVal, ·)).or <|
    ((word [105#8, 110#8, 102#8] str).map (hugeVal, ·)).or <|
    (word [110#8, 97#8, 110#8] str).map fun rest => (nanImage, nanSequence rest)

def strtod (str : Text) : BitVec 64 × Text :=
  let (negative, unsigned) := sign (str.dropWhile isspace)
  match strtodUnsigned unsigned with
  | some (image, rest) => (if negative then image ||| signBit else image, rest)
  | none => (0#64, str)

/-- `std::isfinite` -/
def isfinite (image : BitVec 64) : Bool := image &&& hugeVal != hugeVal

/-- `std::to_string` of a `double`: six digits behind the point. -/
def toStringDouble (image : BitVec 64) : Text :=
  let fraction := (image &&& 0x000fffffffffffff#64).toNat
  let biased := ((image &&& hugeVal) >>> 52).toNat
  (if image &&& signBit = 0#64 then [] else [45#8]) ++
    if !isfinite image then
      if fraction = 0 then [105#8, 110#8, 102#8] else [110#8, 97#8, 110#8]
    else
      let (num, exponent) : Nat × Int :=
        if biased = 0 then (fraction, -1074) else (fraction + 2 ^ 52, (biased : Int) - 1075)
      let (top, bottom) := scale (num * 10 ^ 6) 1 (-exponent)
      let millionths := roundQuotient top bottom
      let part := decimal (millionths % 10 ^ 6)
      decimal (millionths / 10 ^ 6) ++ 46#8 :: (List.replicate (6 - part.length) 48#8 ++ part)

/-! ## Bytes no numeral has

A conversion does not get past such a byte: the text behind the numeral still has it. -/

theorem mem_dropWhile {c : BitVec 8} {p : BitVec 8 → Bool} (stays : p c = false) {str : Text}
    (inside : c ∈ str) :
    c ∈ str.dropWhile p := by
  rw [← @List.takeWhile_append_dropWhile _ p str, List.mem_append] at inside
  rcases inside with early | late
  · rw [List.mem_takeWhile_imp early] at stays
    cases stays
  · exact late

section Foreign

variable {c : BitVec 8} (foreign : inNumeral c = false)

include foreign

private theorem not_isspace : isspace c = false := by
  have parts := foreign
  simp only [inNumeral, Bool.or_eq_false_iff] at parts
  exact parts.1.1

private theorem not_isDigit {base : Nat} (small : base ≤ 36) : isDigit base c = false := by
  have parts := foreign
  simp only [inNumeral, Bool.or_eq_false_iff, isDigit, decide_eq_false_iff_not] at parts
  have large : ¬ digitValue c < 36 := parts.1.2
  simp only [isDigit, decide_eq_false_iff_not]
  omega

private theorem not_punctuation {other : BitVec 8}
    (inside : other ∈ [40#8, 41#8, 43#8, 45#8, 46#8, 95#8]) : c ≠ other := by
  intro same
  subst same
  have present : inNumeral c = true := by
    rw [inNumeral, List.contains_iff_mem.mpr inside, Bool.or_true]
  rw [foreign] at present
  cases present

/-- A letter is a digit of base 36. -/
theorem tolower_ne {letter : BitVec 8} (low : 97#8 ≤ letter) (high : letter ≤ 122#8) :
    tolower c ≠ letter := by
  intro same
  have large := not_isDigit foreign (Nat.le_refl 36)
  simp only [isDigit, digitValue, decide_eq_false_iff_not, same] at large
  apply large
  have bounded : letter.toNat ≤ 122 := high
  split
  · rename_i digit
    have below : c ≤ 57#8 := of_decide_eq_true (Bool.and_eq_true_iff.mp digit).2
    have upper : c.toNat ≤ 57 := BitVec.le_def.mp below
    omega
  · rw [if_pos (by simp [low, high])]
    omega

private theorem mem_sign {str : Text} (inside : c ∈ str) : c ∈ (sign str).2 := by
  unfold sign
  split
  · exact (List.mem_cons.mp inside).resolve_left (not_punctuation foreign (by decide))
  · exact (List.mem_cons.mp inside).resolve_left (not_punctuation foreign (by decide))
  · exact inside

private theorem mem_behind_prefix {x : BitVec 8} {rest : Text} (isX : tolower x = 120#8)
    (inside : c ∈ 48#8 :: x :: rest) : c ∈ rest := by
  have notZero : c ≠ 48#8 := by
    intro same
    subst same
    exact absurd (not_isDigit foreign (Nat.le_refl 36)) (by decide)
  have notX : c ≠ x := fun same => tolower_ne foreign (by decide) (by decide) (same ▸ isX)
  exact (List.mem_cons.mp ((List.mem_cons.mp inside).resolve_left notZero)).resolve_left notX

private theorem mem_hexPrefix {str : Text} (inside : c ∈ str) : c ∈ hexPrefix str := by
  unfold hexPrefix
  split
  · rename_i x d rest
    split
    · rename_i marked
      have isX : tolower x = 120#8 := of_decide_eq_true (Bool.and_eq_true_iff.mp marked).1
      exact mem_behind_prefix foreign isX inside
    · exact inside
  · exact inside

theorem mem_strtoull {base : Nat} (small : base ≤ 36) {str : Text} (inside : c ∈ str) :
    c ∈ (strtoull base str).2 := by
  have unsigned := mem_sign foreign (mem_dropWhile (not_isspace foreign) inside)
  have body : c ∈ if base = 16 then hexPrefix (sign (str.dropWhile isspace)).2
      else (sign (str.dropWhile isspace)).2 := by
    split
    · exact mem_hexPrefix foreign unsigned
    · exact unsigned
  unfold strtoull
  simp only
  generalize (if base = 16 then hexPrefix (sign (str.dropWhile isspace)).2
    else (sign (str.dropWhile isspace)).2) = digits at body
  by_cases empty : digits.takeWhile (isDigit base) = []
  · rw [if_pos empty]
    exact inside
  · rw [if_neg empty]
    exact mem_dropWhile (not_isDigit foreign small) body

private theorem mem_mantissa {base : Nat} (small : base ≤ 36) {str : Text} (inside : c ∈ str)
    {found : (Nat × Nat) × Text} (parsed : mantissa base str = some found) : c ∈ found.2 := by
  have digit := not_isDigit foreign small
  have behind := mem_dropWhile digit inside
  unfold mantissa at parsed
  generalize str.dropWhile (isDigit base) = rest at parsed behind
  simp only at parsed
  split at parsed
  · rename_i fraction
    have later : c ∈ fraction :=
      (List.mem_cons.mp behind).resolve_left (not_punctuation foreign (by decide))
    split at parsed
    · cases parsed
    · cases parsed
      exact mem_dropWhile digit later
  · split at parsed
    · cases parsed
    · cases parsed
      exact behind

private theorem mem_exponentPart {letter : BitVec 8} (low : 97#8 ≤ letter) (high : letter ≤ 122#8)
    {str : Text} (inside : c ∈ str) : c ∈ (exponentPart letter str).2 := by
  cases str with
  | nil => cases inside
  | cons first behind =>
      unfold exponentPart
      simp only
      split
      · rename_i marked
        have isLetter : tolower first = letter :=
          of_decide_eq_true (Bool.and_eq_true_iff.mp marked).1
        have notFirst : c ≠ first := fun same => tolower_ne foreign low high (same ▸ isLetter)
        apply mem_dropWhile (not_isDigit foreign (by decide))
        exact mem_sign foreign ((List.mem_cons.mp inside).resolve_left notFirst)
      · exact inside

private theorem mem_decimalFloat {str : Text} (inside : c ∈ str) {found : BitVec 64 × Text}
    (parsed : decimalFloat str = some found) : c ∈ found.2 := by
  obtain ⟨digits, read, rfl⟩ := Option.map_eq_some_iff.mp parsed
  exact mem_exponentPart foreign (by decide) (by decide)
    (mem_mantissa foreign (by decide) inside read)

private theorem mem_hexFloat {str : Text} (inside : c ∈ str) {found : BitVec 64 × Text}
    (parsed : hexFloat str = some found) : c ∈ found.2 := by
  unfold hexFloat at parsed
  split at parsed
  · rename_i x rest
    split at parsed
    · rename_i isX
      have behind := mem_behind_prefix foreign isX inside
      obtain ⟨digits, read, rfl⟩ := Option.map_eq_some_iff.mp parsed
      exact mem_exponentPart foreign (by decide) (by decide)
        (mem_mantissa foreign (by decide) behind read)
    · cases parsed
  · cases parsed

private theorem mem_word {letters str rest : Text}
    (isWord : ∀ letter ∈ letters, 97#8 ≤ letter ∧ letter ≤ 122#8) (inside : c ∈ str)
    (read : word letters str = some rest) : c ∈ rest := by
  induction letters generalizing str with
  | nil =>
      cases read
      exact inside
  | cons letter letters ih =>
      cases str with
      | nil => cases inside
      | cons first behind =>
          rw [word] at read
          split at read
          · rename_i isLetter
            have bounds := isWord letter List.mem_cons_self
            have notFirst : c ≠ first :=
              fun same => tolower_ne foreign bounds.1 bounds.2 (same ▸ isLetter)
            apply ih _ ((List.mem_cons.mp inside).resolve_left notFirst) read
            exact fun other later => isWord other (List.mem_cons_of_mem _ later)
          · cases read

private theorem mem_nanSequence {str : Text} (inside : c ∈ str) : c ∈ nanSequence str := by
  unfold nanSequence
  split
  · rename_i behind
    split
    · rename_i rest closed
      have inBehind : c ∈ behind :=
        (List.mem_cons.mp inside).resolve_left (not_punctuation foreign (by decide))
      have underscore : c ≠ 95#8 := not_punctuation foreign (by decide)
      have stays : (isDigit 36 c || decide (c = 95#8)) = false := by
        rw [not_isDigit foreign (Nat.le_refl 36), decide_eq_false underscore, Bool.or_false]
      have remaining := @mem_dropWhile c (fun b => isDigit 36 b || b = 95#8) stays _ inBehind
      rw [closed] at remaining
      exact (List.mem_cons.mp remaining).resolve_left (not_punctuation foreign (by decide))
    · exact inside
  · exact inside

private theorem mem_strtodUnsigned {str : Text} (inside : c ∈ str) {found : BitVec 64 × Text}
    (parsed : strtodUnsigned str = some found) : c ∈ found.2 := by
  unfold strtodUnsigned at parsed
  simp only [Option.or_eq_some_iff, Option.map_eq_some_iff] at parsed
  rcases parsed with hex | ⟨-, dec | ⟨-, ⟨rest, read, rfl⟩ | ⟨-, ⟨rest, read, rfl⟩ |
    ⟨-, ⟨rest, read, rfl⟩⟩⟩⟩⟩
  · exact mem_hexFloat foreign inside hex
  · exact mem_decimalFloat foreign inside dec
  · exact mem_word foreign (by decide) inside read
  · exact mem_word foreign (by decide) inside read
  · exact mem_nanSequence foreign (mem_word foreign (by decide) inside read)

theorem mem_strtod {str : Text} (inside : c ∈ str) : c ∈ (strtod str).2 := by
  have unsigned := mem_sign foreign (mem_dropWhile (not_isspace foreign) inside)
  unfold strtod
  simp only
  split
  · rename_i parsed
    have kept := mem_strtodUnsigned foreign unsigned parsed
    exact kept
  · exact inside

end Foreign

/-! ## Texts that are numerals to their end -/

/-- What is behind blanks and a sign. -/
def unsigned (str : Text) : Text := (sign (str.dropWhile isspace)).2

/-- Digits, one at least. -/
def Digits (base : Nat) (str : Text) : Prop := str ≠ [] ∧ ∀ c ∈ str, isDigit base c = true

/-- `0x` and hexadecimal digits. -/
def Prefixed (str : Text) : Prop :=
  ∃ x digits, str = 48#8 :: x :: digits ∧ tolower x = 120#8 ∧ Digits 16 digits

/-- A real, an infinity or a NaN. -/
def IsReal (str : Text) : Prop := ∃ image, strtodUnsigned str = some (image, [])

theorem Digits.mono {base other : Nat} {str : Text} (le : base ≤ other) (digits : Digits base str) :
    Digits other str := by
  refine ⟨digits.1, fun c inside => ?_⟩
  have small := of_decide_eq_true (digits.2 c inside)
  exact decide_eq_true (Nat.lt_of_lt_of_le small le)

theorem not_isDigit_of_x {x : BitVec 8} (isX : tolower x = 120#8) : isDigit 16 x = false := by
  have upper : digitValue x = if 48#8 ≤ x && x ≤ 57#8 then x.toNat - 48 else 33 := by
    unfold digitValue
    rw [isX]
    rfl
  have noDecimal : ¬ ((48#8 ≤ x && x ≤ 57#8) = true) := by
    intro decimal
    rw [Bool.and_eq_true, decide_eq_true_eq, decide_eq_true_eq, BitVec.le_def, BitVec.le_def]
      at decimal
    have low : 48 ≤ x.toNat := decimal.1
    have high : x.toNat ≤ 57 := decimal.2
    have lower : isupper x = false := by
      rw [isupper, Bool.and_eq_false_iff, decide_eq_false_iff_not, BitVec.le_def]
      left
      change ¬ 65 ≤ x.toNat
      omega
    rw [tolower, lower, if_neg Bool.false_ne_true] at isX
    subst isX
    exact absurd high (by decide)
  rw [isDigit, upper, if_neg noDecimal]
  rfl

theorem digits_hexPrefix_iff {str : Text} :
    Digits 16 (hexPrefix str) ↔ Digits 16 str ∨ Prefixed str := by
  have blocked : ∀ {x rest}, tolower x = 120#8 → ¬ Digits 16 (48#8 :: x :: rest) := by
    intro x rest isX digits
    have digit := digits.2 x (List.mem_cons_of_mem _ List.mem_cons_self)
    rw [not_isDigit_of_x isX] at digit
    cases digit
  unfold hexPrefix
  split
  · rename_i x c rest
    split
    · rename_i marked
      rw [Bool.and_eq_true, decide_eq_true_eq] at marked
      constructor
      · exact fun digits => Or.inr ⟨x, c :: rest, rfl, marked.1, digits⟩
      · rintro (digits | ⟨y, digits, same, -, all⟩)
        · exact (blocked marked.1 digits).elim
        · cases same
          exact all
    · rename_i unmarked
      constructor
      · exact Or.inl
      · rintro (digits | ⟨y, digits, same, isX, all⟩)
        · exact digits
        · cases same
          apply absurd _ unmarked
          rw [Bool.and_eq_true, decide_eq_true_eq]
          exact ⟨isX, all.2 c List.mem_cons_self⟩
  · rename_i short
    constructor
    · exact Or.inl
    · rintro (digits | ⟨y, digits, rfl, -, all⟩)
      · exact digits
      · cases digits with
        | nil => exact (all.1 rfl).elim
        | cons c rest => exact (short y c rest rfl).elim

private theorem unsigned_nil : unsigned [] = [] := rfl

/-- What `strtoull` reads digits from. -/
def strtoullBody (base : Nat) (str : Text) : Text :=
  if base = 16 then hexPrefix (unsigned str) else unsigned str

private theorem strtoull_rest (base : Nat) (str : Text) : (strtoull base str).2 =
    if (strtoullBody base str).takeWhile (isDigit base) = [] then str
    else (strtoullBody base str).dropWhile (isDigit base) := by
  unfold strtoull
  exact apply_ite Prod.snd _ _ _

/-- `strtoull` reads a text to its end if it is empty or digits behind blanks and a sign. -/
theorem strtoull_rest_iff {base : Nat} {str : Text} :
    (strtoull base str).2 = [] ↔ str = [] ∨ Digits base (strtoullBody base str) := by
  rw [strtoull_rest]
  by_cases none : (strtoullBody base str).takeWhile (isDigit base) = []
  · rw [if_pos none]
    constructor
    · exact Or.inl
    · rintro (same | digits)
      · exact same
      · rw [List.takeWhile_eq_self_iff.mpr digits.2] at none
        exact (digits.1 none).elim
  · rw [if_neg none, List.dropWhile_eq_nil_iff]
    have some : strtoullBody base str ≠ [] := fun nil => none (by rw [nil, List.takeWhile_nil])
    constructor
    · exact fun all => Or.inr ⟨some, all⟩
    · rintro (rfl | digits)
      · refine (some ?_).elim
        rw [strtoullBody, unsigned_nil]
        split
        · rfl
        · rfl
      · exact digits.2

/-- `strtod` reads a text to its end if it is empty or a real behind blanks and a sign. -/
theorem strtod_rest_iff {str : Text} : (strtod str).2 = [] ↔ str = [] ∨ IsReal (unsigned str) := by
  unfold strtod IsReal unsigned
  simp only
  cases parsed : strtodUnsigned (sign (str.dropWhile isspace)).2 with
  | some found =>
      constructor
      · exact fun ended => Or.inr ⟨found.1, congrArg some (Prod.ext rfl ended)⟩
      · rintro (rfl | ⟨image, same⟩)
        · have none : strtodUnsigned (sign (([] : Text).dropWhile isspace)).2 = none := by decide
          rw [none] at parsed
          cases parsed
        · cases same
          rfl
  | none => simp

/-! ## Printed integers are read back -/

private theorem decimal_ne_nil (num : Nat) : decimal num ≠ [] := by
  have digits := @Nat.length_toDigits_pos 10 num
  intro empty
  rw [decimal, List.map_eq_nil_iff] at empty
  rw [empty] at digits
  exact Nat.lt_irrefl 0 digits

/-- A byte of a decimal numeral, by its digit. -/
theorem mem_decimal {num : Nat} {c : BitVec 8} (inside : c ∈ decimal num) :
    48 ≤ c.toNat ∧ c.toNat ≤ 57 := by
  obtain ⟨char, member, rfl⟩ := List.mem_map.mp inside
  have digit := Nat.isDigit_of_mem_toDigits (by decide) (by decide) member
  have bounds : 48 ≤ char.toNat ∧ char.toNat ≤ 57 := by
    simpa [Char.isDigit, UInt32.le_iff_toNat_le] using digit
  rw [BitVec.toNat_ofNat, Nat.mod_eq_of_lt (by omega)]
  exact bounds

private theorem digitValue_decimal {c : BitVec 8} (low : 48 ≤ c.toNat) (high : c.toNat ≤ 57) :
    digitValue c = c.toNat - 48 := by
  apply if_pos
  rw [Bool.and_eq_true, decide_eq_true_eq, decide_eq_true_eq]
  exact ⟨BitVec.le_def.mpr low, BitVec.le_def.mpr high⟩

private theorem isDigit_of_mem_decimal {base num : Nat} (large : 10 ≤ base) {c : BitVec 8}
    (inside : c ∈ decimal num) : isDigit base c = true := by
  obtain ⟨low, high⟩ := mem_decimal inside
  rw [isDigit, digitValue_decimal low high, decide_eq_true_eq]
  omega

private theorem ofDigits_decimal (num : Nat) : ofDigits 10 (decimal num) = num := by
  have value : ∀ chars : List Char, (∀ c ∈ chars, 48 ≤ c.toNat ∧ c.toNat ≤ 57) → ∀ start,
      (chars.map fun c => BitVec.ofNat 8 c.toNat).foldl (fun num c => 10 * num + digitValue c)
        start = Nat.ofDigitChars 10 chars start := by
    intro chars
    induction chars with
    | nil => exact fun _ _ => rfl
    | cons c chars ih =>
        intro digits start
        have bounds := digits c List.mem_cons_self
        have small : (BitVec.ofNat 8 c.toNat).toNat = c.toNat := by
          rw [BitVec.toNat_ofNat, Nat.mod_eq_of_lt (by omega)]
        rw [List.map_cons, List.foldl_cons, Nat.ofDigitChars_cons,
          digitValue_decimal (by omega) (by omega), small]
        exact ih (fun other later => digits other (List.mem_cons_of_mem _ later)) _
  rw [ofDigits, decimal, value, Nat.ofDigitChars_ten_toDigits]
  intro c member
  have digit := Nat.isDigit_of_mem_toDigits (by decide) (by decide) member
  simpa [Char.isDigit, UInt32.le_iff_toNat_le] using digit

theorem decimal_injective : Function.Injective decimal := by
  intro num other same
  rw [← ofDigits_decimal num, same, ofDigits_decimal]

private theorem sign_decimal (num : Nat) : sign (decimal num) = (false, decimal num) := by
  unfold sign
  split
  · rename_i printed
    have bounds := mem_decimal (printed ▸ List.mem_cons_self)
    exact absurd bounds.1 (by decide)
  · rename_i printed
    have bounds := mem_decimal (printed ▸ List.mem_cons_self)
    exact absurd bounds.1 (by decide)
  · rfl

theorem dropWhile_isspace_decimal (num : Nat) : (decimal num).dropWhile isspace = decimal num := by
  cases printed : decimal num with
  | nil => rfl
  | cons c digits =>
      have bounds := mem_decimal (printed ▸ List.mem_cons_self : c ∈ decimal num)
      apply List.dropWhile_cons_of_neg
      rw [isspace, Bool.or_eq_true, Bool.and_eq_true, decide_eq_true_eq, decide_eq_true_eq,
        decide_eq_true_eq, BitVec.le_def, BitVec.le_def]
      rintro (rfl | ⟨-, low⟩)
      · exact absurd bounds.1 (by decide)
      · have small : c.toNat ≤ 13 := low
        omega

/-- A decimal numeral of a 64-bit number, behind its sign, is read to its end. -/
theorem strtoull_decimal {str : Text} {negative : Bool} {num : Nat} (small : num < 2 ^ 64)
    (unsigned : sign (str.dropWhile isspace) = (negative, decimal num)) :
    strtoull 10 str = (if negative then -BitVec.ofNat 64 num else BitVec.ofNat 64 num, []) := by
  have all : ∀ c ∈ decimal num, isDigit 10 c = true :=
    fun c inside => isDigit_of_mem_decimal (Nat.le_refl 10) inside
  have digits : (decimal num).takeWhile (isDigit 10) = decimal num :=
    List.takeWhile_eq_self_iff.mpr all
  have behind : (decimal num).dropWhile (isDigit 10) = [] := List.dropWhile_eq_nil_iff.mpr all
  have decimalBase : ¬ (10 : Nat) = 16 := by decide
  unfold strtoull
  rw [unsigned]
  simp only [if_neg decimalBase, digits, behind, ofDigits_decimal, if_neg (decimal_ne_nil num),
    if_neg (Nat.not_le.mpr small)]

/-- `strtoull` reads what `std::to_string` printed. -/
theorem strtoull_toStringInteger (num : BitVec 64) :
    strtoull 10 (toStringInteger num) = (num, []) := by
  have low := BitVec.le_toInt num
  have high := BitVec.toInt_lt (x := num)
  unfold toStringInteger
  by_cases negative : num.toInt < 0
  · have value : -BitVec.ofNat 64 num.toInt.natAbs = num := by
      have same : (num.toInt.natAbs : Int) = -num.toInt := by omega
      rw [← BitVec.ofInt_natCast, same, BitVec.ofInt_neg, BitVec.ofInt_toInt, BitVec.neg_neg]
    have unsigned : sign ((45#8 :: decimal num.toInt.natAbs).dropWhile isspace) =
        (true, decimal num.toInt.natAbs) := rfl
    rw [if_pos negative, strtoull_decimal (by omega) unsigned, if_pos rfl, value]
  · have value : BitVec.ofNat 64 num.toInt.natAbs = num := by
      have same : (num.toInt.natAbs : Int) = num.toInt := by omega
      rw [← BitVec.ofInt_natCast, same, BitVec.ofInt_toInt]
    have unsigned : sign ((decimal num.toInt.natAbs).dropWhile isspace) =
        (false, decimal num.toInt.natAbs) := by
      rw [dropWhile_isspace_decimal, sign_decimal]
    rw [if_neg negative, strtoull_decimal (by omega) unsigned, if_neg Bool.false_ne_true, value]

/-! ## Hexadecimal numerals -/

def hexDigit (digit : Nat) : BitVec 8 :=
  if digit < 10 then BitVec.ofNat 8 (48 + digit) else BitVec.ofNat 8 (87 + digit)

/-- `%lx` -/
def hexadecimal (num : Nat) : Text :=
  if num = 0 then [48#8] else ((Nat.digits 16 num).map hexDigit).reverse

private theorem digitValue_hexDigit : ∀ digit < 16, digitValue (hexDigit digit) = digit := by decide

private theorem hexadecimal_ne_nil (num : Nat) : hexadecimal num ≠ [] := by
  unfold hexadecimal
  split
  · exact List.cons_ne_nil _ _
  · rename_i positive
    simpa [Nat.digits_eq_nil_iff_eq_zero] using positive

/-- A byte of a hexadecimal numeral, by its digit. -/
theorem mem_hexadecimal {num : Nat} {c : BitVec 8} (inside : c ∈ hexadecimal num) :
    ∃ digit < 16, hexDigit digit = c := by
  unfold hexadecimal at inside
  split at inside
  · rw [List.mem_singleton.mp inside]
    exact ⟨0, by decide, rfl⟩
  · obtain ⟨digit, member, rfl⟩ := List.mem_map.mp (List.mem_reverse.mp inside)
    exact ⟨digit, Nat.digits_lt_base (by decide) member, rfl⟩

theorem isDigit_of_mem_hexadecimal {num : Nat} {c : BitVec 8} (inside : c ∈ hexadecimal num) :
    isDigit 16 c = true := by
  obtain ⟨digit, small, rfl⟩ := mem_hexadecimal inside
  rw [isDigit, digitValue_hexDigit digit small]
  exact decide_eq_true small

private theorem ofDigits_hexadecimal (num : Nat) : ofDigits 16 (hexadecimal num) = num := by
  have value : ∀ digits : List Nat, (∀ digit ∈ digits, digit < 16) →
      ofDigits 16 (digits.map hexDigit).reverse = Nat.ofDigits 16 digits := by
    intro digits small
    rw [ofDigits, List.foldl_reverse, List.foldr_map]
    induction digits with
    | nil => rfl
    | cons digit digits ih =>
        have first := digitValue_hexDigit digit (small digit List.mem_cons_self)
        have rest := ih fun other later => small other (List.mem_cons_of_mem _ later)
        rw [List.foldr_cons, rest, first, Nat.ofDigits_cons]
        exact Nat.add_comm _ _
  unfold hexadecimal
  split
  · rename_i zero
    rw [zero]
    rfl
  · rw [value _ fun digit member => Nat.digits_lt_base (by decide) member, Nat.ofDigits_digits]

/-- `strtoull` reads a hexadecimal numeral of a 64-bit number behind its prefix. -/
theorem strtoull_hexadecimal (num : BitVec 64) :
    strtoull 16 (48#8 :: 120#8 :: hexadecimal num.toNat) = (num, []) := by
  have all : ∀ c ∈ hexadecimal num.toNat, isDigit 16 c = true :=
    fun c inside => isDigit_of_mem_hexadecimal inside
  have past : hexPrefix (48#8 :: 120#8 :: hexadecimal num.toNat) = hexadecimal num.toNat := by
    cases printed : hexadecimal num.toNat with
    | nil => exact (hexadecimal_ne_nil _ printed).elim
    | cons c rest =>
        have digit := all c (printed ▸ List.mem_cons_self)
        rw [hexPrefix, digit, if_pos (by decide)]
  have unsigned : sign ((48#8 :: 120#8 :: hexadecimal num.toNat).dropWhile isspace) =
      (false, 48#8 :: 120#8 :: hexadecimal num.toNat) := rfl
  have digits : (hexadecimal num.toNat).takeWhile (isDigit 16) = hexadecimal num.toNat :=
    List.takeWhile_eq_self_iff.mpr all
  have behind : (hexadecimal num.toNat).dropWhile (isDigit 16) = [] :=
    List.dropWhile_eq_nil_iff.mpr all
  unfold strtoull
  rw [unsigned]
  simp only [if_true, past, digits, behind, ofDigits_hexadecimal,
    if_neg (hexadecimal_ne_nil _), if_neg (Nat.not_le.mpr num.isLt), Bool.false_eq_true, if_false,
    BitVec.ofNat_toNat, BitVec.setWidth_eq]

theorem length_hexadecimal_le {num digits : Nat} (some : 0 < digits) (small : num < 16 ^ digits) :
    (hexadecimal num).length ≤ digits := by
  unfold hexadecimal
  split
  · exact some
  · rw [List.length_reverse, List.length_map]
    exact (Nat.digits_length_le_iff (by decide) num).mpr small

/-! ## Printed numbers have no NUL -/

theorem nul_notMem_decimal (num : Nat) : 0#8 ∉ decimal num := by
  intro inside
  exact absurd (mem_decimal inside).1 (by decide)

theorem nul_notMem_hexadecimal (num : Nat) : 0#8 ∉ hexadecimal num := by
  intro inside
  obtain ⟨digit, small, same⟩ := mem_hexadecimal inside
  have differs : ∀ digit < 16, hexDigit digit ≠ 0#8 := by decide
  exact differs digit small same
theorem nul_notMem_toStringInteger (num : BitVec 64) : 0#8 ∉ toStringInteger num := by
  have digits := nul_notMem_decimal num.toInt.natAbs
  unfold toStringInteger
  split
  · simp [digits]
  · exact digits

theorem nul_notMem_toStringDouble (image : BitVec 64) : 0#8 ∉ toStringDouble image := by
  unfold toStringDouble
  simp only [List.mem_append, not_or]
  refine ⟨?_, ?_⟩
  · split <;> simp
  · split
    · split <;> simp
    · simp [nul_notMem_decimal]

end Numerals
