import Tvntd.Json.VariableText
import Tvntd.Lib.Loop

/-! # The scanner of `js_subst_str`

`js_subst_str` goes through its input with a pointer, up to the terminator. Here
the pointer is a place in the memory of a string, which ends at the terminator;
the scanner returns, unless the counter of its replacements overflows, and what
it returns is what `VarSubst.substLoop` makes of the bytes.

That text is the input with its defined variables replaced, as long as no
unknown one is met: an unknown one loses its `$`.
-/

namespace Tvntd.VarSubst

open Numerals

/-! ## The memory of a string -/

/-- `*p`. Nothing is behind the terminator. -/
def charAt (str : CStr) (p : Nat) : Option Byte := (str.bytes ++ [0#8])[p]?

private theorem lt_of_charAt {str : CStr} {p : Nat} {c : Byte} (read : charAt str p = some c) :
    p < str.bytes.length + 1 := by
  obtain ⟨inside, -⟩ := List.getElem?_eq_some_iff.mp read
  simpa using inside

/-- `for (; *p != '\0' && *p != stop; p++)` -/
def scanFor (str : CStr) (stop : Byte) (p : Nat) : Option Nat :=
  match read : charAt str p with
  | none => none
  | some c => if c = 0#8 ∨ c = stop then some p else scanFor str stop (p + 1)
  termination_by str.bytes.length + 1 - p
  decreasing_by
    have inside := lt_of_charAt read
    omega

/-- `js_var_kw`: the place of the `$` and the `end`, if it does not return a null pointer. -/
def jsVarKwAt (str : CStr) (id : Nat) : Option (Option (Nat × Nat)) := do
  let ret ← scanFor str 36#8 id
  if (← charAt str ret) ≠ 36#8 then return none
  if (← charAt str (ret + 1)) ≠ 123#8 then return none
  let p ← scanFor str 125#8 (ret + 2)
  if (← charAt str p) ≠ 125#8 then return none
  return some (ret, p + 1)

/-- The bytes that are copied to `kw`, by their number. -/
def copyKw (str : CStr) : Nat → Nat → Option (List Byte)
  | _, 0 => some []
  | var, left + 1 => do
      let c ← charAt str var
      let rest ← copyKw str (var + 1) left
      return c :: rest

/-- `p`, `subst` and `subst_cnt`. -/
structure SubstState where
  p : Nat
  subst : List Byte
  substCnt : Nat

/-- The keyword that starts at `p`, with its end. -/
def keywordFrom (str : CStr) (p : Nat) (c : Byte) : Option (Option (List Byte × Nat)) :=
  if c = 36#8 then do
    match ← jsVarKwAt str p with
    | some (var, last) =>
        if var = p ∧ var ≠ last then
          let kw ← copyKw str var (last - var)
          return some (kw, last)
        else return none
    | none => return none
  else some none

/-- The body of the loop. The counter is an `int`. -/
def substBody (lookup : List Byte → Option Json) (str : CStr) (s : SubstState) (c : Byte) :
    Option SubstState := do
  match ← keywordFrom str s.p c with
  | some (kw, last) =>
      match lookup kw with
      | none => return s
      | some value =>
          if s.substCnt + 1 < 2 ^ 31 then
            return ⟨last - 1, s.subst ++ jsAppendVal value, s.substCnt + 1⟩
          else none
  | none => return { s with subst := s.subst ++ [c] }

/-- The loop over the input: its text and its count. -/
def scanner (lookup : List Byte → Option Json) (str : CStr) :
    Loop SubstState (List Byte × Nat) where
  turn s := do
    let c ← charAt str s.p
    if c = 0#8 then return .inr (s.subst, s.substCnt)
    let next ← substBody lookup str s c
    return .inl { next with p := next.p + 1 }

def SubstState.initial : SubstState := ⟨0, [], 0⟩

/-- `js_subst_str`, from the first byte on; `none` in the result is a null pointer. -/
def jsSubstStrAt (lookup : List Byte → Option Json) (str : CStr) :
    Loop SubstState (Option Json) :=
  (scanner lookup str).andThen fun ended =>
    if ended.2 = 0 then some none else some (typedValue ended.1)

/-! ## Reading by places -/

section Places

variable {str : CStr} {done rest front : List Byte} {c : Byte}

theorem charAt_cons (split : str.bytes = done ++ c :: rest) : charAt str done.length = some c := by
  simp [charAt, split]

private theorem charAt_nil (split : str.bytes = done) : charAt str done.length = some 0#8 := by
  simp [charAt, split]

private theorem ne_nul (split : str.bytes = done ++ c :: rest) : c ≠ 0#8 := by
  rintro rfl
  apply str.ended
  rw [split]
  simp

theorem split_next (split : str.bytes = done ++ c :: rest) : str.bytes = (done ++ [c]) ++ rest := by
  rw [split, List.append_assoc, List.singleton_append]

private theorem scanFor_eq (stop : Byte) (split : str.bytes = done ++ rest) :
    scanFor str stop done.length =
      some (done.length + (rest.takeWhile (· ≠ stop)).length) := by
  induction rest generalizing done with
  | nil =>
      rw [List.append_nil] at split
      rw [scanFor]
      split
      · rename_i past
        rw [charAt_nil split] at past
        cases past
      · rename_i read
        rw [charAt_nil split] at read
        cases read
        rw [if_pos (Or.inl rfl), List.takeWhile_nil, List.length_nil, Nat.add_zero]
  | cons c rest ih =>
      rw [scanFor]
      split
      · rename_i past
        rw [charAt_cons split] at past
        cases past
      · rename_i read
        rw [charAt_cons split] at read
        cases read
        by_cases here : c = stop
        · rw [if_pos (Or.inr here), List.takeWhile_cons_of_neg (by simpa using here),
            List.length_nil, Nat.add_zero]
        · have later := ih (split_next split)
          rw [List.length_append, List.length_singleton] at later
          rw [if_neg (not_or.mpr ⟨ne_nul split, here⟩), later,
            List.takeWhile_cons_of_pos (by simpa using here), List.length_cons, Nat.add_right_comm,
            Nat.add_assoc]

private theorem copyKw_eq (split : str.bytes = done ++ (front ++ rest)) :
    copyKw str done.length front.length = some front := by
  induction front generalizing done with
  | nil => rfl
  | cons c front ih =>
      rw [List.cons_append] at split
      have later := ih (split_next split)
      rw [List.length_append, List.length_singleton] at later
      rw [List.length_cons, copyKw, charAt_cons split, Option.bind_eq_bind, Option.bind_some, later]
      rfl

/-- At a `$` the scan for one stays. -/
theorem scanFor_dollar (split : str.bytes = done ++ 36#8 :: rest) :
    scanFor str 36#8 done.length = some done.length := by
  rw [scanFor_eq _ split, List.takeWhile_cons_of_neg (by simp), List.length_nil, Nat.add_zero]

private theorem jsVarKwAt_none (split : str.bytes = done ++ 36#8 :: rest)
    (open_ : ∀ q, rest ≠ 123#8 :: q) : jsVarKwAt str done.length = some none := by
  have behind : ∃ d, charAt str (done.length + 1) = some d ∧ d ≠ 123#8 := by
    cases rest with
    | nil =>
        have ended := charAt_nil (split_next split |>.trans (List.append_nil _))
        rw [List.length_append, List.length_singleton] at ended
        exact ⟨0#8, ended, by decide⟩
    | cons d q =>
        have read := charAt_cons (split_next split)
        rw [List.length_append, List.length_singleton] at read
        exact ⟨d, read, fun brace => open_ q (brace ▸ rfl)⟩
  obtain ⟨d, read, differs⟩ := behind
  simp [jsVarKwAt, scanFor_dollar split, charAt_cons split, read, differs]

private theorem jsVarKwAt_unclosed (split : str.bytes = done ++ 36#8 :: 123#8 :: rest)
    (open_ : 125#8 ∉ rest) : jsVarKwAt str done.length = some none := by
  have brace := charAt_cons (split_next split)
  have scanned := scanFor_eq 125#8 (split_next (split_next split))
  have ended : charAt str (done.length + 1 + 1 + rest.length) = some 0#8 := by
    have place : (done ++ [36#8] ++ [123#8] ++ rest).length =
        done.length + 1 + 1 + rest.length := by
      simp only [List.length_append, List.length_singleton]
    rw [← place]
    exact charAt_nil (split_next (split_next split))
  rw [takeWhile_unclosed open_] at scanned
  simp only [List.length_append, List.length_singleton] at brace scanned
  simp [jsVarKwAt, scanFor_dollar split, charAt_cons split, brace, scanned, ended]

private theorem jsVarKwAt_closed {name behind : List Byte} (inner : 125#8 ∉ name)
    (split : str.bytes = done ++ 36#8 :: 123#8 :: (name ++ 125#8 :: behind)) :
    jsVarKwAt str done.length = some (some (done.length, done.length + (name.length + 3))) := by
  have brace := charAt_cons (split_next split)
  have scanned := scanFor_eq 125#8 (split_next (split_next split))
  have closing : charAt str (done.length + 1 + 1 + name.length) = some 125#8 := by
    have place : (done ++ [36#8] ++ [123#8] ++ name).length =
        done.length + 1 + 1 + name.length := by
      simp only [List.length_append, List.length_singleton]
    have parts : str.bytes = (done ++ [36#8] ++ [123#8] ++ name) ++ 125#8 :: behind := by
      rw [split]
      simp
    rw [← place]
    exact charAt_cons parts
  have last : done.length + 1 + 1 + name.length + 1 = done.length + (name.length + 3) := by omega
  rw [takeWhile_closed inner] at scanned
  simp only [List.length_append, List.length_singleton] at brace scanned
  simp [jsVarKwAt, scanFor_dollar split, charAt_cons split, brace, scanned, closing, last]

/-- What is read at a place is the keyword there. -/
theorem keywordFrom_eq (split : str.bytes = done ++ c :: rest) :
    keywordFrom str done.length c =
      some ((keywordAt (c :: rest)).map fun kw => (kw, done.length + kw.length)) := by
  by_cases dollar : c = 36#8
  · subst dollar
    rw [keywordFrom, if_pos rfl]
    cases found : keywordAt (36#8 :: rest) with
    | some kw =>
        obtain ⟨name, behind, inner, rfl, same⟩ := keywordAt_eq_some found
        rw [List.cons.injEq] at same
        obtain ⟨-, rfl⟩ := same
        have parts : str.bytes =
            done ++ ((36#8 :: 123#8 :: (name ++ [125#8])) ++ behind) := by
          rw [split]
          simp
        have copied := copyKw_eq parts
        have size : (36#8 :: 123#8 :: (name ++ [125#8])).length = name.length + 3 := by simp
        rw [size] at copied
        simp [jsVarKwAt_closed inner split, copied]
    | none =>
        have missing : jsVarKwAt str done.length = some none := by
          by_cases brace : ∃ q, rest = 123#8 :: q
          · obtain ⟨q, rfl⟩ := brace
            apply jsVarKwAt_unclosed split
            intro closed
            obtain ⟨name, behind, rfl, inner⟩ := List.eq_append_cons_of_mem closed
            rw [keywordAt_append inner] at found
            cases found
          · exact jsVarKwAt_none split fun q same => brace ⟨q, same⟩
        simp [missing]
  · rw [keywordFrom, if_neg dollar, keywordAt_of_ne dollar, Option.map_none]

end Places

/-! ## The loop -/

/-- `${v}` has a value in the dictionary. -/
abbrev isDefined (lookup : List Byte → Option Json) (kw : List Byte) : Bool := (lookup kw).isSome

section Run

variable {lookup : List Byte → Option Json} {str : CStr} {done rest kw : List Byte} {c : Byte}
  {subst : List Byte} {cnt : Nat}

theorem substLoop_ahead (ahead : Nat) (p : List Byte) :
    substLoop lookup ahead p = substLoop lookup 0 (p.drop ahead) := by
  induction p generalizing ahead with
  | nil => rw [List.drop_nil, substLoop, substLoop]
  | cons c p ih =>
      cases ahead with
      | zero => rfl
      | succ ahead => exact ih ahead

private theorem turn_ended (split : str.bytes = done) :
    (scanner lookup str).turn ⟨done.length, subst, cnt⟩ = some (.inr (subst, cnt)) := by
  simp [scanner, charAt_nil split]

private theorem turn_eq (split : str.bytes = done ++ c :: rest) :
    (scanner lookup str).turn ⟨done.length, subst, cnt⟩ =
      (substBody lookup str ⟨done.length, subst, cnt⟩ c).map fun next =>
        .inl { next with p := next.p + 1 } := by
  simp only [scanner, charAt_cons split, Option.bind_eq_bind, Option.bind_some,
    if_neg (ne_nul split)]
  cases substBody lookup str ⟨done.length, subst, cnt⟩ c with
  | none => rfl
  | some next => rfl

private theorem substBody_plain (split : str.bytes = done ++ c :: rest)
    (plain : keywordAt (c :: rest) = none) :
    substBody lookup str ⟨done.length, subst, cnt⟩ c =
      some ⟨done.length, subst ++ [c], cnt⟩ := by
  rw [substBody, keywordFrom_eq split, plain]
  rfl

/-- An unknown variable loses its `$`. -/
theorem substBody_unknown (split : str.bytes = done ++ c :: rest)
    (found : keywordAt (c :: rest) = some kw) (unknown : lookup kw = none) :
    substBody lookup str ⟨done.length, subst, cnt⟩ c = some ⟨done.length, subst, cnt⟩ := by
  rw [substBody, keywordFrom_eq split, found]
  simp only [Option.map_some, Option.bind_eq_bind, Option.bind_some, unknown]
  rfl

private theorem substBody_known {value : Json} (split : str.bytes = done ++ c :: rest)
    (found : keywordAt (c :: rest) = some kw) (known : lookup kw = some value) :
    substBody lookup str ⟨done.length, subst, cnt⟩ c =
      if cnt + 1 < 2 ^ 31 then
        some ⟨done.length + kw.length - 1, subst ++ jsAppendVal value, cnt + 1⟩
      else none := by
  rw [substBody, keywordFrom_eq split, found]
  simp only [Option.map_some, Option.bind_eq_bind, Option.bind_some, known]
  rfl

/-- What one turn takes from the rest, and what it makes of it. -/
theorem turn_step (lookup : List Byte → Option Json) (subst : List Byte)
    (split : str.bytes = done ++ c :: rest) (small : cnt < 2 ^ 31) :
    ∃ front behind text hits, c :: rest = front ++ behind ∧ front ≠ [] ∧
      substLoop lookup 0 (c :: rest) =
        (text ++ (substLoop lookup 0 behind).1, (substLoop lookup 0 behind).2 + hits) ∧
      (scanner lookup str).turn ⟨done.length, subst, cnt⟩ =
        if cnt + hits < 2 ^ 31 then
          some (.inl ⟨(done ++ front).length, subst ++ text, cnt + hits⟩)
        else none := by
  have place : (done ++ [c]).length = done.length + 1 := by
    rw [List.length_append, List.length_singleton]
  cases start : keywordAt (c :: rest) with
  | none =>
      refine ⟨[c], rest, [c], 0, rfl, List.cons_ne_nil _ _, substLoop_plain start, ?_⟩
      rw [turn_eq split, substBody_plain split start, if_pos (show cnt + 0 < 2 ^ 31 from small),
        place]
      rfl
  | some kw =>
      cases meaning : lookup kw with
      | none =>
          refine ⟨[c], rest, [], 0, rfl, List.cons_ne_nil _ _, substLoop_unknown start meaning, ?_⟩
          rw [turn_eq split, substBody_unknown split start meaning,
            if_pos (show cnt + 0 < 2 ^ 31 from small), place, List.append_nil]
          rfl
      | some value =>
          obtain ⟨parts, positive⟩ := keywordAt_split start
          have last : done.length + kw.length - 1 + 1 = (done ++ kw).length := by
            rw [List.length_append]
            omega
          refine ⟨kw, rest.drop (kw.length - 1), jsAppendVal value, 1, parts,
            List.ne_nil_of_length_pos positive, ?_, ?_⟩
          · rw [substLoop_known start meaning, substLoop_ahead]
          · rw [turn_eq split, substBody_known split start meaning, ← last]
            exact apply_ite (Option.map _) _ _ _

/-- The loop returns what `substLoop` makes of the rest, and nothing else, exactly while the count
is an `int`. -/
theorem scanner_returns_iff {result : List Byte × Nat} (split : str.bytes = done ++ rest)
    (small : cnt < 2 ^ 31) :
    (scanner lookup str).Returns ⟨done.length, subst, cnt⟩ result ↔
      cnt + (substLoop lookup 0 rest).2 < 2 ^ 31 ∧
        result = (subst ++ (substLoop lookup 0 rest).1, cnt + (substLoop lookup 0 rest).2) := by
  induction size : rest.length using Nat.strongRecOn generalizing done rest subst cnt with
  | ind size ih =>
      subst size
      cases rest with
      | nil =>
          rw [List.append_nil] at split
          have ended : (scanner lookup str).Returns ⟨done.length, subst, cnt⟩ (subst, cnt) :=
            Loop.returns_of_done (turn_ended split)
          rw [substLoop, List.append_nil, Nat.add_zero]
          constructor
          · exact fun returns => ⟨small, returns.unique ended⟩
          · exact fun same => same.2 ▸ ended
      | cons c rest =>
          obtain ⟨front, behind, text, hits, parts, taken, made, turned⟩ :=
            turn_step lookup subst split small
          have shorter : behind.length < (c :: rest).length := by
            rw [parts, List.length_append]
            have positive := List.length_pos_of_ne_nil taken
            omega
          have next : str.bytes = (done ++ front) ++ behind := by
            rw [List.append_assoc, ← parts]
            exact split
          rw [made]
          by_cases fits : cnt + hits < 2 ^ 31
          · rw [if_pos fits] at turned
            have goes : (scanner lookup str).Goes ⟨done.length, subst, cnt⟩
                ⟨(done ++ front).length, subst ++ text, cnt + hits⟩ := .head turned (.refl _)
            have count : cnt + ((substLoop lookup 0 behind).2 + hits) =
                cnt + hits + (substLoop lookup 0 behind).2 := by omega
            rw [goes.returns_iff, ih behind.length shorter next fits rfl, count, List.append_assoc]
          · rw [if_neg fits] at turned
            constructor
            · exact fun returns => (Loop.not_returns_of_stuck turned returns).elim
            · intro both
              exact absurd both.1 (by omega)

end Run

/-! ## What the substitution is for -/

/-- `${v}` -/
def reference (name : List Byte) : List Byte := 36#8 :: 123#8 :: (name ++ [125#8])

/-- The `${v}` that a text starts with, `v` up to the first `}`. -/
def referenceAt : List Byte → Option (List Byte)
  | 36#8 :: 123#8 :: q => if 125#8 ∈ q then some (reference (q.takeWhile (· ≠ 125#8))) else none
  | _ => none

/-- A text with every `${v}` of the dictionary replaced by the text of its value, and every other
byte copied. The first number counts the bytes of a replaced one that are still ahead. -/
def substituted (lookup : List Byte → Option Json) : Nat → List Byte → List Byte
  | _, [] => []
  | ahead + 1, _ :: p => substituted lookup ahead p
  | 0, c :: p =>
      match (referenceAt (c :: p)).bind fun kw => (lookup kw).map (kw, ·) with
      | some (kw, value) => jsAppendVal value ++ substituted lookup (kw.length - 1) p
      | none => c :: substituted lookup 0 p

/-- The `${x}` outside of the replaced ones that the dictionary does not have. -/
def unknowns (lookup : List Byte → Option Json) : Nat → List Byte → List (List Byte)
  | _, [] => []
  | ahead + 1, _ :: p => unknowns lookup ahead p
  | 0, c :: p =>
      match referenceAt (c :: p) with
      | none => unknowns lookup 0 p
      | some kw =>
          match lookup kw with
          | none => kw :: unknowns lookup 0 p
          | some _ => unknowns lookup (kw.length - 1) p

/-- A variable of the dictionary stands in the text. -/
def Occurs (lookup : List Byte → Option Json) (text : List Byte) : Prop :=
  ∃ name, 125#8 ∉ name ∧ (lookup (reference name)).isSome = true ∧ reference name <:+: text

/-- A boolean, in letters of any case. -/
def IsBoolean (val : List Byte) : Prop :=
  val.map tolower = [116#8, 114#8, 117#8, 101#8] ∨
    val.map tolower = [102#8, 97#8, 108#8, 115#8, 101#8]

/-- A text that is a real has a value as one: it is no infinity and no NaN. A text that is neither a
number nor a boolean is UTF-8. -/
def HasValue (val : List Byte) : Prop :=
  integerValue val = none →
    if (strtod val).2 = [] then isfinite (strtod val).1 = true
    else ¬ IsBoolean val → utf8Check (cStr val) = true

/-- The scanner ends, its text is the one the substitution is for if something was replaced, and
`js_subst_str` returns a null pointer exactly if no variable of the dictionary occurs. -/
structure SubstRight (lookup : List Byte → Option Json) (str : CStr) : Prop where
  text : ∃ text cnt, (scanner lookup str).Returns .initial (text, cnt) ∧
    (cnt ≠ 0 → text = substituted lookup 0 str.bytes)
  result : ∃ result, (jsSubstStrAt lookup str).Returns .initial result ∧
    (result = none ↔ ¬ Occurs lookup str.bytes)

private theorem referenceAt_eq (p : List Byte) : referenceAt p = keywordAt p := by
  unfold referenceAt
  split
  · rename_i q
    by_cases closed : 125#8 ∈ q
    · obtain ⟨name, behind, rfl, inner⟩ := List.eq_append_cons_of_mem closed
      rw [if_pos closed, takeWhile_closed inner, keywordAt_append inner, reference]
    · rw [if_neg closed, keywordAt_dollar, takeWhile_unclosed closed, if_neg (Nat.lt_irrefl _)]
  · rename_i other
    cases found : keywordAt p with
    | none => rfl
    | some kw =>
        obtain ⟨name, behind, -, -, same⟩ := keywordAt_eq_some found
        exact (other _ same).elim

section Meaning

variable {lookup : List Byte → Option Json} {ahead : Nat} {p : List Byte}

/-- The text of `js_subst_str` is shorter by one byte for each unknown variable. -/
theorem length_substituted : (substituted lookup ahead p).length =
    (substLoop lookup ahead p).1.length + (unknowns lookup ahead p).length := by
  induction p generalizing ahead with
  | nil =>
      rw [substituted, substLoop, unknowns]
      rfl
  | cons c p ih =>
      cases ahead with
      | succ ahead => exact ih
      | zero =>
          rw [substituted, unknowns, referenceAt_eq]
          cases start : keywordAt (c :: p) with
          | none =>
              rw [substLoop_plain start, Option.bind_none, List.length_cons, List.length_cons, ih,
                Nat.add_right_comm]
          | some kw =>
              rw [Option.bind_some]
              cases meaning : lookup kw with
              | none =>
                  rw [substLoop_unknown start meaning, Option.map_none]
                  simp only [meaning, List.length_cons]
                  rw [ih, Nat.add_assoc]
              | some value =>
                  rw [substLoop_known start meaning, Option.map_some]
                  simp only [meaning, List.length_append]
                  rw [ih, Nat.add_assoc]

private theorem substLoop_of_known (known : unknowns lookup ahead p = []) :
    (substLoop lookup ahead p).1 = substituted lookup ahead p := by
  induction p generalizing ahead with
  | nil => rw [substituted, substLoop]
  | cons c p ih =>
      cases ahead with
      | succ ahead => exact ih known
      | zero =>
          rw [unknowns, referenceAt_eq] at known
          rw [substituted, referenceAt_eq]
          cases start : keywordAt (c :: p) with
          | none =>
              rw [start] at known
              rw [substLoop_plain start, Option.bind_none, ih known]
          | some kw =>
              rw [start] at known
              rw [Option.bind_some]
              cases meaning : lookup kw with
              | none =>
                  simp only [meaning] at known
                  cases known
              | some value =>
                  simp only [meaning] at known
                  rw [substLoop_known start meaning, Option.map_some, ih known]

private theorem substLoop_eq_substituted_iff :
    (substLoop lookup ahead p).1 = substituted lookup ahead p ↔ unknowns lookup ahead p = [] := by
  constructor
  · intro same
    have sizes : (substituted lookup ahead p).length = _ := length_substituted
    rw [← same] at sizes
    exact List.eq_nil_of_length_eq_zero (by omega)
  · exact substLoop_of_known

/-- Something is replaced when a variable of the dictionary occurs. -/
theorem occurs_iff : Occurs lookup p ↔ (substLoop lookup 0 p).2 ≠ 0 := by
  rw [substLoop_count, Ne, List.length_eq_zero_iff]
  constructor
  · intro occurs
    obtain ⟨name, inner, known, inside⟩ := occurs
    exact references_ne_nil (keywordAt_append inner []) known inside
  · intro some
    obtain ⟨kw, inside⟩ := List.exists_mem_of_ne_nil _ some
    obtain ⟨keyword, known⟩ := isKeyword_of_reference inside
    obtain ⟨name, inner, rfl⟩ := keyword.eq
    exact ⟨name, inner, known, infix_of_reference inside⟩

theorem typedValue_ne_none_iff {val : List Byte} : typedValue val ≠ none ↔ HasValue val := by
  unfold typedValue HasValue
  cases integerValue val with
  | some num => simp
  | none =>
      by_cases whole : (strtod val).2 = []
      · simp [whole, jsonReal]
      · simp only [if_neg whole, IsBoolean, not_or]
        split
        · rename_i word
          simp [word]
        · split
          · rename_i word
            simp [word]
          · rename_i noTrue noFalse
            simp [noTrue, noFalse, jsonString]

end Meaning

private theorem scanner_initial_iff {lookup : List Byte → Option Json} {str : CStr}
    {result : List Byte × Nat} : (scanner lookup str).Returns .initial result ↔
      (substLoop lookup 0 str.bytes).2 < 2 ^ 31 ∧ result = substLoop lookup 0 str.bytes := by
  have whole := @scanner_returns_iff lookup str [] str.bytes [] 0 result rfl (by decide)
  rw [List.nil_append, Nat.zero_add] at whole
  exact whole

/-- The scanner returns what the model of whole texts does. -/
theorem jsSubstStrAt_iff {lookup : List Byte → Option Json} {str : CStr} {result : Option Json} :
    (jsSubstStrAt lookup str).Returns .initial result ↔
      (substLoop lookup 0 str.bytes).2 < 2 ^ 31 ∧ result = jsSubstStr lookup str := by
  have finish : (if (substLoop lookup 0 str.bytes).2 = 0 then some none
      else some (typedValue (substLoop lookup 0 str.bytes).1)) = some (jsSubstStr lookup str) := by
    unfold jsSubstStr
    split
    · rfl
    · rfl
  constructor
  · intro returns
    obtain ⟨ended, scanned, finished⟩ := returns.of_andThen
    obtain ⟨fits, rfl⟩ := scanner_initial_iff.mp scanned
    rw [finish] at finished
    exact ⟨fits, (Option.some.inj finished).symm⟩
  · intro both
    obtain ⟨fits, rfl⟩ := both
    exact (scanner_initial_iff.mpr ⟨fits, rfl⟩).andThen finish

/-- **The text of `js_subst_str`.** It is right exactly where no variable of the dictionary occurs,
or every variable outside the replaced ones is in the dictionary, the count is an `int` and the
text has a value. -/
theorem substRight_iff (lookup : List Byte → Option Json) (str : CStr) :
    SubstRight lookup str ↔
      (Occurs lookup str.bytes → unknowns lookup 0 str.bytes = [] ∧
        (references (isDefined lookup) 0 str.bytes).length < 2 ^ 31 ∧
        HasValue (substituted lookup 0 str.bytes)) := by
  rw [← substLoop_count]
  constructor
  · intro right occurs
    obtain ⟨text, cnt, scanned, same⟩ := right.text
    obtain ⟨fits, pair⟩ := scanner_initial_iff.mp scanned
    obtain ⟨result, returned, null⟩ := right.result
    obtain ⟨-, rfl⟩ := jsSubstStrAt_iff.mp returned
    have replaced := occurs_iff.mp occurs
    have texts : (substLoop lookup 0 str.bytes).1 = substituted lookup 0 str.bytes := by
      have parts := Prod.ext_iff.mp pair
      rw [← parts.1]
      exact same (by rw [show cnt = _ from parts.2]; exact replaced)
    refine ⟨substLoop_eq_substituted_iff.mp texts, fits, ?_⟩
    rw [← texts, ← typedValue_ne_none_iff]
    intro refused
    apply null.mp _ occurs
    rw [jsSubstStr, if_neg replaced, refused]
  · intro condition
    by_cases occurs : Occurs lookup str.bytes
    · obtain ⟨known, fits, valued⟩ := condition occurs
      have texts := substLoop_eq_substituted_iff.mpr known
      refine ⟨⟨_, _, scanner_initial_iff.mpr ⟨fits, rfl⟩, fun _ => texts⟩,
        ⟨_, jsSubstStrAt_iff.mpr ⟨fits, rfl⟩, ?_⟩⟩
      rw [← texts, ← typedValue_ne_none_iff] at valued
      rw [jsSubstStr, if_neg (occurs_iff.mp occurs)]
      exact ⟨fun refused => (valued refused).elim, fun absent => (absent occurs).elim⟩
    · have nothing : (substLoop lookup 0 str.bytes).2 = 0 := by
        by_contra replaced
        exact occurs (occurs_iff.mpr replaced)
      have fits : (substLoop lookup 0 str.bytes).2 < 2 ^ 31 := by
        rw [nothing]
        decide
      refine ⟨⟨_, _, scanner_initial_iff.mpr ⟨fits, rfl⟩, fun some => (some nothing).elim⟩,
        ⟨_, jsSubstStrAt_iff.mpr ⟨fits, rfl⟩, ?_⟩⟩
      rw [jsSubstStr, if_pos nothing]
      exact ⟨fun _ => occurs, fun _ => rfl⟩

/-- A dictionary of one variable, `${a}`, with the value `y`. -/
def oneVariable (kw : List Byte) : Option Json :=
  if kw = reference [97#8] then some (.string ⟨[121#8], by decide⟩) else none

/-- `${x}${a}` becomes `{x}y`. -/
theorem unknown_loses_dollar :
    ¬ SubstRight oneVariable ⟨reference [120#8] ++ reference [97#8], by decide⟩ := by
  intro right
  obtain ⟨text, cnt, scanned, same⟩ := right.text
  obtain ⟨-, pair⟩ := scanner_initial_iff.mp scanned
  cases pair
  exact absurd (same (by decide)) (by decide)

end Tvntd.VarSubst
