import Tvntd.Json.Variables

/-! # Keywords and substituted text

A keyword is `${`, a name without `}`, and `}`. What `js_subst_str` makes of a string depends on
the values of the keywords it replaces, its *references*, and on nothing else in the dictionary.
-/

namespace Tvntd.VarSubst

open Numerals

/-! ## Keywords -/

/-- `${v}` -/
def IsKeyword (kw : List Byte) : Prop := keywordAt kw = some kw

instance (kw : List Byte) : Decidable (IsKeyword kw) := inferInstanceAs (Decidable (_ = _))

theorem keywordAt_of_ne {c : Byte} (differs : c ≠ 36#8) (p : List Byte) :
    keywordAt (c :: p) = none := by
  unfold keywordAt jsVarKw
  rw [List.takeWhile_cons_of_pos (by simpa using differs), List.length_cons]
  simp only
  split
  · rename_i located
    split at located
    · split at located
      · cases located
      · cases located
    · cases located
  · rfl

theorem keywordAt_dollar (q : List Byte) :
    keywordAt (36#8 :: 123#8 :: q) =
      if (q.takeWhile (· ≠ 125#8)).length < q.length then
        some (36#8 :: 123#8 :: q.take ((q.takeWhile (· ≠ 125#8)).length + 1))
      else none := by
  unfold keywordAt jsVarKw
  rw [List.takeWhile_cons_of_neg (by simp)]
  simp only [List.length_nil, List.drop_zero]
  split
  · rename_i located
    split at located
    · rename_i short
      cases located
      rw [if_pos short, Nat.zero_add, Nat.add_comm 2, Nat.add_right_comm]
      rfl
    · cases located
  · rename_i missing
    split at missing
    · exact absurd rfl (missing _)
    · rename_i long
      rw [if_neg long]

private theorem keywordAt_dollar_of_ne {d : Byte} (differs : d ≠ 123#8) (q : List Byte) :
    keywordAt (36#8 :: d :: q) = none := by
  unfold keywordAt jsVarKw
  rw [List.takeWhile_cons_of_neg (by simp)]
  simp only [List.length_nil, List.drop_zero]
  split
  · rename_i located
    split at located
    · rename_i same
      cases same
      exact absurd rfl differs
    · cases located
  · rfl

/-- The scan for a `}` goes over a text without one. -/
theorem takeWhile_unclosed {text : List Byte} (open_ : 125#8 ∉ text) :
    text.takeWhile (· ≠ 125#8) = text := by
  apply List.takeWhile_eq_self_iff.mpr
  intro b inside
  simpa using fun same : b = 125#8 => open_ (same ▸ inside)

/-- The scan for a `}` ends in front of the first one. -/
theorem takeWhile_closed {name : List Byte} (inner : 125#8 ∉ name) (behind : List Byte) :
    (name ++ 125#8 :: behind).takeWhile (· ≠ 125#8) = name := by
  rw [List.takeWhile_append_of_pos]
  · simp
  · intro b inside
    simpa using fun same : b = 125#8 => inner (same ▸ inside)

theorem keywordAt_append {name : List Byte} (inner : 125#8 ∉ name) (behind : List Byte) :
    keywordAt (36#8 :: 123#8 :: (name ++ 125#8 :: behind)) =
      some (36#8 :: 123#8 :: (name ++ [125#8])) := by
  have back : name ++ 125#8 :: behind = (name ++ [125#8]) ++ behind := by
    rw [List.append_assoc, List.singleton_append]
  rw [keywordAt_dollar, takeWhile_closed inner, if_pos (by simp), back, List.take_left' (by simp)]

theorem keywordAt_eq_some {p kw : List Byte} (found : keywordAt p = some kw) :
    ∃ name behind, 125#8 ∉ name ∧ kw = 36#8 :: 123#8 :: (name ++ [125#8]) ∧
      p = 36#8 :: 123#8 :: (name ++ 125#8 :: behind) := by
  cases p with
  | nil => cases found
  | cons c p =>
      by_cases dollar : c = 36#8
      · subst dollar
        cases p with
        | nil => cases found
        | cons d q =>
            by_cases brace : d = 123#8
            · subst brace
              have closed : 125#8 ∈ q := by
                by_contra unclosed
                rw [keywordAt_dollar, takeWhile_unclosed unclosed,
                  if_neg (Nat.lt_irrefl _)] at found
                cases found
              obtain ⟨name, behind, rfl, inner⟩ := List.eq_append_cons_of_mem closed
              rw [keywordAt_append inner] at found
              exact ⟨name, behind, inner, (Option.some.inj found).symm, rfl⟩
            · rw [keywordAt_dollar_of_ne brace] at found
              cases found
      · rw [keywordAt_of_ne dollar] at found
        cases found

theorem IsKeyword.eq {kw : List Byte} (keyword : IsKeyword kw) :
    ∃ name, 125#8 ∉ name ∧ kw = 36#8 :: 123#8 :: (name ++ [125#8]) := by
  obtain ⟨name, behind, inner, same, -⟩ := keywordAt_eq_some keyword
  exact ⟨name, inner, same⟩

theorem IsKeyword.keywordAt_append {kw : List Byte} (keyword : IsKeyword kw) (behind : List Byte) :
    keywordAt (kw ++ behind) = some kw := by
  obtain ⟨name, inner, rfl⟩ := keyword.eq
  rw [← VarSubst.keywordAt_append inner behind]
  simp

theorem IsKeyword.dollar_mem {kw : List Byte} (keyword : IsKeyword kw) : 36#8 ∈ kw := by
  obtain ⟨name, inner, rfl⟩ := keyword.eq
  exact List.mem_cons_self

private theorem isKeyword_of_keywordAt {p kw : List Byte} (found : keywordAt p = some kw) :
    IsKeyword kw := by
  obtain ⟨name, behind, inner, rfl, -⟩ := keywordAt_eq_some found
  exact keywordAt_append inner []

/-! ## References -/

/-- The keywords `js_subst_str` replaces, when these are the defined ones. -/
def references (defined : List Byte → Bool) : Nat → List Byte → List (List Byte)
  | _, [] => []
  | ahead + 1, _ :: p => references defined ahead p
  | 0, c :: p =>
      match keywordAt (c :: p) with
      | none => references defined 0 p
      | some kw =>
          if defined kw then kw :: references defined (kw.length - 1) p
          else references defined 0 p

section Text

variable {lookup lookup' : List Byte → Option Json} {defined : List Byte → Bool} {ahead : Nat}
  {c : Byte} {p kw : List Byte}

private theorem references_nil (defined : List Byte → Bool) (ahead : Nat) :
    references defined ahead [] = [] := by
  cases ahead with
  | zero => rfl
  | succ ahead => rfl

private theorem references_cons (defined : List Byte → Bool) (c : Byte) (p : List Byte) :
    references defined 0 (c :: p) =
      match keywordAt (c :: p) with
      | none => references defined 0 p
      | some kw =>
          if defined kw then kw :: references defined (kw.length - 1) p
          else references defined 0 p := rfl

private theorem references_plain (plain : keywordAt (c :: p) = none) :
    references defined 0 (c :: p) = references defined 0 p := by
  rw [references_cons, plain]

theorem references_unknown (found : keywordAt (c :: p) = some kw) (unknown : defined kw = false) :
    references defined 0 (c :: p) = references defined 0 p := by
  rw [references_cons, found]
  exact if_neg (by rw [unknown]; exact Bool.false_ne_true)

theorem references_known (found : keywordAt (c :: p) = some kw) (known : defined kw = true) :
    references defined 0 (c :: p) = kw :: references defined (kw.length - 1) p := by
  rw [references_cons, found]
  exact if_pos known

/-- A keyword and what is behind it. -/
theorem keywordAt_split (found : keywordAt (c :: p) = some kw) :
    c :: p = kw ++ p.drop (kw.length - 1) ∧ 0 < kw.length := by
  obtain ⟨name, behind, -, rfl, same⟩ := keywordAt_eq_some found
  rw [List.cons.injEq] at same
  obtain ⟨rfl, rfl⟩ := same
  refine ⟨?_, Nat.succ_pos _⟩
  simp

theorem infix_of_reference {defined : List Byte → Bool}
    (reference : kw ∈ references defined ahead p) : kw <:+: p := by
  induction p generalizing ahead with
  | nil =>
      rw [references] at reference
      cases reference
  | cons c p ih =>
      have later : ∀ {left}, kw ∈ references defined left p → kw <:+: c :: p :=
        fun inside => (ih inside).trans (List.suffix_cons c p).isInfix
      cases ahead with
      | succ ahead => exact later reference
      | zero =>
          cases start : keywordAt (c :: p) with
          | none =>
              rw [references_plain start] at reference
              exact later reference
          | some first =>
              cases known : defined first with
              | false =>
                  rw [references_unknown start known] at reference
                  exact later reference
              | true =>
                  rw [references_known start known] at reference
                  rcases List.mem_cons.mp reference with rfl | behind
                  · rw [(keywordAt_split start).1]
                    exact (List.prefix_append _ _).isInfix
                  · exact later behind

private theorem substLoop_nil (lookup : List Byte → Option Json) (ahead : Nat) :
    substLoop lookup ahead [] = ([], 0) := by
  cases ahead with
  | zero => rfl
  | succ ahead => rfl

private theorem substLoop_cons (lookup : List Byte → Option Json) (c : Byte) (p : List Byte) :
    substLoop lookup 0 (c :: p) =
      match keywordAt (c :: p) with
      | none => (c :: (substLoop lookup 0 p).1, (substLoop lookup 0 p).2)
      | some kw =>
          match lookup kw with
          | none => substLoop lookup 0 p
          | some value =>
              (jsAppendVal value ++ (substLoop lookup (kw.length - 1) p).1,
                (substLoop lookup (kw.length - 1) p).2 + 1) := rfl

theorem substLoop_plain (plain : keywordAt (c :: p) = none) :
    substLoop lookup 0 (c :: p) = (c :: (substLoop lookup 0 p).1, (substLoop lookup 0 p).2) := by
  rw [substLoop_cons, plain]

theorem substLoop_unknown (found : keywordAt (c :: p) = some kw) (unknown : lookup kw = none) :
    substLoop lookup 0 (c :: p) = substLoop lookup 0 p := by
  rw [substLoop_cons, found]
  simp only [unknown]

theorem substLoop_known {value : Json} (found : keywordAt (c :: p) = some kw)
    (known : lookup kw = some value) :
    substLoop lookup 0 (c :: p) =
      (jsAppendVal value ++ (substLoop lookup (kw.length - 1) p).1,
        (substLoop lookup (kw.length - 1) p).2 + 1) := by
  rw [substLoop_cons, found]
  simp only [known]

theorem isKeyword_of_reference (reference : kw ∈ references defined ahead p) :
    IsKeyword kw ∧ defined kw = true := by
  induction p generalizing ahead with
  | nil =>
      rw [references_nil] at reference
      cases reference
  | cons c p ih =>
      cases ahead with
      | succ ahead => exact ih reference
      | zero =>
          cases start : keywordAt (c :: p) with
          | none =>
              rw [references_plain start] at reference
              exact ih reference
          | some first =>
              cases known : defined first with
              | false =>
                  rw [references_unknown start known] at reference
                  exact ih reference
              | true =>
                  rw [references_known start known] at reference
                  rcases List.mem_cons.mp reference with rfl | later
                  · exact ⟨isKeyword_of_keywordAt start, known⟩
                  · exact ih later

/-- Every place where a defined keyword stands is passed, alone or inside a replaced keyword. -/
theorem references_ne_nil (keyword : IsKeyword kw) (known : defined kw = true)
    (inside : kw <:+: p) : references defined 0 p ≠ [] := by
  induction p with
  | nil =>
      rw [List.infix_nil] at inside
      subst inside
      cases keyword
  | cons c p ih =>
      rcases List.infix_cons_iff.mp inside with front | later
      · obtain ⟨behind, same⟩ := front
        have start : keywordAt (c :: p) = some kw := by rw [← same, keyword.keywordAt_append]
        rw [references_known start known]
        exact List.cons_ne_nil _ _
      · cases start : keywordAt (c :: p) with
        | none =>
            rw [references_plain start]
            exact ih later
        | some first =>
            cases firstKnown : defined first with
            | false =>
                rw [references_unknown start firstKnown]
                exact ih later
            | true =>
                rw [references_known start firstKnown]
                exact List.cons_ne_nil _ _

/-- The number of replaced keywords. -/
theorem substLoop_count :
    (substLoop lookup ahead p).2 = (references (fun kw => (lookup kw).isSome) ahead p).length := by
  induction p generalizing ahead with
  | nil => rw [substLoop_nil, references_nil, List.length_nil]
  | cons c p ih =>
      cases ahead with
      | succ ahead => exact ih
      | zero =>
          cases start : keywordAt (c :: p) with
          | none => rw [substLoop_plain start, references_plain start, ih]
          | some first =>
              cases meaning : lookup first with
              | none =>
                  rw [substLoop_unknown start meaning, ih,
                    references_unknown start (by rw [meaning]; rfl)]
              | some value =>
                  rw [substLoop_known start meaning, ih,
                    references_known start (by rw [meaning]; rfl), List.length_cons]

/-- The text depends on the values of the references only. -/
theorem substLoop_congr (domain : ∀ kw, IsKeyword kw → lookup kw = none → lookup' kw = none)
    (values : ∀ kw ∈ references (fun kw => (lookup kw).isSome) ahead p, lookup' kw = lookup kw) :
    substLoop lookup' ahead p = substLoop lookup ahead p := by
  induction p generalizing ahead with
  | nil => rw [substLoop_nil, substLoop_nil]
  | cons c p ih =>
      cases ahead with
      | succ ahead => exact ih values
      | zero =>
          cases start : keywordAt (c :: p) with
          | none =>
              rw [references_plain start] at values
              rw [substLoop_plain start, substLoop_plain start, ih values]
          | some first =>
              cases meaning : lookup first with
              | none =>
                  rw [references_unknown start (by rw [meaning]; rfl)] at values
                  have missing := domain first (isKeyword_of_keywordAt start) meaning
                  rw [substLoop_unknown start meaning, substLoop_unknown start missing, ih values]
              | some value =>
                  rw [references_known start (by rw [meaning]; rfl)] at values
                  have own := values first List.mem_cons_self
                  have rest := @ih (first.length - 1) fun other later =>
                    values other (List.mem_cons_of_mem _ later)
                  rw [substLoop_known start meaning, substLoop_known start (own.trans meaning),
                    rest]

/-- The value of a reference is part of the text. -/
theorem infix_substLoop {value : Json}
    (reference : kw ∈ references (fun kw => (lookup kw).isSome) ahead p)
    (found : lookup kw = some value) : jsAppendVal value <:+: (substLoop lookup ahead p).1 := by
  induction p generalizing ahead with
  | nil =>
      rw [references_nil] at reference
      cases reference
  | cons c p ih =>
      cases ahead with
      | succ ahead => exact ih reference
      | zero =>
          cases start : keywordAt (c :: p) with
          | none =>
              rw [references_plain start] at reference
              rw [substLoop_plain start]
              exact (ih reference).trans (List.suffix_cons _ _).isInfix
          | some first =>
              cases meaning : lookup first with
              | none =>
                  rw [references_unknown start (by rw [meaning]; rfl)] at reference
                  rw [substLoop_unknown start meaning]
                  exact ih reference
              | some appended =>
                  rw [references_known start (by rw [meaning]; rfl)] at reference
                  rw [substLoop_known start meaning]
                  rcases List.mem_cons.mp reference with rfl | later
                  · rw [found] at meaning
                    cases meaning
                    exact (List.prefix_append _ _).isInfix
                  · exact (ih later).trans (List.suffix_append _ _).isInfix

private theorem nul_notMem_jsAppendVal (value : Json) : 0#8 ∉ jsAppendVal value := by
  cases value with
  | string value => exact value.ended
  | integer value => exact nul_notMem_toStringInteger value
  | real image => exact nul_notMem_toStringDouble image
  | true => decide
  | false => decide
  | object members => exact List.not_mem_nil
  | array elms => exact List.not_mem_nil
  | null => exact List.not_mem_nil

theorem nul_notMem_substLoop (ended : 0#8 ∉ p) : 0#8 ∉ (substLoop lookup ahead p).1 := by
  induction p generalizing ahead with
  | nil =>
      rw [substLoop_nil]
      exact List.not_mem_nil
  | cons c p ih =>
      have rest : 0#8 ∉ p := fun inside => ended (List.mem_cons_of_mem _ inside)
      cases ahead with
      | succ ahead => exact ih rest
      | zero =>
          cases start : keywordAt (c :: p) with
          | none =>
              rw [substLoop_plain start]
              intro inside
              rcases List.mem_cons.mp inside with nul | later
              · exact ended (nul ▸ List.mem_cons_self)
              · exact ih rest later
          | some first =>
              cases meaning : lookup first with
              | none =>
                  rw [substLoop_unknown start meaning]
                  exact ih rest
              | some appended =>
                  rw [substLoop_known start meaning]
                  intro inside
                  rcases List.mem_append.mp inside with own | later
                  · exact nul_notMem_jsAppendVal _ own
                  · exact ih rest later

end Text

/-! ## The value of a text -/

/-- A text with a `$` is no numeral and no boolean. -/
theorem typedValue_of_dollar {val : List Byte} (dollar : 36#8 ∈ val) :
    typedValue val = jsonString (cStr val) := by
  have foreign : inNumeral 36#8 = false := by decide
  have noInteger : integerValue val = none := by
    rw [integerValue, List.findSome?_eq_none_iff]
    intro base tried
    have small : base ≤ 36 := by
      simp only [List.mem_cons, List.not_mem_nil, or_false] at tried
      omega
    have behind := mem_strtoull foreign small dollar
    rw [if_neg (List.ne_nil_of_mem behind)]
  have noWord : ∀ letters : List Byte, 36#8 ∉ letters → val.map tolower ≠ letters := by
    intro letters without same
    exact without (same ▸ List.mem_map.mpr ⟨36#8, dollar, by decide⟩)
  unfold typedValue
  rw [noInteger]
  simp only
  rw [if_neg (List.ne_nil_of_mem (mem_strtod foreign dollar)), if_neg (noWord _ (by decide)),
    if_neg (noWord _ (by decide))]

theorem cStr_bytes {str : List Byte} (ended : 0#8 ∉ str) : (cStr str).bytes = str := by
  apply List.takeWhile_eq_self_iff.mpr
  intro b inside
  simpa using fun same : b = 0#8 => ended (same ▸ inside)

end Tvntd.VarSubst
