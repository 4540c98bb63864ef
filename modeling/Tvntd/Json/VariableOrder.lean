import Tvntd.Json.VariableDict

/-! # Variables and the order of members

What `js_process` makes of a document should not depend on the order of its members, and leave no
defined variable in a string. It does so when every definition comes after the definitions it
names, in every order. A definition collected too early keeps its text, and the second pass puts
that text into strings without looking at it again.
-/

namespace Tvntd.JsonVariables

open VarSubst

/-! ## Documents -/

/-- The variables a document defines. -/
def definedVars (doc : Json) : List CStr := (definitions doc).map Prod.fst

/-- The kinds of value a variable may be defined with. -/
def isScalar : Json → Bool
  | .string _ | .integer _ | .true | .false => true
  | _ => false

/-- The definition of a variable contains another variable of the document. -/
def DependsOn (doc : Json) (var other : CStr) : Prop :=
  ∃ d ∈ definitions doc, d.1 = var ∧ other ∈ definedVars doc ∧ other.bytes <:+: jsAppendVal d.2

/-- Each variable has one definition, a string, an integer or a boolean, and none depends on
itself. -/
structure WellDefined (doc : Json) : Prop where
  once : (definedVars doc).Nodup
  scalar : ∀ d ∈ definitions doc, isScalar d.2 = true
  acyclic : ∀ var, ¬ Relation.TransGen (DependsOn doc) var var

/-- A variable of the document, or one the dictionary has from before. -/
def defined (known : VarMap) (doc : Json) (kw : List Byte) : Bool :=
  (jsVarLookup known kw).isSome || (definitions doc).any fun d => d.1.bytes = kw

/-- Some string of the document refers to the variable. -/
def Named (known : VarMap) (doc : Json) (kw : List Byte) : Prop :=
  ∃ str ∈ doc.strings, kw ∈ references (defined known doc) 0 str.bytes

/-! ## The property and its condition -/

/-- The result is the same for every order of the members, and spells no variable of the
document. -/
def Settles (known : VarMap) (doc : Json) : Prop :=
  (∀ doc', doc.Reordered doc' → (jsProcess known doc).1.Reordered (jsProcess known doc').1) ∧
    ∀ str ∈ (jsProcess known doc).1.strings, ∀ var ∈ definedVars doc, ¬ var.bytes <:+: str.bytes

/-- In every order, a definition that is named comes after all the definitions it names. -/
def InOrder (known : VarMap) (doc : Json) : Prop :=
  ∀ doc', doc.Reordered doc' → ∀ before var str behind,
    definitions doc' = before ++ (var, .string str) :: behind → Named known doc var.bytes →
      ∀ d ∈ (var, Json.string str) :: behind,
        d.1.bytes ∉ references (defined known doc) 0 str.bytes

/-- In some order, a definition that is named and contains a variable of the document comes
before any variable it refers to. -/
def Forward (known : VarMap) (doc : Json) : Prop :=
  ∃ doc', doc.Reordered doc' ∧ ∃ before var str behind,
    definitions doc' = before ++ (var, .string str) :: behind ∧ Named known doc var.bytes ∧
      (∃ other ∈ definedVars doc, other.bytes <:+: str.bytes) ∧
      references (fun kw => (jsVarLookup known kw).isSome || before.any fun d => d.1.bytes = kw) 0
        str.bytes = []

/-- The value of each variable that is named: its definition, with the values of the variables
that the definition names. -/
structure Meaning (known : VarMap) (doc : Json) (value : List Byte → Option Json) : Prop where
  domain : ∀ kw, (value kw).isSome = defined known doc kw
  given : ∀ kw, (∀ d ∈ definitions doc, d.1.bytes ≠ kw) → value kw = jsVarLookup known kw
  defines : ∀ d ∈ definitions doc, Named known doc d.1.bytes →
    value d.1.bytes = some (subst value d.2)

/-- No text put together from a string and the values of its references spells a variable of the
document; where the text has no value (a numeral that is not finite, or no UTF-8, which a document
has nowhere), the string itself spells none. -/
def Plain (known : VarMap) (doc : Json) : Prop :=
  ∀ value, Meaning known doc value → ∀ str ∈ doc.strings,
    references (defined known doc) 0 str.bytes ≠ [] → ∀ var ∈ definedVars doc,
      (typedValue (substLoop value 0 str.bytes).1 ≠ none →
          ¬ var.bytes <:+: (substLoop value 0 str.bytes).1) ∧
        (typedValue (substLoop value 0 str.bytes).1 = none → ¬ var.bytes <:+: str.bytes)

/-! ## The definitions of a reordered document -/

section Reordered

variable {known : VarMap} {doc doc' : Json}

private theorem definition_isKeyword {d : Json.Member} (inside : d ∈ definitions doc) :
    IsKeyword d.1.bytes := by
  induction doc using Json.tree_induction with
  | array elms ih =>
      rw [definitions, Json.collect_array] at inside
      obtain ⟨elm, below, deep⟩ := List.mem_flatMap.mp inside
      exact ih elm below deep
  | object members ih =>
      rw [definitions, Json.collect_object] at inside
      obtain ⟨m, below, deep⟩ := List.mem_flatMap.mp inside
      rcases List.mem_append.mp deep with own | deeper
      · split at own
        · rename_i keyword
          rw [List.mem_singleton.mp own]
          exact keyword
        · cases own
      · exact ih m below deeper
  | leaf val noArray noObject =>
      cases val with
      | array elms => cases noArray
      | object members => cases noObject
      | _ => cases inside

/-- The text of a definition is one of the strings of the document. -/
theorem string_of_definition {var str : CStr} (inside : (var, .string str) ∈ definitions doc) :
    str ∈ doc.strings := by
  induction doc using Json.tree_induction with
  | array elms ih =>
      rw [definitions, Json.collect_array] at inside
      obtain ⟨elm, below, deep⟩ := List.mem_flatMap.mp inside
      rw [Json.strings_array]
      exact List.mem_flatMap.mpr ⟨elm, below, ih elm below deep⟩
  | object members ih =>
      rw [definitions, Json.collect_object] at inside
      obtain ⟨m, below, deep⟩ := List.mem_flatMap.mp inside
      rw [Json.strings_object]
      refine List.mem_flatMap.mpr ⟨m, below, ?_⟩
      rcases List.mem_append.mp deep with own | deeper
      · split at own
        · rw [← List.mem_singleton.mp own]
          exact List.mem_cons_self
        · cases own
      · exact ih m below deeper
  | leaf val noArray noObject =>
      cases val with
      | array elms => cases noArray
      | object members => cases noObject
      | _ => cases inside

private theorem definitions_perm (wellDefined : WellDefined doc) (reordered : doc.Reordered doc') :
    (definitions doc).Perm (definitions doc') := by
  apply reordered.collect wellDefined.scalar
  intro key old new reorder scalar
  split
  · rename_i keyword
    have isScalar := scalar (key, old) (by rw [if_pos keyword]; exact List.mem_singleton_self _)
    cases reorder
    · cases isScalar
    · cases isScalar
    · cases isScalar
  · rfl

/-- The definition of a variable is its last one, in every order. -/
theorem last_definition (wellDefined : WellDefined doc) (reordered : doc.Reordered doc')
    {before behind : List Json.Member} {d : Json.Member}
    (split : definitions doc' = before ++ d :: behind) :
    ∀ e ∈ behind, e.1.bytes ≠ d.1.bytes := by
  have perm := (definitions_perm wellDefined reordered).map Prod.fst
  have once := perm.nodup_iff.mp wellDefined.once
  rw [split, List.map_append, List.map_cons] at once
  intro e inside same
  have sameKey : e.1 = d.1 := by
    cases first : e.1
    cases second : d.1
    rw [first, second] at same
    cases same
    rfl
  have notBehind := (List.nodup_cons.mp (List.nodup_append.mp once).2.1).1
  exact notBehind (sameKey ▸ List.mem_map_of_mem inside)

private theorem isSome_lookup (wellDefined : WellDefined doc) (reordered : doc.Reordered doc')
    (kw : List Byte) :
    (jsVarLookup (collected known (definitions doc')) kw).isSome = defined known doc kw := by
  rw [isSome_jsVarLookup_collected, defined,
    (definitions_perm wellDefined reordered).any_eq]

/-- Under the condition, the dictionary of every order gives the named variables their values. -/
theorem InOrder.meaning (wellDefined : WellDefined doc) (inOrder : InOrder known doc)
    (reordered : doc.Reordered doc') :
    Meaning known doc (jsVarLookup (collected known (definitions doc'))) where
  domain := isSome_lookup wellDefined reordered
  given := by
    intro kw absent
    apply jsVarLookup_collected_of_absent
    intro d inside
    exact absent d ((definitions_perm wellDefined reordered).mem_iff.mpr inside)
  defines := by
    intro d inside named
    obtain ⟨var, val⟩ := d
    have present := (definitions_perm wellDefined reordered).mem_iff.mp inside
    obtain ⟨before, behind, split⟩ := List.append_of_mem present
    have value := jsVarLookup_collected_split known before (var, val)
      (last_definition wellDefined reordered split)
    rw [← split] at value
    rw [value]
    cases val with
    | string str =>
        congr 1
        -- what is not yet in the dictionary is not referred to
        apply subst_congr
        · intro kw keyword missing
          have none := isSome_jsVarLookup_collected known before kw
          have all := isSome_jsVarLookup_collected known (definitions doc') kw
          rw [missing, split, List.any_append] at all
          rw [← Option.not_isSome_iff_eq_none, none]
          intro early
          rw [Bool.or_eq_true] at early
          rcases early with early | early
          · simp [early] at all
          · simp [early] at all
        · intro kw reference
          have domain : (fun kw => (jsVarLookup (collected known (definitions doc')) kw).isSome) =
              defined known doc := funext (isSome_lookup wellDefined reordered)
          rw [domain] at reference
          have later := inOrder doc' reordered before var str behind split named
          rw [split, collected_append]
          apply Eq.symm
          apply jsVarLookup_collected_of_absent
          intro d behindVar same
          exact later d behindVar (same ▸ reference)
    | _ => rfl

/-- The values of the named variables are determined. -/
theorem Meaning.unique (inOrder : InOrder known doc) {value value' : List Byte → Option Json}
    (first : Meaning known doc value) (second : Meaning known doc value') {kw : List Byte}
    (named : Named known doc kw) : value' kw = value kw := by
  -- along the definitions, in the order of the document itself
  have early : ∀ size before d behind, before.length = size →
      definitions doc = before ++ d :: behind → Named known doc d.1.bytes →
      value' d.1.bytes = value d.1.bytes := by
    intro size
    induction size using Nat.strongRecOn with
    | _ size ih =>
        intro before d behind counted split named
        obtain ⟨var, val⟩ := d
        have inside : (var, val) ∈ definitions doc := by
          rw [split]
          exact List.mem_append_right _ List.mem_cons_self
        rw [first.defines _ inside named, second.defines _ inside named]
        cases val with
        | string str =>
            congr 1
            apply subst_congr
            · intro other keyword missing
              rw [← Option.not_isSome_iff_eq_none, second.domain, ← first.domain, missing]
              exact Bool.false_ne_true
            · intro other reference
              have domain : (fun kw => (value kw).isSome) = defined known doc :=
                funext first.domain
              rw [domain] at reference
              by_cases isDefined : ∃ e ∈ definitions doc, e.1.bytes = other
              · obtain ⟨e, present, same⟩ := isDefined
                subst same
                have notLater := inOrder doc Relation.ReflTransGen.refl before var str behind split
                  named
                rw [split] at present
                rcases List.mem_append.mp present with earlier | later
                · obtain ⟨front, back, parts⟩ := List.append_of_mem earlier
                  have shorter : front.length < size := by
                    rw [← counted, parts, List.length_append, List.length_cons]
                    omega
                  apply ih front.length shorter front e (back ++ (var, .string str) :: behind) rfl
                  · rw [split, parts, List.append_assoc, List.cons_append]
                  · exact ⟨str, string_of_definition inside, reference⟩
                · exact absurd reference (notLater e later)
              · have absent : ∀ e ∈ definitions doc, e.1.bytes ≠ other :=
                  fun e present same => isDefined ⟨e, present, same⟩
                rw [first.given other absent, second.given other absent]
        | _ => rfl
  by_cases isDefined : ∃ d ∈ definitions doc, d.1.bytes = kw
  · obtain ⟨d, inside, rfl⟩ := isDefined
    obtain ⟨before, behind, split⟩ := List.append_of_mem inside
    exact early before.length before d behind rfl split named
  · have absent : ∀ d ∈ definitions doc, d.1.bytes ≠ kw :=
      fun d inside same => isDefined ⟨d, inside, same⟩
    rw [first.given kw absent, second.given kw absent]

end Reordered

/-! ## The result -/

section Result

variable {known : VarMap} {doc doc' : Json} {str out : CStr}

/-- What the first pass leaves, as far as references go. -/
theorem subst_jsBuildDict (known : VarMap) (doc : Json) (val : Json) :
    subst (jsVarLookup (jsBuildDict known doc)) val =
      subst (jsVarLookup (collected known (definitions doc))) val := by
  have agree : Agree known known := fun _ _ => rfl
  exact (agree.jsBuildDict doc).subst val

private theorem eq_of_mem_strings {val : Json} (leaf : val.isArray = false ∧ val.isObject = false)
    (inside : out ∈ val.strings) : val = .string out := by
  cases val with
  | array elms => cases leaf.1
  | object members => cases leaf.2
  | string str => rw [List.mem_singleton.mp inside]
  | _ => cases inside

theorem typedValue_leaf {text : List Byte} {val : Json} (typed : typedValue text = some val) :
    val.isArray = false ∧ val.isObject = false := by
  unfold typedValue jsonReal at typed
  split at typed
  · cases typed
    exact ⟨rfl, rfl⟩
  · split at typed
    · split at typed
      · cases typed
        exact ⟨rfl, rfl⟩
      · cases typed
    · split at typed
      · cases typed
        exact ⟨rfl, rfl⟩
      · split at typed
        · cases typed
          exact ⟨rfl, rfl⟩
        · unfold jsonString at typed
          split at typed
          · cases typed
            exact ⟨rfl, rfl⟩
          · cases typed

private theorem mem_strings_subst {lookup : List Byte → Option Json} :
    out ∈ (subst lookup (.string str)).strings ↔ subst lookup (.string str) = .string out := by
  constructor
  · intro inside
    apply eq_of_mem_strings _ inside
    by_cases none : references (fun kw => (lookup kw).isSome) 0 str.bytes = []
    · rw [subst_unreferenced none]
      exact ⟨rfl, rfl⟩
    · rw [subst_referenced none]
      cases typed : typedValue (substLoop lookup 0 str.bytes).1 with
      | none => exact ⟨rfl, rfl⟩
      | some val => exact typedValue_leaf typed
  · intro value
    rw [value]
    exact List.mem_singleton_self out

/-- The strings of the result of a document that defines a variable. -/
theorem mem_strings_jsProcess {var : CStr} (defines : var ∈ definedVars doc) :
    out ∈ (jsProcess known doc).1.strings ↔ ∃ str ∈ doc.strings,
      subst (jsVarLookup (collected known (definitions doc))) (.string str) = .string out := by
  have other : ∀ str, doc ≠ .string str := by
    intro str root
    subst root
    cases defines
  rw [jsProcess, ← replaced_eq_of_not_string other, strings_replaced, List.mem_flatMap]
  simp only [mem_strings_subst, subst_jsBuildDict]

/-- Under the condition, a string gets in every order what the values of the variables make of
it. -/
theorem InOrder.subst_eq (wellDefined : WellDefined doc) (inOrder : InOrder known doc)
    (reordered : doc.Reordered doc') {value : List Byte → Option Json}
    (meaning : Meaning known doc value) (inside : str ∈ doc.strings) :
    subst (jsVarLookup (collected known (definitions doc'))) (.string str) =
      subst value (.string str) := by
  have there := inOrder.meaning wellDefined reordered
  apply subst_congr
  · intro kw keyword missing
    rw [← Option.not_isSome_iff_eq_none, there.domain, ← meaning.domain, missing]
    exact Bool.false_ne_true
  · intro kw reference
    have domain : (fun kw => (value kw).isSome) = defined known doc := funext meaning.domain
    rw [domain] at reference
    exact meaning.unique inOrder there ⟨str, inside, reference⟩

/-- Under the condition, the result is the same in every order. -/
theorem InOrder.reordered (wellDefined : WellDefined doc) (inOrder : InOrder known doc)
    (reordered : doc.Reordered doc') :
    (jsProcess known doc).1.Reordered (jsProcess known doc').1 := by
  have there := inOrder.meaning wellDefined reordered
  have same : jsSubstDict (jsBuildDict known doc) doc' =
      jsSubstDict (jsBuildDict known doc') doc' := by
    apply jsSubstDict_congr
    intro str inside
    rw [subst_jsBuildDict, subst_jsBuildDict]
    apply inOrder.subst_eq wellDefined Relation.ReflTransGen.refl there
    exact reordered.strings.mem_iff.mpr inside
  rw [jsProcess, jsProcess, ← same]
  exact reordered_jsSubstDict _ reordered

theorem keyword_of_definedVar (known : VarMap) {var : CStr} (defines : var ∈ definedVars doc) :
    IsKeyword var.bytes ∧ defined known doc var.bytes = true := by
  obtain ⟨d, inside, rfl⟩ := List.mem_map.mp defines
  refine ⟨definition_isKeyword inside, ?_⟩
  rw [defined, Bool.or_eq_true]
  exact Or.inr (List.any_eq_true.mpr ⟨d, inside, decide_eq_true rfl⟩)

/-- A string of the result spells a variable exactly when a text put together does. -/
theorem spells_iff {value : List Byte → Option Json} (meaning : Meaning known doc value)
    {var : CStr} (defines : var ∈ definedVars doc) :
    (∃ out, subst value (.string str) = .string out ∧ var.bytes <:+: out.bytes) ↔
      references (defined known doc) 0 str.bytes ≠ [] ∧
        (typedValue (substLoop value 0 str.bytes).1 ≠ none ∧
            var.bytes <:+: (substLoop value 0 str.bytes).1 ∨
          typedValue (substLoop value 0 str.bytes).1 = none ∧ var.bytes <:+: str.bytes) := by
  have domain : (fun kw => (value kw).isSome) = defined known doc := funext meaning.domain
  obtain ⟨keyword, present⟩ := keyword_of_definedVar known defines
  by_cases none : references (defined known doc) 0 str.bytes = []
  · constructor
    · intro spelled
      obtain ⟨out, same, inside⟩ := spelled
      rw [subst_unreferenced (by rw [domain]; exact none)] at same
      cases same
      exact absurd none (references_ne_nil keyword present inside)
    · exact fun spelled => absurd none spelled.1
  · rw [subst_spells_iff keyword (by rw [domain]; exact none), and_iff_right none]

/-- Under the condition, the texts put together are the strings of the result. -/
theorem InOrder.plain_iff (wellDefined : WellDefined doc) (inOrder : InOrder known doc) :
    Plain known doc ↔
      ∀ out ∈ (jsProcess known doc).1.strings, ∀ var ∈ definedVars doc,
        ¬ var.bytes <:+: out.bytes := by
  have own := inOrder.meaning wellDefined Relation.ReflTransGen.refl
  constructor
  · intro plain out result var defines inOut
    obtain ⟨str, inside, value⟩ := (mem_strings_jsProcess defines).mp result
    obtain ⟨referring, spelling⟩ := (spells_iff own defines).mp ⟨out, value, inOut⟩
    obtain ⟨text, refused⟩ := plain _ own str inside referring var defines
    rcases spelling with ⟨valued, inText⟩ | ⟨missing, inString⟩
    · exact text valued inText
    · exact refused missing inString
  · intro silent value meaning str inside referring var defines
    have same := inOrder.subst_eq wellDefined Relation.ReflTransGen.refl meaning inside
    have quiet : ¬ ∃ out, subst value (.string str) = .string out ∧ var.bytes <:+: out.bytes := by
      intro spelled
      obtain ⟨out, made, inOut⟩ := spelled
      have result := (mem_strings_jsProcess defines).mpr ⟨str, inside, same.trans made⟩
      exact silent out result var defines inOut
    rw [spells_iff meaning defines] at quiet
    exact ⟨fun valued inText => quiet ⟨referring, Or.inl ⟨valued, inText⟩⟩,
      fun missing inString => quiet ⟨referring, Or.inr ⟨missing, inString⟩⟩⟩

private theorem InOrder.settles_iff (wellDefined : WellDefined doc) (inOrder : InOrder known doc) :
    Settles known doc ↔ Plain known doc := by
  rw [inOrder.plain_iff wellDefined]
  exact and_iff_right fun doc' reordered => inOrder.reordered wellDefined reordered

/-- A definition collected before all it refers to keeps its text, and a string that refers to it
gets that text. -/
theorem Forward.not_settles (wellDefined : WellDefined doc) (forward : Forward known doc) :
    ¬ Settles known doc := by
  intro settles
  obtain ⟨doc', reordered, before, var, str, behind, split, named, ⟨other, defines, contained⟩,
    none⟩ := forward
  have perm := definitions_perm wellDefined reordered
  have domain := funext (@isSome_lookup known doc doc' wellDefined reordered)
  have early : (fun kw => (jsVarLookup (collected known before) kw).isSome) = fun kw =>
      (jsVarLookup known kw).isSome || before.any fun d => d.1.bytes = kw :=
    funext (isSome_jsVarLookup_collected known before)
  -- the definition is stored as it stands
  have stored := jsVarLookup_collected_split known before (var, .string str)
    (last_definition wellDefined reordered split)
  rw [subst_unreferenced (by rw [early]; exact none), ← split] at stored
  obtain ⟨user, inside, reference⟩ := named
  rw [← domain] at reference
  have inText := contained.trans (infix_substLoop reference stored)
  have some : references (fun kw =>
      (jsVarLookup (collected known (definitions doc')) kw).isSome) 0 user.bytes ≠ [] :=
    List.ne_nil_of_mem reference
  have perm' {own : CStr} : own ∈ definedVars doc ↔ own ∈ definedVars doc' :=
    (perm.map Prod.fst).mem_iff
  have spelled : ∃ own ∈ definedVars doc, ∃ out,
      subst (jsVarLookup (collected known (definitions doc'))) (.string user) = .string out ∧
        own.bytes <:+: out.bytes := by
    by_cases refused : typedValue
        (substLoop (jsVarLookup (collected known (definitions doc'))) 0 user.bytes).1 = Option.none
    · -- the string stays, and names the variable
      have own : var ∈ definedVars doc := by
        rw [perm', definedVars, split]
        simp
      exact ⟨var, own, (subst_spells_iff (keyword_of_definedVar known own).1 some).mpr
        (Or.inr ⟨refused, infix_of_reference reference⟩)⟩
    · exact ⟨other, defines, (subst_spells_iff (keyword_of_definedVar known defines).1 some).mpr
        (Or.inl ⟨refused, inText⟩)⟩
  obtain ⟨own, defined, out, value, inOut⟩ := spelled
  have result : out ∈ (jsProcess known doc').1.strings :=
    (mem_strings_jsProcess (perm'.mp defined)).mpr
      ⟨user, reordered.strings.mem_iff.mp inside, value⟩
  have back := (settles.1 doc' reordered).strings.mem_iff.mpr result
  exact settles.2 out back own defined inOut

/-- A document whose definitions name no variables is in order. -/
theorem InOrder.of_unreferring (wellDefined : WellDefined doc)
    (unreferring : ∀ d ∈ definitions doc,
      references (defined known doc) 0 (jsAppendVal d.2) = []) : InOrder known doc := by
  intro doc' reordered before var str behind split named d inside
  have present : (var, Json.string str) ∈ definitions doc := by
    apply (definitions_perm wellDefined reordered).mem_iff.mpr
    rw [split]
    exact List.mem_append_right _ List.mem_cons_self
  have nothing : references (defined known doc) 0 str.bytes = [] := unreferring _ present
  rw [nothing]
  exact List.not_mem_nil

private theorem acyclic_of_rank (rank : CStr → Nat)
    (lower : ∀ d ∈ definitions doc, ∀ other ∈ definedVars doc,
      other.bytes <:+: jsAppendVal d.2 → rank other < rank d.1) (var : CStr) :
    ¬ Relation.TransGen (DependsOn doc) var var := by
  have step : ∀ var other, DependsOn doc var other → rank other < rank var := by
    intro var other depends
    obtain ⟨d, inside, rfl, defines, contained⟩ := depends
    exact lower d inside other defines contained
  have descends : ∀ {var other}, Relation.TransGen (DependsOn doc) var other →
      rank other < rank var := by
    intro var other path
    induction path with
    | single depends => exact step _ _ depends
    | tail _ depends ih => exact (step _ _ depends).trans ih
  exact fun path => Nat.lt_irrefl _ (descends path)

end Result

/-- When every named definition comes after what it names, a document settles exactly when no text
put together spells a variable; and it does not settle when, in some order, a named definition
comes before everything it names. -/
theorem settles_exact {known : VarMap} {doc : Json} (wellDefined : WellDefined doc) :
    (InOrder known doc → (Settles known doc ↔ Plain known doc)) ∧
      (Settles known doc → ¬ Forward known doc) := by
  constructor
  · exact fun inOrder => inOrder.settles_iff wellDefined
  · exact fun settles forward => forward.not_settles wellDefined settles

/-! ## Two documents -/

/-- `${a}` -/
def aVar : CStr where
  bytes := [36#8, 123#8, 97#8, 125#8]
  ended := by decide

/-- `${b}` -/
def bVar : CStr where
  bytes := [36#8, 123#8, 98#8, 125#8]
  ended := by decide

private theorem ended_kKey : 0#8 ∉ [107#8] := by decide

def kKey : CStr where
  bytes := [107#8]
  ended := ended_kKey

/-- `"${a}": 5, "${b}": "k", "k": "${b}${a}"` -/
def unreferring : Json :=
  .object [(aVar, .integer 5#64), (bVar, .string kKey),
    (kKey, .string ⟨bVar.bytes ++ aVar.bytes, by decide⟩)]

theorem settles_exact_unreferring : Settles [] unreferring := by
  have wellDefined : WellDefined unreferring := by
    refine ⟨by decide +kernel, by decide +kernel, acyclic_of_rank (fun _ => 0) ?_⟩
    decide +kernel
  have inOrder : InOrder [] unreferring := InOrder.of_unreferring wellDefined (by decide +kernel)
  have plain : Plain [] unreferring := (inOrder.plain_iff wellDefined).mpr (by decide +kernel)
  exact ((settles_exact wellDefined).1 inOrder).mpr plain

/-- `"${b}": "${a}", "${a}": "k", "k": "${b}"` -/
def referring : Json :=
  .object [(bVar, .string aVar), (aVar, .string kKey), (kKey, .string bVar)]

/-- The definition of `${b}` is collected first and keeps its text, which takes the place of
`${b}` in the last member. -/
theorem referring_not_settles : WellDefined referring ∧ ¬ Settles [] referring := by
  constructor
  · refine ⟨by decide +kernel, by decide +kernel,
      acyclic_of_rank (fun var => if var = bVar then 1 else 0) ?_⟩
    decide +kernel
  · intro settles
    exact settles.2 aVar (by decide +kernel) aVar (by decide +kernel) (by decide +kernel)

end Tvntd.JsonVariables
