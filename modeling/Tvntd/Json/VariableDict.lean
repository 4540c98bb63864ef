import Tvntd.Json.Document
import Tvntd.Json.VariableText

/-! # Both passes over a document

The first pass inserts the definitions of a document one after the other. A member whose key goes
on behind its keyword is inserted too, but no reference finds it. The second pass makes of every
string in an array or object what the dictionary makes of it, and keeps everything else.
-/

namespace Tvntd.JsonVariables

open VarSubst

/-! ## One string -/

section Subst

variable {lookup lookup' : List Byte → Option Json} {str out : CStr} {var : List Byte}

theorem subst_unreferenced
    (none : references (fun kw => (lookup kw).isSome) 0 str.bytes = []) :
    subst lookup (.string str) = .string str := by
  rw [subst, jsSubstStr, if_pos (by rw [substLoop_count, none, List.length_nil]), Option.getD_none]

theorem subst_referenced
    (some : references (fun kw => (lookup kw).isSome) 0 str.bytes ≠ []) :
    subst lookup (.string str) =
      (typedValue (substLoop lookup 0 str.bytes).1).getD (.string str) := by
  have replaced : (substLoop lookup 0 str.bytes).2 ≠ 0 := by
    rw [substLoop_count]
    exact fun zero => some (List.eq_nil_of_length_eq_zero zero)
  rw [subst, jsSubstStr, if_neg replaced]

theorem subst_congr (domain : ∀ kw, IsKeyword kw → lookup kw = none → lookup' kw = none)
    (values : ∀ kw ∈ references (fun kw => (lookup kw).isSome) 0 str.bytes,
      lookup' kw = lookup kw) :
    subst lookup' (.string str) = subst lookup (.string str) := by
  rw [subst, subst, jsSubstStr, jsSubstStr, substLoop_congr domain values]

private theorem typedValue_string {val : List Byte} (typed : typedValue val = some (.string out)) :
    out = cStr val := by
  unfold typedValue at typed
  split at typed
  · cases typed
  · split at typed
    · unfold jsonReal at typed
      split at typed
      · cases typed
      · cases typed
    · split at typed
      · cases typed
      · split at typed
        · cases typed
        · unfold jsonString at typed
          split at typed
          · cases typed
            rfl
          · cases typed

/-- A replaced string spells a keyword when its text has a value and does, or when there is no value
for its text and the string itself spells it. -/
theorem subst_spells_iff (keyword : IsKeyword var)
    (some : references (fun kw => (lookup kw).isSome) 0 str.bytes ≠ []) :
    (∃ out, subst lookup (.string str) = .string out ∧ var <:+: out.bytes) ↔
      typedValue (substLoop lookup 0 str.bytes).1 ≠ none ∧
          var <:+: (substLoop lookup 0 str.bytes).1 ∨
        typedValue (substLoop lookup 0 str.bytes).1 = none ∧ var <:+: str.bytes := by
  have plain : 0#8 ∉ (substLoop lookup 0 str.bytes).1 := nul_notMem_substLoop str.ended
  rw [subst_referenced some]
  constructor
  · intro spelled
    obtain ⟨out, value, inside⟩ := spelled
    cases typed : typedValue (substLoop lookup 0 str.bytes).1 with
    | none =>
        rw [typed] at value
        cases value
        exact Or.inr ⟨rfl, inside⟩
    | some val =>
        rw [typed, Option.getD_some] at value
        subst value
        rw [typedValue_string typed, cStr_bytes plain] at inside
        exact Or.inl ⟨Option.some_ne_none _, inside⟩
  · intro spelled
    rcases spelled with ⟨valued, text⟩ | ⟨refused, inside⟩
    · obtain ⟨val, typed⟩ := Option.ne_none_iff_exists'.mp valued
      have string := typed
      rw [typedValue_of_dollar (text.subset keyword.dollar_mem), jsonString] at string
      split at string
      · cases string
        rw [typed, Option.getD_some]
        refine ⟨_, rfl, ?_⟩
        rw [cStr_bytes plain]
        exact text
      · cases string
    · rw [refused]
      exact ⟨str, rfl, inside⟩

end Subst

/-! ## The first pass -/

/-- The members whose name is a variable, in the order of the document. -/
def definitions : Json → List Json.Member :=
  Json.collect (fun m => if IsKeyword m.1.bytes then [m] else []) fun _ => []

/-- The dictionary after some definitions. -/
def collected (map : VarMap) (defs : List Json.Member) : VarMap :=
  defs.foldl (fun map d => (d.1, subst (jsVarLookup map) d.2) :: map) map

/-- Two dictionaries have the same values of keywords. -/
def Agree (map map' : VarMap) : Prop :=
  ∀ kw, IsKeyword kw → jsVarLookup map kw = jsVarLookup map' kw

private theorem jsVarLookup_cons (key : CStr) (val : Json) (map : VarMap) (kw : List Byte) :
    jsVarLookup ((key, val) :: map) kw =
      if key.bytes = kw then some val else jsVarLookup map kw := by
  unfold jsVarLookup
  rw [List.find?_cons]
  by_cases same : key.bytes = kw
  · simp [same]
  · simp [same]

theorem Agree.subst {map map' : VarMap} (agree : Agree map map') (val : Json) :
    subst (jsVarLookup map) val = subst (jsVarLookup map') val := by
  cases val with
  | string str =>
      apply subst_congr
      · intro kw keyword missing
        rw [agree kw keyword, missing]
      · intro kw reference
        exact agree kw (isKeyword_of_reference reference).1
  | _ => rfl

theorem Agree.cons {map map' : VarMap} (agree : Agree map map') (key : CStr) (val : Json) :
    Agree ((key, val) :: map) ((key, val) :: map') := by
  intro kw keyword
  rw [jsVarLookup_cons, jsVarLookup_cons, agree kw keyword]

private theorem jsBuildDict_array (map : VarMap) (elms : List Json) :
    jsBuildDict map (.array elms) = elms.foldl jsBuildDict map := by
  rw [jsBuildDict]
  induction elms generalizing map with
  | nil => rfl
  | cons elm rest ih => rw [buildElements, ih, List.foldl_cons]

private theorem jsBuildDict_object (map : VarMap) (members : List Json.Member) :
    jsBuildDict map (.object members) =
      members.foldl (fun map m => jsBuildDict (insertMember map m.1 m.2) m.2) map := by
  rw [jsBuildDict]
  induction members generalizing map with
  | nil => rfl
  | cons m rest ih => rw [buildMembers, ih, List.foldl_cons]

theorem collected_append (map : VarMap) (before behind : List Json.Member) :
    collected map (before ++ behind) = collected (collected map before) behind :=
  List.foldl_append

/-- A member of a key that is not one whole keyword leaves the values of keywords. -/
theorem Agree.insertMember {map map' : VarMap} (agree : Agree map map') (m : Json.Member) :
    Agree (insertMember map m.1 m.2)
      (collected map' (if IsKeyword m.1.bytes then [m] else [])) := by
  unfold JsonVariables.insertMember
  by_cases named : IsKeyword m.1.bytes
  · have starts : (keywordAt m.1.bytes).isSome = true := by
      rw [show keywordAt m.1.bytes = some m.1.bytes from named]
      rfl
    rw [if_pos starts, if_pos named, agree.subst]
    exact agree.cons _ _
  · rw [if_neg named]
    split
    · intro kw keyword
      have other : m.1.bytes ≠ kw := fun same => named (same ▸ keyword)
      rw [jsVarLookup_cons, if_neg other]
      exact agree kw keyword
    · exact agree

/-- The first pass, as far as references go, inserts the definitions in their order. -/
theorem Agree.jsBuildDict {map map' : VarMap} (agree : Agree map map') (root : Json) :
    Agree (jsBuildDict map root) (collected map' (definitions root)) := by
  induction root using Json.tree_induction generalizing map map' with
  | array elms ih =>
      rw [jsBuildDict_array, definitions, Json.collect_array]
      induction elms generalizing map map' with
      | nil => exact agree
      | cons elm rest next =>
          rw [List.foldl_cons, List.flatMap_cons, collected_append]
          apply next
          · exact fun other inside => ih other (List.mem_cons_of_mem _ inside)
          · exact ih elm List.mem_cons_self agree
  | object members ih =>
      rw [jsBuildDict_object, definitions, Json.collect_object]
      induction members generalizing map map' with
      | nil => exact agree
      | cons m rest next =>
          rw [List.foldl_cons, List.flatMap_cons, collected_append, collected_append]
          apply next
          · exact fun other inside => ih other (List.mem_cons_of_mem _ inside)
          · exact ih m List.mem_cons_self (agree.insertMember m)
  | leaf val noArray noObject =>
      cases val with
      | array elms => cases noArray
      | object members => cases noObject
      | _ => exact agree

theorem jsVarLookup_collected_of_absent {map : VarMap} {defs : List Json.Member} {kw : List Byte}
    (absent : ∀ d ∈ defs, d.1.bytes ≠ kw) :
    jsVarLookup (collected map defs) kw = jsVarLookup map kw := by
  induction defs generalizing map with
  | nil => rfl
  | cons d rest ih =>
      have later := @ih ((d.1, subst (jsVarLookup map) d.2) :: map) fun e inside =>
        absent e (List.mem_cons_of_mem _ inside)
      rw [collected, List.foldl_cons, ← collected, later, jsVarLookup_cons,
        if_neg (absent d List.mem_cons_self)]

/-- A variable has the value its last definition got with the definitions before it. -/
theorem jsVarLookup_collected_split (map : VarMap) (before : List Json.Member) (d : Json.Member)
    {behind : List Json.Member} (last : ∀ e ∈ behind, e.1.bytes ≠ d.1.bytes) :
    jsVarLookup (collected map (before ++ d :: behind)) d.1.bytes =
      some (subst (jsVarLookup (collected map before)) d.2) := by
  have inserted : collected (collected map before) (d :: behind) =
      collected ((d.1, subst (jsVarLookup (collected map before)) d.2) :: collected map before)
        behind := rfl
  rw [collected_append, inserted, jsVarLookup_collected_of_absent last, jsVarLookup_cons,
    if_pos rfl]

theorem isSome_jsVarLookup_collected (map : VarMap) (defs : List Json.Member) (kw : List Byte) :
    (jsVarLookup (collected map defs) kw).isSome =
      ((jsVarLookup map kw).isSome || defs.any fun d => d.1.bytes = kw) := by
  induction defs generalizing map with
  | nil => rw [List.any_nil, Bool.or_false]; rfl
  | cons d rest ih =>
      rw [collected, List.foldl_cons, ← collected, ih, jsVarLookup_cons, List.any_cons]
      by_cases same : d.1.bytes = kw
      · simp [same]
      · simp [same]

/-! ## The second pass -/

/-- What the second pass makes of an element or a member's value. -/
def replaced (map : VarMap) (val : Json) : Json := subst (jsVarLookup map) (jsSubstDict map val)

private theorem jsSubstDict_array (map : VarMap) (elms : List Json) :
    jsSubstDict map (.array elms) = .array (elms.map (replaced map)) := by
  have each : ∀ elms, substElements map elms = elms.map (replaced map) := by
    intro elms
    induction elms with
    | nil => rfl
    | cons elm rest ih => rw [substElements, ih, List.map_cons, replaced]
  rw [jsSubstDict, each]

private theorem jsSubstDict_object (map : VarMap) (members : List Json.Member) :
    jsSubstDict map (.object members) =
      .object (members.map fun m => (m.1, replaced map m.2)) := by
  have each : ∀ members, substMembers map members =
      members.map fun m => (m.1, replaced map m.2) := by
    intro members
    induction members with
    | nil => rfl
    | cons m rest ih => rw [substMembers, ih, List.map_cons, replaced]
  rw [jsSubstDict, each]

private theorem replaced_array (map : VarMap) (elms : List Json) :
    replaced map (.array elms) = .array (elms.map (replaced map)) := by
  rw [replaced, jsSubstDict_array]
  rfl

private theorem replaced_object (map : VarMap) (members : List Json.Member) :
    replaced map (.object members) = .object (members.map fun m => (m.1, replaced map m.2)) := by
  rw [replaced, jsSubstDict_object]
  rfl

theorem replaced_eq_of_not_string {val : Json} (other : ∀ str, val ≠ .string str) (map : VarMap) :
    replaced map val = jsSubstDict map val := by
  cases val with
  | string str => exact absurd rfl (other str)
  | array elms => rw [replaced_array, jsSubstDict_array]
  | object members => rw [replaced_object, jsSubstDict_object]
  | _ => rfl

/-- The second pass goes string by string. -/
theorem strings_replaced (map : VarMap) (val : Json) :
    (replaced map val).strings =
      val.strings.flatMap fun str => (subst (jsVarLookup map) (.string str)).strings := by
  induction val using Json.tree_induction with
  | array elms ih =>
      rw [replaced_array, Json.strings_array, Json.strings_array, List.flatMap_assoc,
        List.flatMap_map]
      exact List.flatMap_congr ih
  | object members ih =>
      rw [replaced_object, Json.strings_object, Json.strings_object, List.flatMap_assoc,
        List.flatMap_map]
      exact List.flatMap_congr ih
  | leaf val noArray noObject =>
      cases val with
      | array elms => cases noArray
      | object members => cases noObject
      | string str =>
          have own : (Json.string str).strings = [str] := rfl
          rw [own, List.flatMap_singleton]
          rfl
      | _ => rfl

private theorem replaced_congr {map map' : VarMap} {val : Json}
    (same : ∀ str ∈ val.strings,
      subst (jsVarLookup map') (.string str) = subst (jsVarLookup map) (.string str)) :
    replaced map' val = replaced map val := by
  induction val using Json.tree_induction with
  | array elms ih =>
      rw [replaced_array, replaced_array]
      congr 1
      apply List.map_congr_left
      intro elm inside
      apply ih elm inside
      intro str deep
      exact same str (by rw [Json.strings_array]; exact List.mem_flatMap.mpr ⟨elm, inside, deep⟩)
  | object members ih =>
      rw [replaced_object, replaced_object]
      congr 1
      apply List.map_congr_left
      intro m inside
      rw [ih m inside]
      intro str deep
      exact same str (by rw [Json.strings_object]; exact List.mem_flatMap.mpr ⟨m, inside, deep⟩)
  | leaf val noArray noObject =>
      cases val with
      | array elms => cases noArray
      | object members => cases noObject
      | string str => exact same str List.mem_cons_self
      | _ => rfl

theorem jsSubstDict_congr {map map' : VarMap} {val : Json}
    (same : ∀ str ∈ val.strings,
      subst (jsVarLookup map') (.string str) = subst (jsVarLookup map) (.string str)) :
    jsSubstDict map' val = jsSubstDict map val := by
  by_cases root : ∃ str, val = .string str
  · obtain ⟨str, rfl⟩ := root
    rfl
  · have other : ∀ str, val ≠ .string str := fun str same => root ⟨str, same⟩
    rw [← replaced_eq_of_not_string other, ← replaced_eq_of_not_string other]
    exact replaced_congr same

private theorem reorder_jsSubstDict (map : VarMap) {val val' : Json} (reorder : val.Reorder val') :
    (jsSubstDict map val).Reorder (jsSubstDict map val') := by
  induction reorder with
  | members order =>
      rw [jsSubstDict_object, jsSubstDict_object]
      exact Json.Reorder.members (order.map _)
  | member before key behind inner ih =>
      rw [jsSubstDict_object, jsSubstDict_object, List.map_append, List.map_append, List.map_cons,
        List.map_cons, replaced_eq_of_not_string inner.isString,
        replaced_eq_of_not_string inner.isString']
      exact Json.Reorder.member _ _ _ ih
  | element before behind inner ih =>
      rw [jsSubstDict_array, jsSubstDict_array, List.map_append, List.map_append, List.map_cons,
        List.map_cons, replaced_eq_of_not_string inner.isString,
        replaced_eq_of_not_string inner.isString']
      exact Json.Reorder.element _ _ ih

theorem reordered_jsSubstDict (map : VarMap) {val val' : Json} (reordered : val.Reordered val') :
    (jsSubstDict map val).Reordered (jsSubstDict map val') :=
  Relation.ReflTransGen.lift (jsSubstDict map) (fun _ _ => reorder_jsSubstDict map) _ _ reordered

end Tvntd.JsonVariables
