import Mathlib.Data.List.Forall2
import Tvntd.Lib.Numerals
import Tvntd.Json.Value

/-! # The C++ generator

What `json2c++` prints for one JSON object: the fields of its POD structure, and in
`js_make_pod` the format string and the argument list of `json_unpack`. Both are kept as the
sequence of items printed. Text taken back with `fsetpos` is written over by what follows and does
not count as printed.

Each member goes through the converters and filters of four functions. Names and variables are
written into buffers of `name_size` bytes, and members are counted in an `int`; a run over either
has no meaning, and the generator has no output then.
-/

namespace Tvntd

open Numerals (isupper tolower isspace)

namespace CppJson

/-- `JsManager::name_size` -/
def nameSize : Nat := 256

/-- A C type a field of the structure may have, or a pointer of `json_unpack` may point at. -/
inductive CType where
  | char
  | bool
  | int
  | uint32
  | double
  | pointer (target : CType)
  deriving DecidableEq

/-- `ctype name;` -/
structure FieldDecl where
  ctype : CType
  name : List Byte
  deriving DecidableEq

/-- An item `"s:… "` of the format string. -/
inductive FmtItem where
  | s
  | b
  | i
  | f
  deriving DecidableEq

/-- `"key", &pod->var`, and whether `)) {` comes behind it instead of a comma. -/
structure PodArg where
  key : CStr
  var : List Byte
  closes : Bool
  deriving DecidableEq

structure PodCode where
  fmt : List FmtItem
  args : List PodArg
  deriving DecidableEq

/-- What is printed for one object. -/
structure Code where
  struct : Option (List FieldDecl)
  pod : Option PodCode
  deriving DecidableEq

/-! ## Names -/

/-- One turn of the loop of `conv_field_name`. -/
def convFieldByte (src : Byte) : List Byte :=
  if src = 45#8 then [95#8]
  else (if isupper src then [95#8] else []) ++ [tolower src]

/-- The loop of `conv_field_name`, up to the first colon. -/
def convFieldLoop : List Byte → List Byte
  | [] => []
  | src :: rest => if src = 58#8 then [] else convFieldByte src ++ convFieldLoop rest

/-- `conv_field_name`. The terminator needs room as well. -/
def convFieldName (name : CStr) : Option (List Byte) :=
  if (convFieldLoop name.bytes).length < nameSize then some (convFieldLoop name.bytes) else none

/-- What `%s` stores in `sscanf(key, "${%s}", var)`, if it stores anything. -/
def scanVar : List Byte → Option (List Byte)
  | 36#8 :: 123#8 :: rest =>
      let token := (rest.dropWhile isspace).takeWhile fun c => !isspace c
      if token = [] then none else some token
  | _ => none

/-- `sscanf(key, "${%s}", var) == 1` -/
def sscanfVar (key : CStr) : Option Bool :=
  match scanVar key.bytes with
  | none => some false
  | some token => if token.length < nameSize then some true else none

/-- `"inlineCode"` -/
def inlineCode : CStr where
  bytes := [105#8, 110#8, 108#8, 105#8, 110#8, 101#8, 67#8, 111#8, 100#8, 101#8]
  ended := by decide

/-- `++` on an `int` counter -/
def incr (count : Nat) : Option Nat := if count + 1 < 2 ^ 31 then some (count + 1) else none

/-! ## The structure -/

/-- The type printed for a value that is not in an array. -/
def scalarType : Json → Option CType
  | .string _ => some (.pointer .char)
  | .true | .false => some .bool
  | .integer _ => some .uint32
  | .real _ => some .double
  | _ => none

/-- `emit_struct_field`. An array is declared after its first element. -/
def emitStructField (key : CStr) (field : Json) : Option (Option FieldDecl) := do
  let (arr, field) := match field with
    | .array (elm :: _) => (true, elm)
    | .array [] => (true, field)
    | _ => (false, field)
  if (← sscanfVar key) || key = inlineCode then
    return none
  let var ← convFieldName key
  return (scalarType field).map fun ctype => ⟨if arr then .pointer ctype else ctype, var⟩

/-- The loop of `emit_struct`, with `field_count`. -/
def emitStructLoop : List Json.Member → Nat → Option (List FieldDecl × Nat)
  | [], fieldCount => some ([], fieldCount)
  | (key, val) :: rest, fieldCount =>
      if val.isObject then emitStructLoop rest fieldCount
      else do
        match ← emitStructField key val with
        | none => emitStructLoop rest fieldCount
        | some field =>
            let fieldCount ← incr fieldCount
            let (fields, fieldCount) ← emitStructLoop rest fieldCount
            return (field :: fields, fieldCount)

/-- `emit_struct` -/
def emitStruct (jsData : JsonObject) : Option (Option (List FieldDecl)) := do
  let (fields, fieldCount) ← emitStructLoop jsData.members 0
  return if fieldCount = 0 then none else some fields

/-! ## The code that fills the structure -/

/-- `emit_pod_code_fmt`, with `*cnt` -/
def emitPodCodeFmt (val : Json) (cnt : Nat) : Option (Option FmtItem × Nat) := do
  let cnt ← incr cnt
  return match val with
    | .string _ => (some .s, cnt)
    | .true | .false => (some .b, cnt)
    | .integer _ => (some .i, cnt)
    | .real _ => (some .f, cnt)
    | _ => (none, cnt - 1)

/-- The first loop of `emit_pod_code`, with `end`. -/
def emitPodFmtLoop : List Json.Member → Nat → Option (List FmtItem × Nat)
  | [], stop => some ([], stop)
  | (key, val) :: rest, stop =>
      if key = inlineCode then emitPodFmtLoop rest stop
      else do
        let (item, stop) ← emitPodCodeFmt val stop
        let (items, stop) ← emitPodFmtLoop rest stop
        return (item.toList ++ items, stop)

/-- `emit_pod_code_assign`, with `*cur` -/
def emitPodCodeAssign (val : Json) (key : CStr) (cur stop : Nat) :
    Option (Option PodArg × Nat) := do
  let var ← convFieldName key
  match val with
  | .string _ | .true | .false | .integer _ | .real _ =>
      let cur ← incr cur
      return (some ⟨key, var, cur = stop⟩, cur)
  | _ => return (none, cur)

/-- The second loop of `emit_pod_code`. -/
def emitPodAssignLoop (stop : Nat) : List Json.Member → Nat → Option (List PodArg)
  | [], _ => some []
  | (key, val) :: rest, cur =>
      if key = inlineCode then emitPodAssignLoop stop rest cur
      else do
        let (arg, cur) ← emitPodCodeAssign val key cur stop
        let args ← emitPodAssignLoop stop rest cur
        return arg.toList ++ args

/-- `emit_pod_code` -/
def emitPodCode (jsData : JsonObject) : Option (Option PodCode) := do
  let (fmt, stop) ← emitPodFmtLoop jsData.members 0
  if stop = 0 then
    return none
  let args ← emitPodAssignLoop stop jsData.members 0
  return some ⟨fmt, args⟩

/-- `emit_struct` and `emit_class` for one object: the second prints the code only where the first
has printed a structure. -/
def emit (jsData : JsonObject) : Option Code := do
  let struct ← emitStruct jsData
  match struct with
  | none => return ⟨struct, none⟩
  | some _ =>
      let pod ← emitPodCode jsData
      return ⟨struct, pod⟩

/-! ## What is printed -/

/-- `emit_struct_field` declares nothing under the key. -/
def Skips (key : CStr) : Prop := (scanVar key.bytes).isSome ∨ key = inlineCode

instance (key : CStr) : Decidable (Skips key) := inferInstanceAs (Decidable (_ ∨ _))

/-- The type a member is declared with. -/
def fieldType : Json → Option CType
  | .array (elm :: _) => (scalarType elm).map .pointer
  | val => scalarType val

/-- The field declared for a member. -/
def declaration (member : Json.Member) : Option FieldDecl :=
  if Skips member.1 then none
  else (fieldType member.2).map fun ctype => ⟨ctype, convFieldLoop member.1.bytes⟩

/-- The format item of a member. -/
def fmtItem : Json → Option FmtItem
  | .string _ => some .s
  | .true | .false => some .b
  | .integer _ => some .i
  | .real _ => some .f
  | _ => none

/-- The member has a format item and an argument. -/
def Unpacked (member : Json.Member) : Prop := member.1 ≠ inlineCode ∧ (fmtItem member.2).isSome

instance (member : Json.Member) : Decidable (Unpacked member) := inferInstanceAs (Decidable (_ ∧ _))

def declared (members : List Json.Member) : List FieldDecl := members.filterMap declaration

def unpacked (members : List Json.Member) : List Json.Member :=
  members.filter fun member => Unpacked member

/-- The arguments of the members unpacked: the last one closes the list. -/
def podArgs : List Json.Member → List PodArg
  | [] => []
  | member :: rest => ⟨member.1, convFieldLoop member.1.bytes, rest.isEmpty⟩ :: podArgs rest

/-- A name and its terminator fit into a buffer. -/
def NameFits (key : CStr) : Prop := (convFieldLoop key.bytes).length < nameSize

instance (key : CStr) : Decidable (NameFits key) := inferInstanceAs (Decidable (_ < _))

/-- What `emit_struct_field` makes of a key fits into its buffer. -/
def KeyFits (key : CStr) : Prop :=
  (∀ token, scanVar key.bytes = some token → token.length < nameSize) ∧
    (¬ Skips key → NameFits key)

/-- The counter of format items never leaves the range of an `int`. -/
def CountsFit : Nat → List Json.Member → Prop
  | _, [] => True
  | count, member :: rest =>
      (member.1 ≠ inlineCode → count + 1 < 2 ^ 31) ∧
        CountsFit (count + if Unpacked member then 1 else 0) rest

private theorem incr_eq_some {count next : Nat} :
    incr count = some next ↔ count + 1 < 2 ^ 31 ∧ next = count + 1 := by
  rw [incr, Option.ite_none_right_eq_some, Option.some.injEq, eq_comm]

private theorem convFieldName_eq_some {key : CStr} {name : List Byte} :
    convFieldName key = some name ↔ NameFits key ∧ name = convFieldLoop key.bytes := by
  rw [convFieldName, Option.ite_none_right_eq_some, Option.some.injEq, eq_comm]
  rfl

private theorem sscanfVar_eq_some {key : CStr} {found : Bool} :
    sscanfVar key = some found ↔
      (∀ token, scanVar key.bytes = some token → token.length < nameSize) ∧
        found = (scanVar key.bytes).isSome := by
  unfold sscanfVar
  cases scanVar key.bytes with
  | none => simp [eq_comm]
  | some token =>
      by_cases fits : token.length < nameSize <;> simp [fits, eq_comm]

/-- An array is declared with a pointer to the type of its first element. -/
theorem emitStructField_eq (key : CStr) (field : Json) :
    emitStructField key field = (sscanfVar key).bind fun found =>
      if found = true ∨ key = inlineCode then some none
      else (convFieldName key).map fun name =>
        (fieldType field).map fun ctype => ⟨ctype, name⟩ := by
  unfold emitStructField
  apply congrArg (Option.bind (sscanfVar key))
  funext found
  by_cases skips : found = true ∨ key = inlineCode
  · simp [skips]
  · cases convFieldName key with
    | none => simp [skips]
    | some name =>
        cases field with
        | array elements =>
            cases elements with
            | nil => simp [skips, fieldType, scalarType]
            | cons elm rest => simp [skips, fieldType, Function.comp_def]
        | _ => simp [skips, fieldType]

private theorem emitStructField_eq_some {key : CStr} {field : Json} {printed : Option FieldDecl} :
    emitStructField key field = some printed ↔
      KeyFits key ∧ printed = declaration (key, field) := by
  rw [emitStructField_eq, Option.bind_eq_some_iff]
  constructor
  · rintro ⟨found, scanned, printed⟩
    obtain ⟨tokenFits, rfl⟩ := sscanfVar_eq_some.mp scanned
    change (if Skips key then _ else _) = _ at printed
    by_cases skips : Skips key
    · rw [if_pos skips, Option.some.injEq] at printed
      refine ⟨⟨tokenFits, fun kept => (kept skips).elim⟩, ?_⟩
      rw [declaration, if_pos skips, printed]
    · rw [if_neg skips, Option.map_eq_some_iff] at printed
      obtain ⟨name, converted, printed⟩ := printed
      obtain ⟨nameFits, rfl⟩ := convFieldName_eq_some.mp converted
      refine ⟨⟨tokenFits, fun _ => nameFits⟩, ?_⟩
      rw [declaration, if_neg skips, printed]
  · rintro ⟨⟨tokenFits, nameFits⟩, rfl⟩
    refine ⟨_, sscanfVar_eq_some.mpr ⟨tokenFits, rfl⟩, ?_⟩
    change (if Skips key then _ else _) = _
    by_cases skips : Skips key
    · rw [if_pos skips, declaration, if_pos skips]
    · rw [if_neg skips, declaration, if_neg skips,
        convFieldName_eq_some.mpr ⟨nameFits skips, rfl⟩, Option.map_some]

/-- An object is not declared. -/
theorem declaration_of_isObject {member : Json.Member} (object : member.2.isObject) :
    declaration member = none := by
  obtain ⟨key, val⟩ := member
  cases val with
  | object members => simp [declaration, fieldType, scalarType]
  | _ => exact absurd object (by simp [Json.isObject])

private theorem declared_cons (member : Json.Member) (rest : List Json.Member) :
    declared (member :: rest) = (declaration member).toList ++ declared rest := by
  unfold declared
  cases declares : declaration member with
  | none => rw [List.filterMap_cons_none declares]; rfl
  | some decl => rw [List.filterMap_cons_some declares]; rfl

/-- Every member but an object has a key that fits. -/
def KeysFit (members : List Json.Member) : Prop :=
  ∀ member ∈ members, member.2.isObject = false → KeyFits member.1

private theorem keysFit_cons {member : Json.Member} {rest : List Json.Member} :
    KeysFit (member :: rest) ↔
      (member.2.isObject = false → KeyFits member.1) ∧ KeysFit rest :=
  List.forall_mem_cons

private theorem emitStructLoop_eq_some {members : List Json.Member} {count : Nat}
    {printed : List FieldDecl × Nat} (counted : count < 2 ^ 31) :
    emitStructLoop members count = some printed ↔
      (KeysFit members ∧ count + (declared members).length < 2 ^ 31) ∧
        printed = (declared members, count + (declared members).length) := by
  induction members generalizing count printed with
  | nil =>
      rw [emitStructLoop, Option.some.injEq, eq_comm]
      exact (and_iff_right ⟨fun _ member => absurd member List.not_mem_nil, counted⟩).symm
  | cons member rest ih =>
      obtain ⟨key, val⟩ := member
      rw [emitStructLoop, keysFit_cons, declared_cons]
      by_cases object : val.isObject = true
      · rw [if_pos object, ih counted, declaration_of_isObject object]
        simp [object]
      · have plain : val.isObject = false := eq_false_of_ne_true object
        rw [if_neg object]
        cases emitted : emitStructField key val with
        | none =>
            have overrun : ¬ KeyFits key := by
              intro fits
              rw [emitStructField_eq_some.mpr ⟨fits, rfl⟩] at emitted
              exact Option.some_ne_none _ emitted
            simp [plain, overrun]
        | some field =>
            obtain ⟨fits, rfl⟩ := emitStructField_eq_some.mp emitted
            cases declaration (key, val) with
            | none => simp [ih counted, plain, fits]
            | some decl =>
                simp only [Option.bind_eq_bind, Option.bind_some, Option.bind_eq_some_iff,
                  incr_eq_some, plain, fits, forall_const, true_and, Option.toList_some,
                  List.length_append, List.length_singleton]
                constructor
                · rintro ⟨_, ⟨below, rfl⟩, ⟨fields, total⟩, looped, printed⟩
                  obtain ⟨⟨restFits, bounded⟩, same⟩ := (ih below).mp looped
                  cases same
                  cases printed
                  exact ⟨⟨restFits, by omega⟩, by simp [Nat.add_assoc]⟩
                · rintro ⟨⟨restFits, bounded⟩, rfl⟩
                  refine ⟨_, ⟨by omega, rfl⟩, _, (ih (by omega)).mpr ⟨⟨restFits, by omega⟩, rfl⟩, ?_⟩
                  simp [Nat.add_assoc]

private theorem emitStruct_eq_some {jsData : JsonObject} {struct : Option (List FieldDecl)} :
    emitStruct jsData = some struct ↔
      (KeysFit jsData.members ∧ (declared jsData.members).length < 2 ^ 31) ∧
        struct = if declared jsData.members = [] then none else some (declared jsData.members) := by
  simp only [emitStruct, Option.bind_eq_bind, Option.bind_eq_some_iff,
    emitStructLoop_eq_some (show 0 < 2 ^ 31 by decide), Nat.zero_add]
  constructor
  · rintro ⟨_, ⟨fits, rfl⟩, printed⟩
    obtain rfl := Option.some.inj printed
    exact ⟨fits, by simp only [List.length_eq_zero_iff]⟩
  · rintro ⟨fits, rfl⟩
    refine ⟨_, ⟨fits, rfl⟩, ?_⟩
    simp only [List.length_eq_zero_iff]
    rfl

/-! ### The format and the arguments -/

private theorem emitPodCodeFmt_eq_some {val : Json} {cnt : Nat} {printed : Option FmtItem × Nat} :
    emitPodCodeFmt val cnt = some printed ↔
      cnt + 1 < 2 ^ 31 ∧
        printed = (fmtItem val, cnt + if (fmtItem val).isSome then 1 else 0) := by
  simp only [emitPodCodeFmt, Option.bind_eq_bind, Option.bind_eq_some_iff, incr_eq_some]
  constructor
  · rintro ⟨_, ⟨below, rfl⟩, printed⟩
    refine ⟨below, ?_⟩
    obtain rfl := Option.some.inj printed
    cases val <;> rfl
  · rintro ⟨below, rfl⟩
    refine ⟨_, ⟨below, rfl⟩, ?_⟩
    cases val <;> rfl

private theorem unpacked_cons_of_pos {member : Json.Member} (taken : Unpacked member)
    (rest : List Json.Member) : unpacked (member :: rest) = member :: unpacked rest :=
  List.filter_cons_of_pos (decide_eq_true taken)

private theorem unpacked_cons_of_neg {member : Json.Member} (left : ¬ Unpacked member)
    (rest : List Json.Member) : unpacked (member :: rest) = unpacked rest :=
  List.filter_cons_of_neg (by rw [decide_eq_true_eq]; exact left)

/-- The items of the members unpacked. -/
def items (members : List Json.Member) : List FmtItem :=
  members.filterMap fun member => fmtItem member.2

private theorem items_cons (member : Json.Member) (rest : List Json.Member) :
    items (member :: rest) = (fmtItem member.2).toList ++ items rest := by
  rw [items, List.filterMap_cons]
  cases fmtItem member.2 with
  | none => rfl
  | some letter => rfl

private theorem emitPodFmtLoop_eq_some {members : List Json.Member} {stop : Nat}
    {printed : List FmtItem × Nat} :
    emitPodFmtLoop members stop = some printed ↔
      CountsFit stop members ∧
        printed = (items (unpacked members), stop + (unpacked members).length) := by
  induction members generalizing stop printed with
  | nil =>
      rw [emitPodFmtLoop, Option.some.injEq, eq_comm]
      exact (and_iff_right trivial).symm
  | cons member rest ih =>
      obtain ⟨key, val⟩ := member
      rw [emitPodFmtLoop, CountsFit]
      by_cases inline : key = inlineCode
      · have left : ¬ Unpacked (key, val) := fun taken => taken.1 inline
        rw [if_pos inline, ih, if_neg left, unpacked_cons_of_neg left]
        simp [inline]
      · rw [if_neg inline]
        cases emitted : emitPodCodeFmt val stop with
        | none =>
            have overflow : ¬ stop + 1 < 2 ^ 31 := by
              intro below
              rw [emitPodCodeFmt_eq_some.mpr ⟨below, rfl⟩] at emitted
              exact Option.some_ne_none _ emitted
            refine iff_of_false ?_ fun fits => overflow (fits.1.1 inline)
            exact fun printed => Option.some_ne_none _ printed.symm
        | some first =>
            obtain ⟨below, rfl⟩ := emitPodCodeFmt_eq_some.mp emitted
            have later : ∀ count (front : List FmtItem),
                ((emitPodFmtLoop rest count).bind fun next =>
                    some (front ++ next.1, next.2)) = some printed ↔
                  CountsFit count rest ∧ printed = (front ++ items (unpacked rest),
                    count + (unpacked rest).length) := by
              intro count front
              rw [Option.bind_eq_some_iff]
              constructor
              · rintro ⟨next, looped, printed⟩
                obtain ⟨fits, rfl⟩ := ih.mp looped
                exact ⟨fits, (Option.some.inj printed).symm⟩
              · rintro ⟨fits, rfl⟩
                exact ⟨_, ih.mpr ⟨fits, rfl⟩, rfl⟩
            have counted : (key, val).1 ≠ inlineCode → stop + 1 < 2 ^ 31 := fun _ => below
            refine (later _ _).trans ?_
            rw [and_iff_right counted]
            cases item : fmtItem val with
            | none =>
                have left : ¬ Unpacked (key, val) := by simp [Unpacked, item]
                rw [if_neg left, unpacked_cons_of_neg left]
                simp
            | some letter =>
                have taken : Unpacked (key, val) := ⟨inline, by simp [item]⟩
                rw [if_pos taken, unpacked_cons_of_pos taken, items_cons, item]
                simp [Nat.add_assoc, Nat.add_comm 1]

/-- A counter that never overflows is at most the largest `int` in the end. -/
theorem CountsFit.total_lt {members : List Json.Member} {count : Nat} (counted : count < 2 ^ 31)
    (fits : CountsFit count members) : count + (unpacked members).length < 2 ^ 31 := by
  induction members generalizing count with
  | nil => exact counted
  | cons member rest ih =>
      by_cases taken : Unpacked member
      · have later := ih (fits.1 taken.1) (by simpa [taken] using fits.2)
        rw [unpacked_cons_of_pos taken, List.length_cons]
        omega
      · rw [unpacked_cons_of_neg taken]
        exact ih counted (by simpa [taken] using fits.2)

/-- Every name converted for an argument fits. -/
def NamesFit (members : List Json.Member) : Prop :=
  ∀ member ∈ members, member.1 ≠ inlineCode → NameFits member.1

private theorem namesFit_cons {member : Json.Member} {rest : List Json.Member} :
    NamesFit (member :: rest) ↔ (member.1 ≠ inlineCode → NameFits member.1) ∧ NamesFit rest :=
  List.forall_mem_cons

private theorem emitPodCodeAssign_eq (val : Json) (key : CStr) (cur stop : Nat) :
    emitPodCodeAssign val key cur stop = (convFieldName key).bind fun var =>
      if (fmtItem val).isSome then
        (incr cur).bind fun cur => some (some ⟨key, var, cur = stop⟩, cur)
      else some (none, cur) := by
  cases val <;> rfl

private theorem emitPodCodeAssign_eq_some {val : Json} {key : CStr} {cur stop : Nat}
    (bounded : (fmtItem val).isSome → cur + 1 < 2 ^ 31) {printed : Option PodArg × Nat} :
    emitPodCodeAssign val key cur stop = some printed ↔
      NameFits key ∧ printed =
        if (fmtItem val).isSome then
          (some ⟨key, convFieldLoop key.bytes, cur + 1 = stop⟩, cur + 1)
        else (none, cur) := by
  have counted : ∀ var, (if (fmtItem val).isSome then
        (incr cur).bind fun cur => some (some (PodArg.mk key var (cur = stop)), cur)
      else some (none, cur)) =
      some (if (fmtItem val).isSome then (some ⟨key, var, cur + 1 = stop⟩, cur + 1)
        else (none, cur)) := by
    intro var
    by_cases scalar : (fmtItem val).isSome
    · rw [if_pos scalar, if_pos scalar, incr_eq_some.mpr ⟨bounded scalar, rfl⟩, Option.bind_some]
    · rw [if_neg scalar, if_neg scalar]
  rw [emitPodCodeAssign_eq, Option.bind_eq_some_iff]
  constructor
  · rintro ⟨var, converted, printed⟩
    obtain ⟨fits, rfl⟩ := convFieldName_eq_some.mp converted
    rw [counted, Option.some.injEq] at printed
    exact ⟨fits, printed.symm⟩
  · rintro ⟨fits, rfl⟩
    exact ⟨_, convFieldName_eq_some.mpr ⟨fits, rfl⟩, counted _⟩

private theorem emitPodAssignLoop_eq_some {stop : Nat} {members : List Json.Member} {cur : Nat}
    (reached : cur + (unpacked members).length = stop) (bounded : stop < 2 ^ 31)
    {printed : List PodArg} :
    emitPodAssignLoop stop members cur = some printed ↔
      NamesFit members ∧ printed = podArgs (unpacked members) := by
  induction members generalizing cur printed with
  | nil =>
      rw [emitPodAssignLoop, Option.some.injEq, eq_comm]
      exact (and_iff_right fun _ member => absurd member List.not_mem_nil).symm
  | cons member rest ih =>
      obtain ⟨key, val⟩ := member
      rw [emitPodAssignLoop, namesFit_cons]
      by_cases inline : key = inlineCode
      · have left : ¬ Unpacked (key, val) := fun taken => taken.1 inline
        rw [unpacked_cons_of_neg left] at reached ⊢
        rw [if_pos inline, ih reached]
        simp [inline]
      · rw [if_neg inline, Option.bind_eq_bind, Option.bind_eq_some_iff]
        by_cases scalar : (fmtItem val).isSome
        · have taken : Unpacked (key, val) := ⟨inline, scalar⟩
          rw [unpacked_cons_of_pos taken, List.length_cons] at reached
          have last : decide (cur + 1 = stop) = (unpacked rest).isEmpty := by
            rw [Bool.eq_iff_iff, decide_eq_true_eq, List.isEmpty_iff, ← List.length_eq_zero_iff]
            omega
          rw [unpacked_cons_of_pos taken, podArgs]
          simp only [emitPodCodeAssign_eq_some (fun _ => show cur + 1 < 2 ^ 31 by omega),
            if_pos scalar]
          constructor
          · rintro ⟨_, ⟨fits, rfl⟩, printed⟩
            obtain ⟨args, looped, printed⟩ := Option.bind_eq_some_iff.mp printed
            obtain ⟨restFits, rfl⟩ := (ih (by omega)).mp looped
            obtain rfl := Option.some.inj printed
            exact ⟨⟨fun _ => fits, restFits⟩, by rw [last]; rfl⟩
          · rintro ⟨⟨fits, restFits⟩, rfl⟩
            refine ⟨_, ⟨fits inline, rfl⟩, ?_⟩
            refine Option.bind_eq_some_iff.mpr ⟨_, (ih (by omega)).mpr ⟨restFits, rfl⟩, ?_⟩
            rw [last]
            rfl
        · have left : ¬ Unpacked (key, val) := fun taken => scalar taken.2
          rw [unpacked_cons_of_neg left] at reached ⊢
          simp only [emitPodCodeAssign_eq_some (fun is => absurd is scalar), if_neg scalar]
          constructor
          · rintro ⟨_, ⟨fits, rfl⟩, printed⟩
            obtain ⟨args, looped, printed⟩ := Option.bind_eq_some_iff.mp printed
            obtain ⟨restFits, rfl⟩ := (ih reached).mp looped
            obtain rfl := Option.some.inj printed
            exact ⟨⟨fun _ => fits, restFits⟩, rfl⟩
          · rintro ⟨⟨fits, restFits⟩, rfl⟩
            refine ⟨_, ⟨fits inline, rfl⟩, ?_⟩
            exact Option.bind_eq_some_iff.mpr ⟨_, (ih reached).mpr ⟨restFits, rfl⟩, rfl⟩

/-- What fits when `emit_pod_code` is called. -/
def PodFits (members : List Json.Member) : Prop :=
  CountsFit 0 members ∧ (unpacked members ≠ [] → NamesFit members)

private theorem emitPodCode_eq_some {jsData : JsonObject} {pod : Option PodCode} :
    emitPodCode jsData = some pod ↔
      PodFits jsData.members ∧ pod =
        if unpacked jsData.members = [] then none
        else some ⟨items (unpacked jsData.members), podArgs (unpacked jsData.members)⟩ := by
  rw [emitPodCode, Option.bind_eq_bind, Option.bind_eq_some_iff]
  simp only [emitPodFmtLoop_eq_some, Nat.zero_add]
  constructor
  · rintro ⟨_, ⟨counts, rfl⟩, printed⟩
    by_cases nothing : unpacked jsData.members = []
    · simp only [nothing, List.length_nil, if_true] at printed
      exact ⟨⟨counts, fun some => (some nothing).elim⟩, by rw [if_pos nothing]; cases printed; rfl⟩
    · have counted : (unpacked jsData.members).length ≠ 0 := by simpa using nothing
      rw [if_neg counted] at printed
      obtain ⟨args, looped, printed⟩ := Option.bind_eq_some_iff.mp printed
      have bounded := counts.total_lt (by decide)
      rw [Nat.zero_add] at bounded
      obtain ⟨names, rfl⟩ := (emitPodAssignLoop_eq_some (Nat.zero_add _) bounded).mp looped
      obtain rfl := Option.some.inj printed
      exact ⟨⟨counts, fun _ => names⟩, by rw [if_neg nothing]⟩
  · rintro ⟨⟨counts, names⟩, rfl⟩
    refine ⟨_, ⟨counts, rfl⟩, ?_⟩
    by_cases nothing : unpacked jsData.members = []
    · simp only [nothing, List.length_nil, if_true]
      rfl
    · have counted : (unpacked jsData.members).length ≠ 0 := by simpa using nothing
      have bounded := counts.total_lt (by decide)
      rw [Nat.zero_add] at bounded
      have looped := (emitPodAssignLoop_eq_some (Nat.zero_add _) bounded).mpr
        ⟨names nothing, rfl⟩
      rw [if_neg counted, if_neg nothing]
      exact Option.bind_eq_some_iff.mpr ⟨_, looped, rfl⟩

/-- The buffers and the counters of the generator hold what an object puts into them. -/
structure Fits (jsData : JsonObject) : Prop where
  keys : KeysFit jsData.members
  fields : (declared jsData.members).length < 2 ^ 31
  pod : declared jsData.members ≠ [] → PodFits jsData.members

/-- What is printed for an object that fits. -/
def printed (members : List Json.Member) : Code where
  struct := if declared members = [] then none else some (declared members)
  pod :=
    if declared members = [] ∨ unpacked members = [] then none
    else some ⟨items (unpacked members), podArgs (unpacked members)⟩

/-- **The generator.** -/
theorem emit_eq_some {jsData : JsonObject} {code : Code} :
    emit jsData = some code ↔ Fits jsData ∧ code = printed jsData.members := by
  rw [emit, Option.bind_eq_bind, Option.bind_eq_some_iff]
  simp only [emitStruct_eq_some]
  by_cases nothing : declared jsData.members = []
  · constructor
    · rintro ⟨_, ⟨⟨keys, fields⟩, rfl⟩, emitted⟩
      simp only [if_pos nothing] at emitted
      obtain rfl := Option.some.inj emitted
      refine ⟨⟨keys, fields, fun some => (some nothing).elim⟩, ?_⟩
      rw [printed, if_pos nothing, if_pos (.inl nothing)]
    · rintro ⟨fits, rfl⟩
      refine ⟨_, ⟨⟨fits.keys, fits.fields⟩, rfl⟩, ?_⟩
      rw [printed, if_pos nothing, if_pos (.inl nothing)]
      rfl
  · constructor
    · rintro ⟨_, ⟨⟨keys, fields⟩, rfl⟩, emitted⟩
      simp only [if_neg nothing] at emitted
      obtain ⟨pod, called, emitted⟩ := Option.bind_eq_some_iff.mp emitted
      obtain ⟨podFits, rfl⟩ := emitPodCode_eq_some.mp called
      obtain rfl := Option.some.inj emitted
      refine ⟨⟨keys, fields, fun _ => podFits⟩, ?_⟩
      simp only [printed, nothing, false_or, if_false]
    · rintro ⟨fits, rfl⟩
      refine ⟨_, ⟨⟨fits.keys, fits.fields⟩, rfl⟩, ?_⟩
      rw [if_neg nothing]
      have called := emitPodCode_eq_some.mpr ⟨fits.pod nothing, rfl⟩
      refine Option.bind_eq_some_iff.mpr ⟨_, called, ?_⟩
      simp only [printed, nothing, false_or, if_false]
      rfl

/-! ## Agreement of the two functions -/

/-- `json_unpack` stores an item of the format through a pointer to such a type. -/
def FmtItem.storesThrough : FmtItem → CType → Bool
  | .s, .pointer .char => true
  | .b, .int => true
  | .i, .int => true
  | .i, .uint32 => true
  | .f, .double => true
  | _, _ => false

/-- An argument refers to one field declared, of a type that its item stores through. -/
def Refers (fields : List FieldDecl) (item : FmtItem) (arg : PodArg) : Prop :=
  ∃ ctype, item.storesThrough ctype ∧
    (fields.filter fun field => field.name = arg.var) = [⟨ctype, arg.var⟩]

/-- The code that fills the structure agrees with its fields and in itself. -/
structure PodCode.Consistent (jsData : JsonObject) (fields : List FieldDecl) (pod : PodCode) :
    Prop where
  ordered : pod.args.map (fun arg => (jsData.get arg.key).bind fmtItem) = pod.fmt.map some
  refers : List.Forall₂ (Refers fields) pod.fmt pod.args
  closed : pod.args.map (·.closes) = List.replicate (pod.args.length - 1) false ++ [true]

/-- The code printed for an object is consistent. -/
def Code.Consistent (jsData : JsonObject) (code : Code) : Prop :=
  ∀ pod, code.pod = some pod → ∃ fields, code.struct = some fields ∧ pod.Consistent jsData fields

/-- A field is declared for the member. -/
def Declared (member : Json.Member) : Prop := ¬ Skips member.1 ∧ (fieldType member.2).isSome

/-- No other member is declared under the name of this one. -/
def Alone (members : List Json.Member) (member : Json.Member) : Prop :=
  ∀ other ∈ members, Declared other →
    convFieldLoop other.1.bytes = convFieldLoop member.1.bytes → other = member

/-- Another member, the only one declared under the name of this one, has a field of its type. -/
def Borrows (members : List Json.Member) (member : Json.Member) : Prop :=
  ∃ owner ∈ members, Declared owner ∧
    convFieldLoop owner.1.bytes = convFieldLoop member.1.bytes ∧
    fieldType owner.2 = scalarType member.2 ∧
    ∀ other ∈ members, Declared other →
      convFieldLoop other.1.bytes = convFieldLoop member.1.bytes → other = owner

/-- What a member unpacked needs: no boolean, and a field of its own. With a key `${…}` it has no
field, and needs that of another member. -/
structure Agrees (members : List Json.Member) (member : Json.Member) : Prop where
  kind : member.2.isBoolean = false
  field : (scanVar member.1.bytes = none ∧ Alone members member) ∨
    ((scanVar member.1.bytes).isSome ∧ Borrows members member)

theorem filterMap_eq_singleton {α β : Type*} {f : α → Option β} {l : List α} (nodup : l.Nodup)
    {b : β} : l.filterMap f = [b] ↔
      ∃ a ∈ l, f a = some b ∧ ∀ other ∈ l, (f other).isSome → other = a := by
  induction l with
  | nil => simp
  | cons head rest ih =>
      obtain ⟨fresh, nodup⟩ := List.nodup_cons.mp nodup
      cases image : f head with
      | none =>
          rw [List.filterMap_cons_none image, ih nodup]
          simp [image]
      | some value =>
          rw [List.filterMap_cons_some image, List.cons.injEq, List.filterMap_eq_nil_iff]
          constructor
          · rintro ⟨rfl, others⟩
            refine ⟨head, List.mem_cons_self, image, ?_⟩
            intro other member mapped
            rcases List.mem_cons.mp member with rfl | later
            · rfl
            · rw [others other later] at mapped
              exact absurd mapped (by simp)
          · rintro ⟨owner, member, mapped, only⟩
            obtain rfl := only head List.mem_cons_self (by simp [image])
            refine ⟨Option.some.inj (image.symm.trans mapped), ?_⟩
            intro other later
            cases found : f other with
            | none => rfl
            | some _ =>
                have same := only other (List.mem_cons_of_mem _ later) (by simp [found])
                exact absurd (same ▸ later) fresh

private theorem fieldType_ne_int (val : Json) : fieldType val ≠ some .int := by
  cases val with
  | array elements => cases elements <;> simp [fieldType, scalarType]
  | _ => simp [fieldType, scalarType]

/-- An item stores through the type its own member is declared with, unless that is `bool`. -/
theorem storesThrough_iff {val : Json} {item : FmtItem} (is : fmtItem val = some item)
    {ctype : CType} (plain : ctype ≠ .int) :
    item.storesThrough ctype = true ↔ val.isBoolean = false ∧ scalarType val = some ctype := by
  cases val with
  | string _ =>
      cases is
      cases ctype with
      | pointer target =>
          cases target <;> simp [FmtItem.storesThrough, Json.isBoolean, scalarType]
      | _ => simp [FmtItem.storesThrough, Json.isBoolean, scalarType]
  | object _ | array _ | null => simp [fmtItem] at is
  | _ =>
      cases is
      cases ctype <;> simp_all [FmtItem.storesThrough, Json.isBoolean, scalarType]

private theorem declaration_eq_some {member : Json.Member} {field : FieldDecl} :
    declaration member = some field ↔ Declared member ∧ fieldType member.2 = some field.ctype ∧
      convFieldLoop member.1.bytes = field.name := by
  unfold declaration Declared
  by_cases skips : Skips member.1
  · simp [skips]
  · rw [if_neg skips, Option.map_eq_some_iff]
    constructor
    · rintro ⟨ctype, typed, rfl⟩
      exact ⟨⟨skips, by simp [typed]⟩, typed, rfl⟩
    · rintro ⟨_, typed, named⟩
      exact ⟨field.ctype, typed, by rw [named]⟩

/-- The fields declared under a name are one exactly where one member is declared under it. -/
theorem filter_declared_eq_singleton {members : List Json.Member} (nodup : members.Nodup)
    {ctype : CType} {name : List Byte} :
    (declared members).filter (fun field => field.name = name) = [⟨ctype, name⟩] ↔
      ∃ owner ∈ members, Declared owner ∧ convFieldLoop owner.1.bytes = name ∧
        fieldType owner.2 = some ctype ∧
        ∀ other ∈ members, Declared other → convFieldLoop other.1.bytes = name → other = owner := by
  have named : ∀ {member : Json.Member} {field : FieldDecl},
      (declaration member).filter (fun field => field.name = name) = some field ↔
        declaration member = some field ∧ field.name = name := by
    intro member field
    rw [Option.filter_eq_some_iff, decide_eq_true_eq]
  rw [declared, List.filter_filterMap, filterMap_eq_singleton nodup]
  simp only [Option.isSome_iff_exists, named, declaration_eq_some]
  constructor
  · rintro ⟨owner, member, ⟨⟨declares, typed, same⟩, -⟩, only⟩
    refine ⟨owner, member, declares, same, typed, ?_⟩
    intro other otherMember otherDeclares otherSame
    obtain ⟨otherType, otherTyped⟩ := Option.isSome_iff_exists.mp otherDeclares.2
    exact only other otherMember ⟨⟨otherType, name⟩, ⟨otherDeclares, otherTyped, otherSame⟩, rfl⟩
  · rintro ⟨owner, member, declares, same, typed, only⟩
    refine ⟨owner, member, ⟨⟨declares, typed, same⟩, trivial⟩, ?_⟩
    rintro other otherMember ⟨field, ⟨otherDeclares, -, otherSame⟩, fieldName⟩
    exact only other otherMember otherDeclares (otherSame.trans fieldName)

/-- A member unpacked under a plain key is declared. -/
theorem Unpacked.declared {member : Json.Member} (taken : Unpacked member)
    (plain : scanVar member.1.bytes = none) :
    Declared member ∧ fieldType member.2 = scalarType member.2 := by
  obtain ⟨key, val⟩ := member
  have kept : ¬ Skips key := by
    rintro (isVar | inline)
    · rw [plain] at isVar
      exact absurd isVar (by simp)
    · exact taken.1 inline
  have item := taken.2
  refine ⟨⟨kept, ?_⟩, ?_⟩ <;> cases val <;> simp_all [fieldType, scalarType, fmtItem]

/-- **One argument.** It refers to one field of the right type exactly where its member agrees. -/
theorem refers_iff {jsData : JsonObject} {member : Json.Member} (inside : member ∈ jsData.members)
    (taken : Unpacked member) {item : FmtItem} (is : fmtItem member.2 = some item)
    (closes : Bool) :
    Refers (CppJson.declared jsData.members) item
        ⟨member.1, convFieldLoop member.1.bytes, closes⟩ ↔
      Agrees jsData.members member := by
  unfold Refers
  simp only [filter_declared_eq_singleton jsData.members_nodup]
  constructor
  · rintro ⟨ctype, stores, owner, ownerMember, declares, same, typed, only⟩
    have notInt : ctype ≠ .int := fun isInt => fieldType_ne_int owner.2 (isInt ▸ typed)
    obtain ⟨kind, scalar⟩ := (storesThrough_iff is notInt).mp stores
    refine ⟨kind, ?_⟩
    cases plain : scanVar member.1.bytes with
    | none =>
        obtain rfl := only member inside (taken.declared plain).1 rfl
        exact .inl ⟨rfl, only⟩
    | some token =>
        exact .inr ⟨rfl, owner, ownerMember, declares, same, typed.trans scalar.symm, only⟩
  · rintro ⟨kind, ⟨plain, alone⟩ | ⟨-, owner, ownerMember, declares, same, typed, only⟩⟩
    · obtain ⟨declares, typed⟩ := taken.declared plain
      obtain ⟨ctype, own⟩ := Option.isSome_iff_exists.mp declares.2
      have notInt : ctype ≠ .int := fun isInt => fieldType_ne_int member.2 (isInt ▸ own)
      exact ⟨ctype, (storesThrough_iff is notInt).mpr ⟨kind, typed.symm.trans own⟩, member, inside,
        declares, rfl, own, alone⟩
    · obtain ⟨ctype, own⟩ := Option.isSome_iff_exists.mp declares.2
      have notInt : ctype ≠ .int := fun isInt => fieldType_ne_int owner.2 (isInt ▸ own)
      exact ⟨ctype, (storesThrough_iff is notInt).mpr ⟨kind, typed.symm.trans own⟩, owner,
        ownerMember, declares, same, own, only⟩

/-- The arguments stand in the order of the items. -/
theorem podArgs_ordered {jsData : JsonObject} {members : List Json.Member}
    (inside : ∀ member ∈ members, member ∈ jsData.members)
    (scalar : ∀ member ∈ members, (fmtItem member.2).isSome) :
    (podArgs members).map (fun arg => (jsData.get arg.key).bind fmtItem) =
      (items members).map some := by
  induction members with
  | nil => rfl
  | cons member rest ih =>
      obtain ⟨item, is⟩ := Option.isSome_iff_exists.mp (scalar member List.mem_cons_self)
      have later := ih (fun other later => inside other (List.mem_cons_of_mem _ later))
        (fun other later => scalar other (List.mem_cons_of_mem _ later))
      rw [podArgs, items_cons, is, List.map_cons, later,
        JsonObject.get_of_mem (inside member List.mem_cons_self), Option.bind_some, is]
      rfl

private theorem podArgs_length (members : List Json.Member) :
    (podArgs members).length = members.length := by
  induction members with
  | nil => rfl
  | cons member rest ih => rw [podArgs, List.length_cons, ih, List.length_cons]

/-- The last argument closes the list, and no other does. -/
theorem podArgs_closes {members : List Json.Member} (some : members ≠ []) :
    (podArgs members).map (·.closes) =
      List.replicate ((podArgs members).length - 1) false ++ [true] := by
  rw [podArgs_length]
  induction members with
  | nil => exact (some rfl).elim
  | cons member rest ih =>
      cases rest with
      | nil => rfl
      | cons next rest =>
          rw [podArgs, List.map_cons, ih (List.cons_ne_nil _ _)]
          rfl

private theorem forall₂_refers {jsData : JsonObject} {members : List Json.Member}
    (inside : ∀ member ∈ members, member ∈ jsData.members)
    (taken : ∀ member ∈ members, Unpacked member) :
    List.Forall₂ (Refers (declared jsData.members)) (items members) (podArgs members) ↔
      ∀ member ∈ members, Agrees jsData.members member := by
  induction members with
  | nil => exact iff_of_true .nil fun _ member => absurd member List.not_mem_nil
  | cons member rest ih =>
      have own := taken member List.mem_cons_self
      obtain ⟨item, is⟩ := Option.isSome_iff_exists.mp own.2
      rw [podArgs, items_cons, is, Option.toList_some, List.singleton_append, List.forall₂_cons,
        refers_iff (inside member List.mem_cons_self) own is,
        ih (fun other later => inside other (List.mem_cons_of_mem _ later))
          (fun other later => taken other (List.mem_cons_of_mem _ later)),
        List.forall_mem_cons]

private theorem mem_unpacked {members : List Json.Member} {member : Json.Member} :
    member ∈ unpacked members ↔ member ∈ members ∧ Unpacked member := by
  rw [unpacked, List.mem_filter, decide_eq_true_eq]

/-- **The code printed.** Its items and arguments always agree in number and order, and its list
is always closed; its arguments refer to fields of their types where their members agree. -/
theorem printed_consistent_iff (jsData : JsonObject) :
    (printed jsData.members).Consistent jsData ↔
      (declared jsData.members ≠ [] →
        ∀ member ∈ jsData.members, Unpacked member → Agrees jsData.members member) := by
  have inside : ∀ member ∈ unpacked jsData.members, member ∈ jsData.members :=
    fun member taken => (mem_unpacked.mp taken).1
  have taken : ∀ member ∈ unpacked jsData.members, Unpacked member :=
    fun member taken => (mem_unpacked.mp taken).2
  have agree : (∀ member ∈ unpacked jsData.members, Agrees jsData.members member) ↔
      ∀ member ∈ jsData.members, Unpacked member → Agrees jsData.members member := by
    simp only [mem_unpacked, and_imp]
  rw [← agree, ← forall₂_refers inside taken]
  constructor
  · intro consistent some
    by_cases nothing : unpacked jsData.members = []
    · rw [nothing]
      exact .nil
    · obtain ⟨fields, struct, pod⟩ := consistent ⟨_, _⟩ (if_neg (not_or.mpr ⟨some, nothing⟩))
      have same := struct.symm.trans (if_neg some)
      exact Option.some.inj same ▸ pod.refers
  · intro refers pod filled
    simp only [printed, Option.ite_none_left_eq_some, not_or] at filled
    obtain ⟨⟨some, nonempty⟩, filled⟩ := filled
    obtain rfl := Option.some.inj filled
    refine ⟨_, if_neg some, ?_⟩
    exact ⟨podArgs_ordered inside fun member inUnpacked => (taken member inUnpacked).2, refers some,
      podArgs_closes nonempty⟩

/-- The buffers and counters hold what they are given; and if a structure is printed, every member
unpacked into it agrees. -/
def Agreeable (jsData : JsonObject) : Prop :=
  Fits jsData ∧ (declared jsData.members ≠ [] →
    ∀ member ∈ jsData.members, Unpacked member → Agrees jsData.members member)

/-- **The code of an object is consistent** exactly where the object is agreeable. -/
theorem emit_consistent_iff (jsData : JsonObject) :
    (∃ code, emit jsData = some code ∧ code.Consistent jsData) ↔ Agreeable jsData := by
  simp only [emit_eq_some]
  constructor
  · rintro ⟨_, ⟨fits, rfl⟩, consistent⟩
    exact ⟨fits, (printed_consistent_iff jsData).mp consistent⟩
  · rintro ⟨fits, agree⟩
    exact ⟨_, ⟨fits, rfl⟩, (printed_consistent_iff jsData).mpr agree⟩

/-- `{ "on": true }` -/
def flagObject : JsonObject where
  members := [(⟨[111#8, 110#8], by decide⟩, .true)]
  distinct := by decide

/-- A boolean is stored as an `int` into a field declared `bool`. -/
theorem exists_emit_not_consistent :
    ∃ jsData code, emit jsData = some code ∧ ¬ code.Consistent jsData := by
  refine ⟨flagObject, ⟨some [⟨.bool, [111#8, 110#8]⟩],
    some ⟨[.b], [⟨⟨[111#8, 110#8], by decide⟩, [111#8, 110#8], true⟩]⟩⟩, by decide +kernel, ?_⟩
  intro consistent
  obtain ⟨fields, struct, pod⟩ := consistent _ rfl
  obtain rfl := Option.some.inj struct
  obtain ⟨ctype, stores, declared⟩ := (List.forall₂_cons.mp pod.refers).1
  have typed : ctype = .bool := by
    have same := List.cons.inj declared
    exact (congrArg FieldDecl.ctype same.1).symm
  rw [typed] at stores
  exact absurd stores (by decide)

end CppJson

end Tvntd
