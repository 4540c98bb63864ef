import Tvntd.Json.ArrayNames

/-! # Values of a JSON object by key

`js_kv_int64` and `js_set_kv_int64` of `json/json-obj.cpp`: a 64-bit number is
kept as a string, in hexadecimal behind `0x`. The setters change a value only
into one of its own type, so a key that holds anything but a string keeps it.
-/

namespace Tvntd

open Numerals

/-! ## The JSON library -/

namespace JsonObject

/-- A member gets the value, where it is or, as a new one, behind all others. -/
def put (json : JsonObject) (key : CStr) (value : Json) : JsonObject :=
  if present : key ∈ json.members.map Prod.fst then
    { members := json.members.map fun member =>
        if member.1 = key then (key, value) else member
      distinct := by
        have keys : (json.members.map fun member =>
            if member.1 = key then (key, value) else member).map Prod.fst =
              json.members.map Prod.fst := by
          rw [List.map_map]
          apply List.map_congr_left
          intro member _
          by_cases same : member.1 = key
          · simp [same]
          · simp [same]
        rw [keys]
        exact json.distinct }
  else
    { members := json.members ++ [(key, value)]
      distinct := by
        rw [List.map_append]
        exact List.nodup_append_comm.mp (List.nodup_cons.mpr ⟨present, json.distinct⟩) }

private theorem get_put (json : JsonObject) (key : CStr) (value : Json) (other : CStr) :
    (json.put key value).get other = if other = key then some value else json.get other := by
  have own : ∀ members : List Json.Member, key ∈ members.map Prod.fst →
      ((members.map fun member => if member.1 = key then (key, value) else member).find?
        fun member => member.1 = key).map Prod.snd = some value := by
    intro members present
    induction members with
    | nil => cases present
    | cons member rest ih =>
        by_cases same : member.1 = key
        · simp [same]
        · have later : key ∈ rest.map Prod.fst := by
            rcases List.mem_cons.mp present with here | later
            · exact (same here.symm).elim
            · exact later
          simpa [same] using ih later
  have others : ∀ members : List Json.Member, other ≠ key →
      (members.map fun member => if member.1 = key then (key, value) else member).find?
          (fun member => member.1 = other) = members.find? fun member => member.1 = other := by
    intro members differs
    induction members with
    | nil => rfl
    | cons member rest ih =>
        rw [List.map_cons, List.find?_cons, List.find?_cons, ih]
        by_cases same : member.1 = key
        · have first : key ≠ other := differs.symm
          simp [same, first]
        · simp [same]
  unfold put get
  by_cases same : other = key
  · subst same
    rw [if_pos rfl]
    split
    · rename_i present
      exact own _ present
    · rename_i absent
      have none : json.members.find? (fun member => member.1 = other) = none := by
        apply List.find?_eq_none.mpr
        intro member inside
        have differs : member.1 ≠ other := fun same =>
          absent (same ▸ List.mem_map_of_mem inside)
        simpa using differs
      rw [List.find?_append, none]
      simp
  · rw [if_neg same]
    split
    · rw [others _ same]
    · have last : ([(key, value)].find? fun member : Json.Member => member.1 = other) = none := by
        simpa using fun equal : key = other => same equal.symm
      rw [List.find?_append, last, Option.or_none]

/-- `json_object_set_new`; it does nothing with a null pointer or a key that is no UTF-8. -/
def setNew (json : JsonObject) (key : CStr) (value : Option Json) : JsonObject :=
  match value with
  | some value => if utf8Check key then json.put key value else json
  | none => json

end JsonObject

namespace JsBase

/-- `js_kv_int64` -/
def jsKvInt64 (jsData : JsonObject) (key : CStr) : BitVec 64 :=
  match jsData.get key with
  | some (.string str) =>
      match str.bytes with
      | 48#8 :: x :: _ =>
          if x = 120#8 || x = 88#8 then (strtoull 16 str.bytes).1 else (strtoull 10 str.bytes).1
      | _ => (strtoull 10 str.bytes).1
  | _ => 0

/-- `js_set_kv_str`; `none` is its failed assertion. -/
def jsSetKvStr (jsData : JsonObject) (key str : CStr) : Option JsonObject :=
  match jsData.get key with
  | none =>
      let next := jsData.setNew key (jsonString str)
      if (next.get key).isSome then some next else none
  | some (.string _) =>
      -- `json_string_set` refuses what is no UTF-8
      some (if utf8Check str then jsData.put key (.string str) else jsData)
  | some _ => some jsData

/-- `JsManager::name_size` -/
def nameSize : Nat := 256

/-- `0x%lx` -/
def percentLx (val : BitVec 64) : CStr where
  bytes := 48#8 :: 120#8 :: hexadecimal val.toNat
  ended := by simp [nul_notMem_hexadecimal]

/-- `js_set_kv_int64` -/
def jsSetKvInt64 (jsData : JsonObject) (key : CStr) (val : BitVec 64) : Option JsonObject :=
  jsSetKvStr jsData key (JsNames.snprintf nameSize (percentLx val))

/-- The number can be read back, and no other key has another value. -/
def KeepsInt64 (jsData : JsonObject) (key : CStr) (val : BitVec 64) : Prop :=
  ∃ next, jsSetKvInt64 jsData key val = some next ∧ jsKvInt64 next key = val ∧
    ∀ other, other ≠ key → next.get other = jsData.get other

/-- There is a string to change or no value yet, or it makes no difference: anything but a string
is read as zero. -/
def TakesInt64 (jsData : JsonObject) (key : CStr) (val : BitVec 64) : Prop :=
  match jsData.get key with
  | none => utf8Check key = true
  | some (.string _) => True
  | some _ => val = 0

/-- The number fits into the buffer. -/
theorem snprintf_percentLx (val : BitVec 64) :
    JsNames.snprintf nameSize (percentLx val) = percentLx val := by
  rw [CStr.ext_iff, JsNames.bytes_snprintf]
  apply List.take_of_length_le
  have digits : (hexadecimal val.toNat).length ≤ 16 :=
    length_hexadecimal_le (by decide) (Nat.lt_of_lt_of_eq val.isLt (by decide))
  simp only [percentLx, List.length_cons, nameSize]
  omega

private theorem utf8Check_percentLx (val : BitVec 64) : utf8Check (percentLx val) = true := by
  apply utf8Check_ascii
  intro byte inside
  have ascii : ∀ digit < 16, (hexDigit digit).toNat < 128 := by decide
  rcases List.mem_cons.mp inside with rfl | inside
  · decide
  · rcases List.mem_cons.mp inside with rfl | inside
    · decide
    · obtain ⟨digit, small, rfl⟩ := mem_hexadecimal inside
      exact ascii digit small

/-- A number that was printed into a string is read from it. -/
theorem jsKvInt64_of_get {jsData : JsonObject} {key : CStr} {val : BitVec 64}
    (holds : jsData.get key = some (.string (percentLx val))) : jsKvInt64 jsData key = val := by
  have read : (strtoull 16 (percentLx val).bytes).1 = val :=
    congrArg Prod.fst (strtoull_hexadecimal val)
  unfold jsKvInt64
  rw [holds]
  exact read

/-- What `js_set_kv_int64` does, by what the key holds. -/
theorem jsSetKvInt64_eq (jsData : JsonObject) (key : CStr) (val : BitVec 64) :
    jsSetKvInt64 jsData key val =
      match jsData.get key with
      | none => if utf8Check key then some (jsData.put key (.string (percentLx val))) else none
      | some (.string _) => some (jsData.put key (.string (percentLx val)))
      | some _ => some jsData := by
  unfold jsSetKvInt64 jsSetKvStr
  rw [snprintf_percentLx, jsonString, utf8Check_percentLx, if_pos rfl, if_pos rfl,
    JsonObject.setNew]
  cases held : jsData.get key with
  | none =>
      by_cases valid : utf8Check key = true
      · simp only [valid, if_true, JsonObject.get_put, Option.isSome_some]
      · simp only [if_neg valid, held]
        rfl
  | some json =>
      cases json with
      | _ => rfl

private theorem keepsInt64_put (jsData : JsonObject) (key : CStr) (val : BitVec 64)
    (sets : jsSetKvInt64 jsData key val = some (jsData.put key (.string (percentLx val)))) :
    KeepsInt64 jsData key val := by
  refine ⟨_, sets, ?_, ?_⟩
  · apply jsKvInt64_of_get
    rw [JsonObject.get_put, if_pos rfl]
  · intro other differs
    rw [JsonObject.get_put, if_neg differs]

/-- **64-bit values by key.** A number that is set is read back exactly where the key has no value
yet, has a string, or the number is zero. -/
theorem keepsInt64_iff (jsData : JsonObject) (key : CStr) (val : BitVec 64) :
    KeepsInt64 jsData key val ↔ TakesInt64 jsData key val := by
  have effect := jsSetKvInt64_eq jsData key val
  unfold TakesInt64
  cases held : jsData.get key with
  | none =>
      rw [held] at effect
      simp only at effect ⊢
      by_cases valid : utf8Check key = true
      · rw [if_pos valid] at effect
        exact iff_of_true (keepsInt64_put jsData key val effect) valid
      · rw [if_neg valid] at effect
        refine iff_of_false ?_ valid
        rintro ⟨next, sets, -⟩
        rw [effect] at sets
        cases sets
  | some json =>
      rw [held] at effect
      have kept : (∀ str, json ≠ .string str) → jsSetKvInt64 jsData key val = some jsData →
          (KeepsInt64 jsData key val ↔ val = 0) := by
        intro noString sets
        have zero : jsKvInt64 jsData key = 0 := by
          unfold jsKvInt64
          rw [held]
          cases json with
          | string str => exact (noString str rfl).elim
          | _ => rfl
        constructor
        · rintro ⟨next, again, read, -⟩
          rw [sets, Option.some_inj] at again
          rw [← read, ← again, zero]
        · rintro rfl
          exact ⟨jsData, sets, zero, fun _ _ => rfl⟩
      cases json with
      | string str => exact iff_of_true (keepsInt64_put jsData key val effect) trivial
      | _ => exact kept (fun _ same => nomatch same) effect

private theorem ended_letter : 0#8 ∉ [97#8] := by decide

/-- A member `a` that is the integer `7`. -/
def integerMember : JsonObject := ⟨[(⟨[97#8], ended_letter⟩, .integer 7)], by simp⟩

/-- The integer stays, and is read as zero. -/
theorem integer_not_replaced : ¬ KeepsInt64 integerMember ⟨[97#8], by decide⟩ 5 := by
  intro keeps
  have zero : (5 : BitVec 64) = 0 := (keepsInt64_iff _ _ _).mp keeps
  exact absurd zero (by decide)

end JsBase

end Tvntd
