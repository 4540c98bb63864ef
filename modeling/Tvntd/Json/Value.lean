import Mathlib.Data.List.Nodup
import Tvntd.Cpptype.Object
import Tvntd.Lib.Unicode

/-! # JSON values

The values the JSON library hands out. An object keeps its members in the order of the document,
each key once. Keys and strings are NUL-terminated, an integer is a `json_int_t` of 64 bits, and a
real is the image of its double.
-/

namespace Tvntd

/-- `json_t` -/
inductive Json where
  | object (members : List (CStr × Json))
  | array (elements : List Json)
  | string (value : CStr)
  | integer (value : BitVec 64)
  | real (image : BitVec 64)
  | true
  | false
  | null

namespace Json

/-- A key with its value. -/
abbrev Member := CStr × Json

/-- `json_is_object` -/
def isObject : Json → Bool
  | .object _ => Bool.true
  | _ => Bool.false

/-- `json_is_array` -/
def isArray : Json → Bool
  | .array _ => Bool.true
  | _ => Bool.false

/-- `json_is_boolean` -/
def isBoolean : Json → Bool
  | .true | .false => Bool.true
  | _ => Bool.false

end Json

/-- The members of an object. -/
structure JsonObject where
  members : List Json.Member
  distinct : (members.map Prod.fst).Nodup

namespace JsonObject

/-- `json_object_get` -/
def get (json : JsonObject) (key : CStr) : Option Json :=
  (json.members.find? fun member => member.1 = key).map Prod.snd

theorem members_nodup (json : JsonObject) : json.members.Nodup := json.distinct.of_map _

/-- A key has one member. -/
theorem eq_of_key {json : JsonObject} {own other : Json.Member} (ownMember : own ∈ json.members)
    (otherMember : other ∈ json.members) (same : own.1 = other.1) : own = other :=
  List.inj_on_of_nodup_map json.distinct ownMember otherMember same

theorem get_of_mem {json : JsonObject} {member : Json.Member} (inside : member ∈ json.members) :
    json.get member.1 = some member.2 := by
  cases found : json.members.find? fun other => other.1 = member.1 with
  | none =>
      have differs := List.find?_eq_none.mp found member inside
      simp at differs
  | some other =>
      have same : other.1 = member.1 := by simpa using List.find?_some found
      rw [get, found, eq_of_key (List.mem_of_find?_eq_some found) inside same, Option.map_some]

end JsonObject

/-! ## Strings -/

/-- The check of keys and strings. -/
def utf8Check (str : CStr) : Bool :=
  decide (Unicode.ValidUtf8 (str.bytes.map UInt8.ofBitVec))

theorem utf8Check_ascii {str : CStr} (ascii : ∀ byte ∈ str.bytes, byte.toNat < 128) :
    utf8Check str = true := by
  apply decide_eq_true
  apply Unicode.validUtf8_ascii
  intro byte inside
  obtain ⟨own, member, rfl⟩ := List.mem_map.mp inside
  exact ascii own member

/-- `json_string` -/
def jsonString (value : CStr) : Option Json :=
  if utf8Check value then some (.string value) else none

end Tvntd
