import Tvntd.Lib.Numerals
import Tvntd.Json.Value

/-! # Variables of a JSON document

A member named `${v}` defines the variable `${v}`. `js_process` collects the definitions in one
pass over the document and puts their values into its strings in a second one. A definition is
substituted itself when it is collected, with the definitions collected before it.

The dictionary is a `StringKvMap`, kept as its entries with the newest in front. The parser
of the document takes only UTF-8, and `json_string` makes no value of anything else.
-/

namespace Tvntd

open Numerals

/-- `std::string::c_str` -/
def cStr (str : List Byte) : CStr where
  bytes := str.takeWhile (· ≠ 0#8)
  ended := by
    intro inside
    have differs := List.mem_takeWhile_imp inside
    simp at differs

/-- `json_real` makes no value of an infinity or a NaN. -/
def jsonReal (fnum : BitVec 64) : Option Json :=
  if isfinite fnum then some (.real fnum) else none

namespace VarSubst

/-- `js_var_kw`: the offsets of the `$` and of what is behind the `}`. -/
def jsVarKw (id : List Byte) : Option (Nat × Nat) :=
  let ret := (id.takeWhile (· ≠ 36#8)).length
  match id.drop ret with
  | 36#8 :: 123#8 :: p =>
      let name := (p.takeWhile (· ≠ 125#8)).length
      if name < p.length then some (ret, ret + 2 + name + 1) else none
  | _ => none

/-- The bytes `js_append_val` appends. -/
def jsAppendVal : Json → List Byte
  | .string value => value.bytes
  | .true => [116#8, 114#8, 117#8, 101#8]
  | .false => [102#8, 97#8, 108#8, 115#8, 101#8]
  | .integer value => toStringInteger value
  | .real image => toStringDouble image
  | .object _ | .array _ | .null => []

/-- The keyword that `js_var_kw` finds at `p` itself. -/
def keywordAt (p : List Byte) : Option (List Byte) :=
  match jsVarKw p with
  | some (0, last) => some (p.take last)
  | _ => none

/-- The loop of `js_subst_str`: the text and `subst_cnt`. The first number counts the bytes of a
replaced keyword that are still ahead. An unknown variable loses its `$`. -/
def substLoop (lookup : List Byte → Option Json) : Nat → List Byte → List Byte × Nat
  | _, [] => ([], 0)
  | ahead + 1, _ :: p => substLoop lookup ahead p
  | 0, c :: p =>
      match keywordAt (c :: p) with
      | none => (c :: (substLoop lookup 0 p).1, (substLoop lookup 0 p).2)
      | some kw =>
          match lookup kw with
          | none => substLoop lookup 0 p
          | some value =>
              (jsAppendVal value ++ (substLoop lookup (kw.length - 1) p).1,
                (substLoop lookup (kw.length - 1) p).2 + 1)

/-- The value of a text that is a numeral to its end. -/
def integerValue (val : List Byte) : Option (BitVec 64) :=
  [10, 16, 8, 2].findSome? fun base =>
    if (strtoull base val).2 = [] then some (strtoull base val).1 else none

/-- The end of `js_subst_str`: the value of the substituted text. -/
def typedValue (val : List Byte) : Option Json :=
  match integerValue val with
  | some num => some (.integer num)
  | none =>
      if (strtod val).2 = [] then jsonReal (strtod val).1
      else if val.map tolower = [116#8, 114#8, 117#8, 101#8] then some .true
      else if val.map tolower = [102#8, 97#8, 108#8, 115#8, 101#8] then some .false
      else jsonString (cStr val)

/-- `js_subst_str`, with `js_var_lookup` of its dictionary. -/
def jsSubstStr (lookup : List Byte → Option Json) (str : CStr) : Option Json :=
  if (substLoop lookup 0 str.bytes).2 = 0 then none
  else typedValue (substLoop lookup 0 str.bytes).1

end VarSubst

namespace JsonVariables

open VarSubst

/-- `js_var_map` -/
abbrev VarMap := List (CStr × Json)

/-- `js_var_lookup` -/
def jsVarLookup (map : VarMap) (var : List Byte) : Option Json :=
  (map.find? fun entry => entry.1.bytes = var).map Prod.snd

/-- A string after `js_subst_str`; another value, or a string it returns nothing for, stays. -/
def subst (lookup : List Byte → Option Json) : Json → Json
  | .string str => (jsSubstStr lookup str).getD (.string str)
  | val => val

/-- What `js_build_dict` does at a member: its insertion, when the key starts with a keyword. -/
def insertMember (map : VarMap) (key : CStr) (val : Json) : VarMap :=
  if (keywordAt key.bytes).isSome then (key, subst (jsVarLookup map) val) :: map else map

mutual

/-- `js_build_dict` -/
def jsBuildDict (map : VarMap) : Json → VarMap
  | .array elms => buildElements map elms
  | .object members => buildMembers map members
  | _ => map

def buildElements (map : VarMap) : List Json → VarMap
  | [] => map
  | elm :: rest => buildElements (jsBuildDict map elm) rest

def buildMembers (map : VarMap) : List Json.Member → VarMap
  | [] => map
  | (key, val) :: rest => buildMembers (jsBuildDict (insertMember map key val) val) rest

end

mutual

/-- `js_subst_dict`. A string that is the document itself is in no array or object. -/
def jsSubstDict (map : VarMap) : Json → Json
  | .array elms => .array (substElements map elms)
  | .object members => .object (substMembers map members)
  | val => val

def substElements (map : VarMap) : List Json → List Json
  | [] => []
  | elm :: rest => subst (jsVarLookup map) (jsSubstDict map elm) :: substElements map rest

def substMembers (map : VarMap) : List Json.Member → List Json.Member
  | [] => []
  | (key, val) :: rest =>
      (key, subst (jsVarLookup map) (jsSubstDict map val)) :: substMembers map rest

end

/-- `js_process` -/
def jsProcess (map : VarMap) (root : Json) : Json × VarMap :=
  let dict := jsBuildDict map root
  (jsSubstDict dict root, dict)

end JsonVariables

end Tvntd
