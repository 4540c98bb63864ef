import Tvntd.Json.KeyValue

/-! # The configuration of a program

A key of the configuration file is a path of keys with dots between them. One round of the lookup
copies the front of the key into a buffer on the stack, as long as the whole key with its
terminator, and goes into the object that it finds there.
-/

namespace Tvntd.Program

open Numerals

/-- `json_object_get`, which takes a null pointer and a value of any kind. -/
def jsonObjectGet (json : Option Json) (key : List Byte) : Option Json :=
  match json with
  | some (.object members) =>
      (members.find? fun member => decide (member.1.bytes = key)).map Prod.snd
  | _ => none

def dot : Byte := 46#8

/-- The copy into a buffer that has so many bytes left, and what is left of the key; none where it
would write past the buffer. -/
def copyKey : Nat → List Byte → Option (List Byte × List Byte)
  | 0, _ => none
  | _ + 1, [] => some ([], [])
  | room + 1, c :: rest =>
      if c = dot then some ([], c :: rest)
      else (copyKey room rest).map fun copied => (c :: copied.1, copied.2)

def progGetJsonTop (root : Option Json) (key : List Byte) (size : Nat) :
    Option (Option Json × Option (List Byte)) :=
  (copyKey (size + 1) key).map fun copied =>
    (jsonObjectGet root copied.1,
      match copied.2 with
      | [] => none
      | _ :: next => some next)

/-- The loop of `progGetJsonEnd`, if it ends in so many rounds. -/
def endLoop (size : Nat) : Nat → Option Json → List Byte → Option (Option Json)
  | 0, _, _ => none
  | rounds + 1, root, key =>
      match progGetJsonTop root key size with
      | none => none
      | some (nextJson, none) => some nextJson
      | some (nextJson, some nextKey) => endLoop size rounds nextJson nextKey

def progGetJsonEnd (root : Option Json) (key : List Byte) : Option (Option Json) :=
  endLoop key.length (key.length + 1) root key

/-- Every `prog_kv` function goes to the member under its key, if it was given one, and has a default
for what it does not find. -/
def progKv {α : Type} (read : Json → Option α) (absent : α) (json : Option Json)
    (key : Option (List Byte)) : α :=
  match key with
  | some key => ((jsonObjectGet json key).bind read).getD absent
  | none => (json.bind read).getD absent

def progKvStr : Option Json → Option (List Byte) → Option CStr :=
  progKv (fun json => match json with | .string str => some (some str) | _ => none) none

/-- The value is cut to an `int`. -/
def progKvInt : Option Json → Option (List Byte) → BitVec 32 :=
  progKv (fun json => match json with | .integer value => some (value.setWidth 32) | _ => none) 0

def progKvBool : Option Json → Option (List Byte) → Bool :=
  progKv (fun json => match json with
    | .true => some Bool.true
    | .false => some Bool.false
    | _ => none) Bool.false

/-- What `prog_kv_int64` makes of a string. -/
def valueOfString (str : CStr) : BitVec 64 :=
  match str.bytes with
  | 48#8 :: x :: _ =>
      if x = 120#8 || x = 88#8 then (strtoull 16 str.bytes).1 else (strtoull 10 str.bytes).1
  | _ => (strtoull 10 str.bytes).1

def progKvInt64 : Option Json → Option (List Byte) → BitVec 64 :=
  progKv (fun json => match json with
    | .string str => some (valueOfString str)
    | _ => none) 0

/-- The functions that take a key only, for the configuration of the program. -/
def progKvTop {α : Type} (kv : Option Json → Option (List Byte) → α) (config : Option Json)
    (key : List Byte) : Option α :=
  (progGetJsonEnd config key).map fun json => kv json none

def progKvSubCfg (config : Option Json) (key : List Byte) : Option (Option Json) :=
  progGetJsonEnd config key

/-! ## What is looked up -/

/-- From a value into the objects under it. -/
def walk (root : Option Json) (path : List (List Byte)) : Option Json :=
  path.foldl jsonObjectGet root

/-- What is copied is the first part of the key; the others are behind the dot. -/
theorem copyKey_eq {key : List Byte} : ∀ {room : Nat}, key.length < room →
    ∃ part next, copyKey room key = some (part, next) ∧
      (next = [] ∧ key.splitOn dot = [part] ∨
        ∃ rest, next = dot :: rest ∧ rest.length < key.length ∧
          key.splitOn dot = part :: rest.splitOn dot) := by
  induction key with
  | nil =>
      intro room fits
      obtain ⟨room, rfl⟩ := Nat.exists_eq_add_one_of_ne_zero (Nat.ne_of_gt fits)
      exact ⟨[], [], rfl, Or.inl ⟨rfl, rfl⟩⟩
  | cons c rest ih =>
      intro room fits
      obtain ⟨room, rfl⟩ := Nat.exists_eq_add_one_of_ne_zero (Nat.ne_of_gt (Nat.zero_lt_of_lt fits))
      by_cases here : c = dot
      · subst here
        refine ⟨[], dot :: rest, ?_, Or.inr ⟨rest, rfl, Nat.lt_succ_self _, ?_⟩⟩
        · rw [copyKey, if_pos rfl]
        · exact List.splitOn_append_cons_self [] rest
      · obtain ⟨part, next, copied, parts⟩ := ih (Nat.lt_of_succ_lt_succ fits)
        refine ⟨c :: part, next, ?_, ?_⟩
        · rw [copyKey, if_neg here, copied]
          rfl
        · rw [List.splitOn_cons_eq_if_modifyHead, if_neg (by simpa using here)]
          rcases parts with ⟨ends, parts⟩ | ⟨behind, dotted, shorter, parts⟩
          · exact Or.inl ⟨ends, by rw [parts]; rfl⟩
          · exact Or.inr ⟨behind, dotted, Nat.lt_succ_of_lt shorter, by rw [parts]; rfl⟩

private theorem endLoop_eq {size rounds : Nat} : ∀ {root : Option Json} {key : List Byte},
    key.length ≤ size → key.length < rounds →
      endLoop size rounds root key = some (walk root (key.splitOn dot)) := by
  induction rounds with
  | zero => exact fun _ many => absurd many (Nat.not_lt_zero _)
  | succ rounds ih =>
      intro root key fits many
      obtain ⟨part, next, copied, parts⟩ := copyKey_eq (Nat.lt_succ_of_le fits)
      rw [endLoop, progGetJsonTop, copied]
      rcases parts with ⟨rfl, parts⟩ | ⟨rest, rfl, shorter, parts⟩
      · rw [parts]
        rfl
      · rw [parts]
        exact ih (by omega) (by omega)

/-- Every key is looked up part by part: the loop ends, no round writes past its buffer, and a
part that is not there, or is below a value that is no object, gives a null pointer. -/
theorem progGetJsonEnd_eq (root : Option Json) (key : List Byte) :
    progGetJsonEnd root key = some (walk root (key.splitOn dot)) :=
  endLoop_eq (Nat.le_refl _) (Nat.lt_succ_self _)

/-- **Sections of the configuration.** A function that is given a section and a key in it answers
as the one that is given the two as one key. -/
theorem progKvTop_section {α : Type} (read : Json → Option α) (absent : α) (config : Option Json)
    (part : List Byte) {key : List Byte} (whole : dot ∉ key) :
    progKvTop (progKv read absent) config (part ++ dot :: key) =
      (progKvSubCfg config part).map fun json => progKv read absent json (some key) := by
  rw [progKvTop, progKvSubCfg, progGetJsonEnd_eq, progGetJsonEnd_eq, List.splitOn_append_cons_self,
    List.splitOn_eq_singleton whole, walk, List.foldl_append]
  rfl

private theorem ended_server : 0#8 ∉ [115#8] := by decide

private theorem ended_port : 0#8 ∉ [112#8] := by decide

/-- A section `s` with the port under `p`. -/
def portConfig : Json :=
  .object [(⟨[115#8], ended_server⟩, .object [(⟨[112#8], ended_port⟩, .integer 8080)])]

theorem progKvTop_section_port :
    progKvTop progKvInt (some portConfig) [115#8, 46#8, 112#8] = some 8080 :=
  (progKvTop_section _ _ _ [115#8] (by decide)).trans (by rw [progKvSubCfg, progGetJsonEnd_eq]; rfl)

private theorem jsonObjectGet_members (json : JsonObject) (key : CStr) :
    jsonObjectGet (some (.object json.members)) key.bytes = json.get key := by
  unfold jsonObjectGet JsonObject.get
  simp only [CStr.ext_iff]

/-- Both files read a number of an object alike. -/
theorem progKvInt64_members (json : JsonObject) (key : CStr) :
    progKvInt64 (some (.object json.members)) (some key.bytes) = JsBase.jsKvInt64 json key := by
  unfold progKvInt64 progKv JsBase.jsKvInt64
  simp only [jsonObjectGet_members]
  cases held : json.get key with
  | none => rfl
  | some value =>
      cases value with
      | _ => rfl

/-- **Numbers of the configuration.** What is set in an object that takes it is read from the
program's configuration, where the object is a section of it. -/
theorem progKvTop_jsSetKvInt64 {config : Option Json} {part : List Byte}
    {before after : JsonObject} {key : CStr} {val : BitVec 64} (whole : dot ∉ key.bytes)
    (takes : JsBase.TakesInt64 before key val)
    (sets : JsBase.jsSetKvInt64 before key val = some after)
    (placed : progKvSubCfg config part = some (some (.object after.members))) :
    progKvTop progKvInt64 config (part ++ dot :: key.bytes) = some val := by
  obtain ⟨next, same, read, -⟩ := (JsBase.keepsInt64_iff before key val).mpr takes
  obtain rfl : after = next := Option.some.inj (sets.symm.trans same)
  rw [progKvInt64, progKvTop_section _ _ _ _ whole, placed, Option.map_some]
  rw [← read, ← progKvInt64_members]
  rfl

def noMembers : JsonObject := ⟨[], List.nodup_nil⟩

/-- The section after 5 was set in it. -/
def fiveConfig : Json :=
  .object [(⟨[115#8], ended_server⟩,
    .object (noMembers.put ⟨[112#8], ended_port⟩ (.string (JsBase.percentLx 5))).members)]

theorem progKvTop_jsSetKvInt64_five :
    progKvTop progKvInt64 (some fiveConfig) ([115#8] ++ dot :: [112#8]) = some 5 := by
  have holds : JsBase.TakesInt64 noMembers ⟨[112#8], ended_port⟩ 5 := utf8Check_ascii (by decide)
  apply progKvTop_jsSetKvInt64 (by decide) holds
  · rw [JsBase.jsSetKvInt64_eq]
    exact if_pos (utf8Check_ascii (by decide))
  · rw [progKvSubCfg, progGetJsonEnd_eq]
    rfl

end Tvntd.Program
