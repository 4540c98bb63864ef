import Tvntd.Json.ArrayNames
import Tvntd.Json.Document

/-! # Decoding a document

`JsBase::js_decode` with `get_all` makes an object for a value and goes on with
what is in it, in `js_decode_all`: an object inside becomes an object of its own,
and an array inside an object is gone through under its key. There is no key at
the root, and an element of an array passes none on.
-/

namespace Tvntd

namespace DecodeAll

open JsNames

variable {δ : Type}

/-! ## Decoders -/

/-- The decoders, each with those it knows by key and the one upstream of it. -/
structure Decoders (δ : Type) where
  jsKey : δ → CStr
  jsUpstream : δ → Option δ
  jsDecode : δ → Option (List δ)
  sDefDecode : δ
  depth : δ → Nat
  upstream : ∀ decode up, jsUpstream decode = some up → depth up < depth decode

namespace Decoders

/-- The decoder of a key among a decoder and those it knows. -/
def own (decoders : Decoders δ) (decode : δ) (key : CStr) : Option δ :=
  (decoders.jsDecode decode).bind fun known =>
    if key = decoders.jsKey decode then some decode
    else known.find? fun other => key = decoders.jsKey other

/-- `js_get_decode` -/
def jsGetDecode (decoders : Decoders δ) (decode : δ) (key : CStr) : δ :=
  match decoders.own decode key with
  | some found => found
  | none =>
      match _up : decoders.jsUpstream decode with
      | none =>
          if (decoders.jsKey decode).bytes.head? = some 42#8 then decode else decoders.sDefDecode
      | some upstream => jsGetDecode decoders upstream key
termination_by decoders.depth decode
decreasing_by exact decoders.upstream decode upstream _up

end Decoders

/-! ## Decoding -/

/-- A place in a document: the places of the members and elements on the way to it. -/
abbrev Path := List Nat

/-- A `JsBase`, by the value it was decoded from. -/
structure JsObj (δ : Type) where
  jsIdName : CStr
  jsData : Path
  decode : δ

/-- The objects that were made, and those that were put behind the symbols there were before. -/
structure Decoded (δ : Type) where
  allocated : List (JsObj δ)
  symbols : List (JsObj δ)

namespace Decoded

def jsAlloc (state : Decoded δ) (jobj : JsObj δ) : Decoded δ :=
  { state with allocated := state.allocated ++ [jobj] }

/-- `js_put_symb` -/
def jsPutSymb (state : Decoded δ) (jobj : JsObj δ) : Decoded δ :=
  { state with symbols := state.symbols ++ [jobj] }

def objIsChained (state : Decoded δ) (jobj : JsObj δ) : Bool :=
  state.symbols.any fun other => other.jsData = jobj.jsData

/-- `js_put_symb` with a key -/
def jsPutSymbKey (state : Decoded δ) (jobj : JsObj δ) : Decoded δ :=
  if !state.objIsChained jobj then state.jsPutSymb jobj else state

end Decoded

/-- `"root"` -/
def rootName : CStr := ⟨[114#8, 111#8, 111#8, 116#8], by decide⟩

section Decode

variable (percentP : Ptr → CStr) (address : Path → Ptr) (decoders : Decoders δ)

/-- The object for a value, and whether it is put at once; `none` is a failed assertion. -/
def newObj (root : Json) (place : Path) (key : Option CStr) (idx : Int) (parent : Option Path)
    (decode : δ) : Option (JsObj δ × Bool) :=
  match idName root with
  | some id =>
      some (⟨jsFormatName percentP (parent.elim 0 address) true id (-1), place, decode⟩, true)
  | none =>
      match key with
      | some key =>
          parent.map fun parent =>
            (⟨jsFormatName percentP (address parent) false key idx, place, decode⟩, false)
      | none => some (⟨jsFormatName percentP 0 true rootName idx, place, decode⟩, true)

/-- `js_decode`, by what `js_decode_all` does on the object. -/
def jsDecodeWith (decodeAll : Decoded δ → Option (Decoded δ)) (root : Json) (place : Path)
    (key : Option CStr) (idx : Int) (parent : Option Path) (decode : δ) (state : Decoded δ) :
    Option (JsObj δ × Decoded δ) :=
  (newObj percentP address root place key idx parent decode).bind fun (jobj, put) =>
    let state := state.jsAlloc jobj
    let state := if put then state.jsPutSymb jobj else state
    (decodeAll state).map fun state => (jobj, state)

mutual

/-- `js_decode_all` of the object decoded from `self`, on a value at a place. The `uint32_t` of the
loop never reaches a length of `2 ^ 32` or more. -/
def jsDecodeAll (root : Json) (self place : Path) (key : Option CStr) (decode : δ)
    (state : Decoded δ) : Option (Decoded δ) :=
  match root with
  | .array elements =>
      key.bind fun key =>
        if elements.length < 2 ^ 32 then
          decodeElements elements self place 0 key (decoders.jsGetDecode decode key) state
        else none
  | .object members => decodeMembers members self place 0 decode state
  | _ => some state

def decodeElements (elements : List Json) (self place : Path) (cidx : Nat) (key : CStr)
    (active : δ) (state : Decoded δ) : Option (Decoded δ) :=
  match elements with
  | [] => some state
  | cval :: rest =>
      if !cval.isObject && !cval.isArray then
        decodeElements rest self place (cidx + 1) key active state
      else
        (jsDecodeWith percentP address
          (jsDecodeAll cval (place ++ [cidx]) (place ++ [cidx]) none active) cval
          (place ++ [cidx]) (some key) (toInt cidx) (some self) active state).bind
            fun (jobj, state) =>
              decodeElements rest self place (cidx + 1) key active (state.jsPutSymbKey jobj)

def decodeMembers (members : List Json.Member) (self place : Path) (number : Nat) (decode : δ)
    (state : Decoded δ) : Option (Decoded δ) :=
  match members with
  | [] => some state
  | (ckey, cval) :: rest =>
      let active := decoders.jsGetDecode decode ckey
      if cval.isArray then
        (jsDecodeAll cval self (place ++ [number]) (some ckey) active state).bind fun state =>
          decodeMembers rest self place (number + 1) decode state
      else if cval.isObject then
        (jsDecodeWith percentP address
          (jsDecodeAll cval (place ++ [number]) (place ++ [number]) none active) cval
          (place ++ [number]) (some ckey) (-1) (some self) active state).bind
            fun (jobj, state) =>
              decodeMembers rest self place (number + 1) decode (state.jsPutSymbKey jobj)
      else decodeMembers rest self place (number + 1) decode state

end

/-- `js_decode` with `get_all` -/
def jsDecode (root : Json) (place : Path) (key : Option CStr) (idx : Int) (parent : Option Path)
    (decode : δ) (state : Decoded δ) : Option (JsObj δ × Decoded δ) :=
  jsDecodeWith percentP address (jsDecodeAll percentP address decoders root place place none decode)
    root place key idx parent decode state

/-- `js_process_json` -/
def jsProcessJson (root : Json) (decode : δ) : Option (Decoded δ) :=
  (jsDecode percentP address decoders root [] none (-1) none decode ⟨[], []⟩).map Prod.snd

end Decode

/-! ## Documents -/

mutual

/-- The places of the objects inside a value. -/
def belowPaths (place : Path) : Json → List Path
  | .array elements => elementPaths place 0 elements
  | .object members => memberPaths place 0 members
  | _ => []

def elementPaths (place : Path) (number : Nat) : List Json → List Path
  | [] => []
  | elm :: rest =>
      (if elm.isObject then [place ++ [number]] else []) ++
        belowPaths (place ++ [number]) elm ++ elementPaths place (number + 1) rest

def memberPaths (place : Path) (number : Nat) : List Json.Member → List Path
  | [] => []
  | (_, val) :: rest =>
      (if val.isObject then [place ++ [number]] else []) ++
        belowPaths (place ++ [number]) val ++ memberPaths place (number + 1) rest

end

/-- The places of the objects of a document. -/
def objectPaths (root : Json) : List Path :=
  (if root.isObject then [[]] else []) ++ belowPaths [] root

mutual

/-- No element of an array is an array, and a `uint32_t` counts the elements. -/
def Flat : Json → Prop
  | .array elements => elements.length < 2 ^ 32 ∧ FlatElements elements
  | .object members => FlatMembers members
  | _ => True

def FlatElements : List Json → Prop
  | [] => True
  | elm :: rest => (elm.isArray = false ∧ Flat elm) ∧ FlatElements rest

def FlatMembers : List Json.Member → Prop
  | [] => True
  | (_, val) :: rest => Flat val ∧ FlatMembers rest

end

/-! ### Where it fails -/

section Fails

variable {percentP : Ptr → CStr} {address : Path → Ptr} {decoders : Decoders δ}

private theorem jsDecodeWith_none {decodeAll : Decoded δ → Option (Decoded δ)}
    (fails : ∀ state, decodeAll state = none) (root : Json) (place : Path) (key : Option CStr)
    (idx : Int) (parent : Option Path) (decode : δ) (state : Decoded δ) :
    jsDecodeWith percentP address decodeAll root place key idx parent decode state = none := by
  unfold jsDecodeWith
  cases newObj percentP address root place key idx parent decode with
  | none => rfl
  | some made =>
      simp only [Option.bind_some, fails]
      rfl

private theorem flat_of_leaf {val : Json} (noObject : val.isObject = false)
    (noArray : val.isArray = false) :
    Flat val := by
  cases val with
  | object members => cases noObject
  | array elements => cases noArray
  | _ => trivial

/-- An array without a key fails. -/
theorem jsDecodeAll_array_none {root : Json} (array : root.isArray = true) (self place : Path)
    (decode : δ) (state : Decoded δ) :
    jsDecodeAll percentP address decoders root self place none decode state = none := by
  cases root with
  | array elements => rw [jsDecodeAll, Option.bind_none]
  | _ => cases array

mutual

theorem jsDecodeAll_none : ∀ (root : Json) (self place : Path) (key : Option CStr) (decode : δ)
    (state : Decoded δ), ¬ Flat root →
      jsDecodeAll percentP address decoders root self place key decode state = none
  | .array elements, self, place, key, decode, state, bad => by
      rw [jsDecodeAll]
      cases key with
      | none => rfl
      | some key =>
          rw [Option.bind_some]
          split
          · rename_i short
            rw [Flat] at bad
            exact decodeElements_none elements self place 0 key _ state fun flat =>
              bad ⟨short, flat⟩
          · rfl
  | .object members, self, place, key, decode, state, bad => by
      rw [Flat] at bad
      rw [jsDecodeAll]
      exact decodeMembers_none members self place 0 decode state bad
  | .string _, _, _, _, _, _, bad | .integer _, _, _, _, _, _, bad | .real _, _, _, _, _, _, bad
  | .true, _, _, _, _, _, bad | .false, _, _, _, _, _, bad | .null, _, _, _, _, _, bad =>
      (bad trivial).elim

private theorem decodeElements_none : ∀ (elements : List Json) (self place : Path) (cidx : Nat)
    (key : CStr) (active : δ) (state : Decoded δ), ¬ FlatElements elements →
      decodeElements percentP address decoders elements self place cidx key active state = none
  | [], _, _, _, _, _, _, bad => (bad trivial).elim
  | cval :: rest, self, place, cidx, key, active, state, bad => by
      have later : ∀ state, cval.isArray = false → Flat cval →
          decodeElements percentP address decoders rest self place (cidx + 1) key active state =
            none := fun state noArray flat =>
        decodeElements_none rest self place (cidx + 1) key active state fun flatRest =>
          bad ⟨⟨noArray, flat⟩, flatRest⟩
      rw [decodeElements]
      split
      · rename_i leaf
        simp only [Bool.and_eq_true, Bool.not_eq_true'] at leaf
        exact later state leaf.2 (flat_of_leaf leaf.1 leaf.2)
      · by_cases good : cval.isArray = false ∧ Flat cval
        · cases jsDecodeWith percentP address _ cval _ _ _ _ active state with
          | none => rfl
          | some made => exact later _ good.1 good.2
        · have fails : ∀ state, jsDecodeAll percentP address decoders cval (place ++ [cidx])
              (place ++ [cidx]) none active state = none := by
            intro state
            by_cases array : cval.isArray = true
            · exact jsDecodeAll_array_none array _ _ active state
            · have noArray := Bool.eq_false_iff.mpr array
              exact jsDecodeAll_none cval _ _ _ _ _ fun flat => good ⟨noArray, flat⟩
          rw [jsDecodeWith_none fails]
          rfl

theorem decodeMembers_none : ∀ (members : List Json.Member) (self place : Path) (number : Nat)
    (decode : δ) (state : Decoded δ), ¬ FlatMembers members →
      decodeMembers percentP address decoders members self place number decode state = none
  | [], _, _, _, _, _, bad => (bad trivial).elim
  | (ckey, cval) :: rest, self, place, number, decode, state, bad => by
      have later : ∀ state, Flat cval →
          decodeMembers percentP address decoders rest self place (number + 1) decode state =
            none := fun state flat =>
        decodeMembers_none rest self place (number + 1) decode state fun flatRest =>
          bad ⟨flat, flatRest⟩
      rw [decodeMembers]
      by_cases flat : Flat cval
      · split
        · cases jsDecodeAll percentP address decoders cval self _ _ _ state with
          | none => rfl
          | some next => exact later next flat
        · split
          · cases jsDecodeWith percentP address _ cval _ _ _ _ _ state with
            | none => rfl
            | some made => exact later _ flat
          · exact later state flat
      · have fails := fun self place key active state =>
          jsDecodeAll_none cval self place key active state flat
        split
        · rw [fails]
          rfl
        · split
          · rw [jsDecodeWith_none (fails _ _ _ _)]
            rfl
          · rename_i noArray noObject
            exact (flat (flat_of_leaf (Bool.eq_false_iff.mpr noObject)
              (Bool.eq_false_iff.mpr noArray))).elim

end

end Fails

/-! ### What it makes -/

private theorem eq_of_prefix {place path : Path} {own other : Nat} (first : place ++ [own] <+: path)
    (second : place ++ [other] <+: path) : own = other := by
  have same : place ++ [own] = place ++ [other] :=
    (List.prefix_of_prefix_length_le first second (by simp)).eq_of_length (by simp)
  simpa using same

/-- The places of the objects of a value. -/
def entryPaths (place : Path) (val : Json) : List Path :=
  (if val.isObject then [place] else []) ++ belowPaths place val

private theorem entryPaths_leaf {place : Path} {val : Json} (noObject : val.isObject = false)
    (noArray : val.isArray = false) : entryPaths place val = [] := by
  cases val with
  | object members => cases noObject
  | array elements => cases noArray
  | _ => rfl

private theorem entryPaths_object {place : Path} {val : Json} (object : val.isObject = true) :
    entryPaths place val = place :: belowPaths place val := by
  rw [entryPaths, if_pos object]
  rfl

private theorem entryPaths_array {place : Path} {val : Json} (array : val.isArray = true) :
    entryPaths place val = belowPaths place val := by
  cases val with
  | array elements => rfl
  | _ => cases array

private theorem elementPaths_cons (place : Path) (number : Nat) (elm : Json) (rest : List Json) :
    elementPaths place number (elm :: rest) =
      entryPaths (place ++ [number]) elm ++ elementPaths place (number + 1) rest := by
  rw [elementPaths]
  rfl

/-- The members of an object are gone through as the elements of an array. -/
theorem memberPaths_eq (place : Path) (members : List Json.Member) : ∀ number,
    memberPaths place number members = elementPaths place number (members.map Prod.snd) := by
  induction members with
  | nil => exact fun _ => rfl
  | cons member rest ih =>
      intro number
      rw [memberPaths, List.map_cons, elementPaths, ih]

private theorem prefix_of_mem_elementPaths {elements : List Json}
    (below : ∀ elm ∈ elements, ∀ place, ∀ path ∈ belowPaths place elm,
      ∃ number, place ++ [number] <+: path) :
    ∀ (place : Path) (number : Nat), ∀ path ∈ elementPaths place number elements,
      ∃ later, number ≤ later ∧ place ++ [later] <+: path := by
  induction elements with
  | nil => exact fun _ _ _ none => (List.not_mem_nil none).elim
  | cons elm rest ih =>
      intro place number path inside
      rw [elementPaths_cons, entryPaths, List.append_assoc] at inside
      rcases List.mem_append.mp inside with own | inside
      · split at own
        · rw [List.mem_singleton] at own
          exact ⟨number, Nat.le_refl _, own ▸ List.prefix_refl _⟩
        · cases own
      rcases List.mem_append.mp inside with inner | later
      · obtain ⟨deeper, begins⟩ := below elm List.mem_cons_self (place ++ [number]) path inner
        exact ⟨number, Nat.le_refl _, (List.prefix_append _ _).trans begins⟩
      · obtain ⟨other, behind, begins⟩ := ih
          (fun elm inside => below elm (List.mem_cons_of_mem _ inside)) place
            (number + 1) path later
        exact ⟨other, by omega, begins⟩

private theorem prefix_of_mem_belowPaths (val : Json) : ∀ place, ∀ path ∈ belowPaths place val,
    ∃ number, place ++ [number] <+: path := by
  induction val using Json.tree_induction with
  | array elements ih =>
      intro place path inside
      rw [belowPaths] at inside
      obtain ⟨number, -, begins⟩ := prefix_of_mem_elementPaths ih place 0 path inside
      exact ⟨number, begins⟩
  | object members ih =>
      intro place path inside
      rw [belowPaths, memberPaths_eq] at inside
      have below : ∀ elm ∈ members.map Prod.snd, ∀ place, ∀ path ∈ belowPaths place elm,
          ∃ number, place ++ [number] <+: path := by
        intro elm inside
        obtain ⟨member, there, rfl⟩ := List.mem_map.mp inside
        exact ih member there
      obtain ⟨number, -, begins⟩ := prefix_of_mem_elementPaths below place 0 path inside
      exact ⟨number, begins⟩
  | leaf val noArray noObject =>
      intro place path inside
      have none := @entryPaths_leaf place val noObject noArray
      rw [entryPaths, List.append_eq_nil_iff] at none
      rw [none.2] at inside
      cases inside

private theorem prefix_of_mem_entryPaths {place path : Path} {val : Json}
    (inside : path ∈ entryPaths place val) : place <+: path := by
  rcases List.mem_append.mp inside with own | below
  · split at own
    · rw [List.mem_singleton] at own
      exact own ▸ List.prefix_refl _
    · cases own
  · obtain ⟨number, begins⟩ := prefix_of_mem_belowPaths val place path below
    exact (List.prefix_append _ _).trans begins

/-- The places of the objects are distinct. -/
theorem nodup_entryPaths (val : Json) : ∀ place, (entryPaths place val).Nodup := by
  have elements : ∀ list : List Json, (∀ elm ∈ list, ∀ place, (entryPaths place elm).Nodup) →
      ∀ place number, (elementPaths place number list).Nodup := by
    intro list
    induction list with
    | nil => exact fun _ _ _ => List.nodup_nil
    | cons elm rest ih =>
        intro all place number
        rw [elementPaths_cons]
        refine List.Nodup.append (all elm List.mem_cons_self _)
          (ih (fun elm inside => all elm (List.mem_cons_of_mem _ inside)) place (number + 1)) ?_
        intro path first later
        obtain ⟨other, behind, begins⟩ := prefix_of_mem_elementPaths
          (fun elm _ => prefix_of_mem_belowPaths elm) place (number + 1) path later
        have same := eq_of_prefix (prefix_of_mem_entryPaths first) begins
        omega
  induction val using Json.tree_induction with
  | array list ih =>
      intro place
      exact elements list ih place 0
  | object members ih =>
      intro place
      rw [entryPaths_object rfl, belowPaths, memberPaths_eq, List.nodup_cons]
      constructor
      · intro own
        obtain ⟨number, -, begins⟩ := prefix_of_mem_elementPaths
          (fun elm _ => prefix_of_mem_belowPaths elm) place 0 place own
        have long := begins.length_le
        rw [List.length_append, List.length_singleton] at long
        omega
      · apply elements
        intro elm inside
        obtain ⟨member, there, rfl⟩ := List.mem_map.mp inside
        exact ih member there
  | leaf val noArray noObject =>
      intro place
      rw [entryPaths_leaf noObject noArray]
      exact List.nodup_nil

/-- Objects with these places were made, in this order, and all of them were put. -/
def Adds (state final : Decoded δ) (paths : List Path) : Prop :=
  ∃ new : List (JsObj δ), new.map JsObj.jsData = paths ∧
    final.allocated = state.allocated ++ new ∧ final.symbols.Perm (state.symbols ++ new)

private theorem adds_nil (state : Decoded δ) : Adds state state [] :=
  ⟨[], rfl, (List.append_nil _).symm, (List.append_nil state.symbols).symm ▸ List.Perm.refl _⟩

theorem Adds.trans {state middle final : Decoded δ} {paths later : List Path}
    (first : Adds state middle paths) (second : Adds middle final later) :
    Adds state final (paths ++ later) := by
  obtain ⟨new, places, allocated, put⟩ := first
  obtain ⟨more, morePlaces, moreAllocated, morePut⟩ := second
  refine ⟨new ++ more, ?_, ?_, ?_⟩
  · rw [List.map_append, places, morePlaces]
  · rw [moreAllocated, allocated, List.append_assoc]
  · rw [← List.append_assoc]
    exact morePut.trans (put.append_right more)

/-- No symbol was decoded from a place or below it. -/
def Fresh (state : Decoded δ) (place : Path) : Prop :=
  ∀ obj ∈ state.symbols, ¬ place <+: obj.jsData

/-- No symbol was decoded from inside a place, from a number on. -/
def FreshFrom (state : Decoded δ) (place : Path) (number : Nat) : Prop :=
  ∀ later, number ≤ later → Fresh state (place ++ [later])

theorem Fresh.inside {state : Decoded δ} {place : Path} (fresh : Fresh state place) :
    FreshFrom state place 0 := fun _ _ obj inside begins =>
  fresh obj inside ((List.prefix_append _ _).trans begins)

private theorem Adds.mem_symbols {state final : Decoded δ} {paths : List Path}
    (adds : Adds state final paths) {obj : JsObj δ} (inside : obj ∈ final.symbols) :
    obj ∈ state.symbols ∨ obj.jsData ∈ paths := by
  obtain ⟨new, rfl, -, put⟩ := adds
  rcases List.mem_append.mp (put.mem_iff.mp inside) with old | new
  · exact Or.inl old
  · exact Or.inr (List.mem_map_of_mem new)

private theorem FreshFrom.skip {state : Decoded δ} {place : Path} {number : Nat}
    (fresh : FreshFrom state place number) : FreshFrom state place (number + 1) :=
  fun later behind => fresh later (Nat.le_of_succ_le behind)

/-- What is made for one number leaves the later ones fresh. -/
theorem FreshFrom.next {state final : Decoded δ} {place : Path} {number : Nat} {val : Json}
    (fresh : FreshFrom state place number)
    (adds : Adds state final (entryPaths (place ++ [number]) val)) :
    FreshFrom final place (number + 1) := by
  intro later behind obj inside begins
  rcases adds.mem_symbols inside with old | new
  · exact fresh later (by omega) obj old begins
  · have same := eq_of_prefix (prefix_of_mem_entryPaths new) begins
    omega

section Makes

variable {percentP : Ptr → CStr} {address : Path → Ptr} {decoders : Decoders δ}
  {root : Json} {place : Path} {key : Option CStr} {idx : Int} {parent : Option Path} {decode : δ}
  {decodeAll : Decoded δ → Option (Decoded δ)}

/-- What `js_decode_all` does on the object of a place. -/
def Inside (decodeAll : Decoded δ → Option (Decoded δ)) (place : Path) (val : Json) : Prop :=
  ∀ state, FreshFrom state place 0 →
    ∃ final, decodeAll state = some final ∧ Adds state final (belowPaths place val)

private theorem jsData_newObj {made : JsObj δ × Bool}
    (new : newObj percentP address root place key idx parent decode = some made) :
    made.1.jsData = place := by
  unfold newObj at new
  split at new
  · cases new
    rfl
  · split at new
    · obtain ⟨_, -, rfl⟩ := Option.map_eq_some_iff.mp new
      rfl
    · cases new
      rfl

/-- An object that is put at once. -/
theorem jsDecodeWith_put {jobj : JsObj δ} {state : Decoded δ}
    (new : newObj percentP address root place key idx parent decode = some (jobj, true))
    (inside : Inside decodeAll place root) (fresh : Fresh state place) :
    ∃ final, jsDecodeWith percentP address decodeAll root place key idx parent decode state =
        some (jobj, final) ∧
      jobj ∈ final.symbols ∧ Adds state final (place :: belowPaths place root) := by
  have data : jobj.jsData = place := jsData_newObj new
  have own : Adds state ((state.jsAlloc jobj).jsPutSymb jobj) [place] :=
    ⟨[jobj], congrArg (fun path => [path]) data, rfl, List.Perm.refl _⟩
  have free : FreshFrom ((state.jsAlloc jobj).jsPutSymb jobj) place 0 := by
    intro number least obj there begins
    rcases own.mem_symbols there with old | same
    · exact fresh.inside number least obj old begins
    · rw [List.mem_singleton.mp same] at begins
      have long := begins.length_le
      rw [List.length_append, List.length_singleton] at long
      omega
  obtain ⟨final, ends, adds⟩ := inside _ free
  refine ⟨final, ?_, ?_, own.trans adds⟩
  · rw [jsDecodeWith, new, Option.bind_some]
    simp only [if_true, ends, Option.map_some]
  · obtain ⟨more, -, -, put⟩ := adds
    exact put.mem_iff.mpr (List.mem_append_left _ (List.mem_append_right _ List.mem_cons_self))

/-- An object that is put after what is inside it. -/
theorem jsDecodeWith_later {jobj : JsObj δ} {state : Decoded δ}
    (new : newObj percentP address root place key idx parent decode = some (jobj, false))
    (inside : Inside decodeAll place root) (fresh : Fresh state place) :
    ∃ final, jsDecodeWith percentP address decodeAll root place key idx parent decode state =
        some (jobj, final) ∧ final.objIsChained jobj = false ∧
      Adds state (final.jsPutSymb jobj) (place :: belowPaths place root) := by
  have data : jobj.jsData = place := jsData_newObj new
  obtain ⟨final, ends, adds⟩ := inside (state.jsAlloc jobj) fresh.inside
  refine ⟨final, ?_, ?_, ?_⟩
  · rw [jsDecodeWith, new, Option.bind_some]
    simp only [Bool.false_eq_true, if_false, ends, Option.map_some]
  · rw [Decoded.objIsChained, List.any_eq_false]
    intro other there
    rw [decide_eq_true_iff, data]
    intro same
    rcases adds.mem_symbols there with old | below
    · exact fresh other old (same ▸ List.prefix_refl _)
    · obtain ⟨number, begins⟩ := prefix_of_mem_belowPaths root place _ below
      have long := begins.length_le
      rw [same, List.length_append, List.length_singleton] at long
      omega
  · obtain ⟨more, places, allocated, put⟩ := adds
    refine ⟨jobj :: more, ?_, ?_, ?_⟩
    · rw [List.map_cons, data, places]
    · change final.allocated = _
      rw [allocated]
      exact List.append_assoc _ [jobj] more
    · change (final.symbols ++ [jobj]).Perm _
      exact (put.append_right [jobj]).trans
        (by rw [List.append_assoc]; exact List.perm_append_comm.append_left state.symbols)

variable (percentP address) in
/-- An object inside another value: it is put once, early or late. -/
theorem jsDecodeWith_adds (ckey : CStr) (idx : Int) (self : Path) (decode : δ) {state : Decoded δ}
    (inside : Inside decodeAll place root) (fresh : Fresh state place) :
    ∃ jobj final, jsDecodeWith percentP address decodeAll root place (some ckey) idx (some self)
        decode state = some (jobj, final) ∧
      Adds state (final.jsPutSymbKey jobj) (place :: belowPaths place root) := by
  cases new : newObj percentP address root place (some ckey) idx (some self) decode with
  | none =>
      unfold newObj at new
      split at new
      · cases new
      · cases new
  | some made =>
      obtain ⟨jobj, put⟩ := made
      cases put with
      | true =>
          obtain ⟨final, ends, there, adds⟩ := jsDecodeWith_put new inside fresh
          have chained : final.objIsChained jobj = true :=
            List.any_eq_true.mpr ⟨jobj, there, decide_eq_true rfl⟩
          refine ⟨jobj, final, ends, ?_⟩
          rw [Decoded.jsPutSymbKey, chained]
          exact adds
      | false =>
          obtain ⟨final, ends, free, adds⟩ := jsDecodeWith_later new inside fresh
          refine ⟨jobj, final, ends, ?_⟩
          rw [Decoded.jsPutSymbKey, free]
          exact adds

variable (percentP address decoders) in
/-- What `js_decode_all` does on a value, which has a key if it is an array. -/
def InsideAll (val : Json) : Prop :=
  ∀ self place key decode, (val.isArray = true → key.isSome = true) →
    Inside (jsDecodeAll percentP address decoders val self place key decode) place val

private theorem decodeElements_adds {self : Path} {ckey : CStr} {active : δ} {elements : List Json}
    (all : ∀ elm ∈ elements, elm.isArray = false ∧ InsideAll percentP address decoders elm) :
    ∀ {number : Nat} {state : Decoded δ}, FreshFrom state place number →
      ∃ final, decodeElements percentP address decoders elements self place number ckey active
          state = some final ∧ Adds state final (elementPaths place number elements) := by
  induction elements with
  | nil => exact fun {number state} _ => ⟨state, by rw [decodeElements], adds_nil state⟩
  | cons cval rest ih =>
      intro number state fresh
      obtain ⟨noArray, inside⟩ := all cval List.mem_cons_self
      have later := fun elm there => all elm (List.mem_cons_of_mem cval there)
      rw [decodeElements, elementPaths_cons, noArray]
      cases object : cval.isObject with
      | false =>
          obtain ⟨final, ends, adds⟩ := ih later fresh.skip
          rw [entryPaths_leaf object noArray]
          exact ⟨final, ends, adds⟩
      | true =>
          have free : cval.isArray = true → (none : Option CStr).isSome = true :=
            fun array => absurd (noArray.symm.trans array) Bool.false_ne_true
          obtain ⟨jobj, middle, decoded, own⟩ := jsDecodeWith_adds percentP address ckey
            (toInt number) self active
            (inside (place ++ [number]) (place ++ [number]) none active free)
            (fresh number (Nat.le_refl _))
          rw [← entryPaths_object object] at own
          obtain ⟨final, ends, adds⟩ := ih later (fresh.next own)
          refine ⟨final, ?_, own.trans adds⟩
          simp only [Bool.not_true, Bool.false_and, Bool.false_eq_true, if_false, decoded,
            Option.bind_some, ends]

private theorem decodeMembers_adds {self : Path} {members : List Json.Member}
    (all : ∀ member ∈ members, InsideAll percentP address decoders member.2) :
    ∀ {number : Nat} {state : Decoded δ}, FreshFrom state place number →
      ∃ final, decodeMembers percentP address decoders members self place number decode state =
          some final ∧ Adds state final (memberPaths place number members) := by
  induction members with
  | nil => exact fun {number state} _ => ⟨state, by rw [decodeMembers], adds_nil state⟩
  | cons member rest ih =>
      obtain ⟨ckey, cval⟩ := member
      intro number state fresh
      have inside : InsideAll percentP address decoders cval := all (ckey, cval) List.mem_cons_self
      have later := fun member there => all member (List.mem_cons_of_mem (ckey, cval) there)
      rw [decodeMembers, memberPaths_eq, List.map_cons, elementPaths_cons, ← memberPaths_eq]
      cases array : cval.isArray with
      | true =>
          obtain ⟨middle, decoded, own⟩ := inside self (place ++ [number]) (some ckey)
            (decoders.jsGetDecode decode ckey) (fun _ => rfl) state
              (fresh number (Nat.le_refl _)).inside
          rw [← entryPaths_array array] at own
          obtain ⟨final, ends, adds⟩ := ih later (fresh.next own)
          refine ⟨final, ?_, own.trans adds⟩
          simp only [if_true, decoded, Option.bind_some, ends]
      | false =>
          cases object : cval.isObject with
          | false =>
              obtain ⟨final, ends, adds⟩ := ih later fresh.skip
              rw [entryPaths_leaf object array]
              exact ⟨final, ends, adds⟩
          | true =>
              have free : cval.isArray = true → (none : Option CStr).isSome = true :=
                fun isArray => absurd (array.symm.trans isArray) Bool.false_ne_true
              obtain ⟨jobj, middle, decoded, own⟩ := jsDecodeWith_adds percentP address ckey (-1)
                self (decoders.jsGetDecode decode ckey)
                (inside (place ++ [number]) (place ++ [number]) none
                  (decoders.jsGetDecode decode ckey) free)
                (fresh number (Nat.le_refl _))
              rw [← entryPaths_object object] at own
              obtain ⟨final, ends, adds⟩ := ih later (fresh.next own)
              refine ⟨final, ?_, own.trans adds⟩
              simp only [Bool.false_eq_true, if_false, if_true, decoded, Option.bind_some, ends]

private theorem flatElements_iff (elements : List Json) :
    FlatElements elements ↔ ∀ elm ∈ elements, elm.isArray = false ∧ Flat elm := by
  induction elements with
  | nil => simp [FlatElements]
  | cons elm rest ih => simp [FlatElements, ih]

private theorem flatMembers_iff (members : List Json.Member) :
    FlatMembers members ↔ ∀ member ∈ members, Flat member.2 := by
  induction members with
  | nil => simp [FlatMembers]
  | cons member rest ih => simp [FlatMembers, ih]

/-- `js_decode_all` on a value without arrays in arrays makes the objects inside it. -/
theorem insideAll_of_flat (val : Json) : Flat val → InsideAll percentP address decoders val := by
  induction val using Json.tree_induction with
  | array elements ih =>
      intro flat self place key decode keyed state fresh
      rw [Flat, flatElements_iff] at flat
      obtain ⟨ckey, rfl⟩ := Option.isSome_iff_exists.mp (keyed rfl)
      rw [jsDecodeAll, Option.bind_some, if_pos flat.1, belowPaths]
      exact decodeElements_adds
        (fun elm inside => ⟨(flat.2 elm inside).1, ih elm inside (flat.2 elm inside).2⟩) fresh
  | object members ih =>
      intro flat self place key decode _ state fresh
      rw [Flat, flatMembers_iff] at flat
      rw [jsDecodeAll, belowPaths]
      exact decodeMembers_adds (fun member inside => ih member inside (flat member inside)) fresh
  | leaf val noArray noObject =>
      intro _ self place key decode _ state _
      have none := @entryPaths_leaf place val noObject noArray
      rw [entryPaths, List.append_eq_nil_iff] at none
      rw [none.2]
      refine ⟨state, ?_, adds_nil state⟩
      cases val with
      | object members => cases noObject
      | array elements => cases noArray
      | _ => rw [jsDecodeAll] <;> exact fun _ => Json.noConfusion

end Makes

/-! ## The document -/

/-- Every object of the document was decoded into one `JsBase`, which is one of the symbols. -/
def Registers (final : Decoded δ) (root : Json) : Prop :=
  ∀ path ∈ objectPaths root, ∃ jobj,
    final.allocated.filter (fun obj => obj.jsData = path) = [jobj] ∧
      (final.symbols.map JsObj.jsData).count path = 1 ∧ jobj ∈ final.symbols

private theorem objectPaths_eq (root : Json) : objectPaths root = entryPaths [] root := rfl

/-- What was made for distinct places is found by the place. -/
theorem filter_eq_singleton {objs : List (JsObj δ)} {path : Path}
    (distinct : (objs.map JsObj.jsData).Nodup) (inside : path ∈ objs.map JsObj.jsData) :
    ∃ jobj ∈ objs, objs.filter (fun obj => obj.jsData = path) = [jobj] := by
  induction objs with
  | nil => cases inside
  | cons obj rest ih =>
      rw [List.map_cons, List.nodup_cons] at distinct
      by_cases own : obj.jsData = path
      · refine ⟨obj, List.mem_cons_self, ?_⟩
        have others : rest.filter (fun obj => obj.jsData = path) = [] := by
          rw [List.filter_eq_nil_iff]
          intro other there same
          exact distinct.1 (own.trans (decide_eq_true_iff.mp same).symm ▸ List.mem_map_of_mem there)
        rw [List.filter_cons, if_pos (decide_eq_true own), others]
      · have later : path ∈ rest.map JsObj.jsData := by
          rcases List.mem_cons.mp inside with same | later
          · exact (own same.symm).elim
          · exact later
        obtain ⟨jobj, there, alone⟩ := ih distinct.2 later
        refine ⟨jobj, List.mem_cons_of_mem _ there, ?_⟩
        rw [List.filter_cons, if_neg (fun same => own (decide_eq_true_iff.mp same)), alone]

private theorem registers_of_adds {final : Decoded δ} {root : Json}
    (adds : Adds ⟨[], []⟩ final (objectPaths root)) : Registers final root := by
  obtain ⟨new, places, allocated, put⟩ := adds
  rw [List.nil_append] at allocated put
  have distinct : (new.map JsObj.jsData).Nodup := places ▸ nodup_entryPaths root []
  intro path inside
  rw [← places] at inside
  obtain ⟨jobj, there, alone⟩ := filter_eq_singleton distinct inside
  refine ⟨jobj, allocated ▸ alone, ?_, put.mem_iff.mpr there⟩
  rw [(put.map JsObj.jsData).count_eq]
  exact List.count_eq_one_of_mem distinct inside

section Process

variable (percentP : Ptr → CStr) (address : Path → Ptr) (decoders : Decoders δ)

/-- It ends without a failed assertion, and every object of the document is registered. -/
def Processes (root : Json) (decode : δ) : Prop :=
  ∃ final, jsProcessJson percentP address decoders root decode = some final ∧ Registers final root

/-- **Documents that are decoded.** All whose root is no array and in which no array is an element
of an array. -/
theorem processes_iff_flat (root : Json) (decode : δ) :
    Processes percentP address decoders root decode ↔ root.isArray = false ∧ Flat root := by
  constructor
  · rintro ⟨final, ends, -⟩
    obtain ⟨decoded, made, -⟩ := Option.map_eq_some_iff.mp ends
    by_contra bad
    have fails : ∀ state, jsDecodeAll percentP address decoders root [] [] none decode state =
        none := by
      intro state
      by_cases array : root.isArray = true
      · exact jsDecodeAll_array_none array [] [] decode state
      · exact jsDecodeAll_none root [] [] none decode state fun flat =>
          bad ⟨Bool.eq_false_iff.mpr array, flat⟩
    rw [jsDecode, jsDecodeWith_none fails] at made
    cases made
  · rintro ⟨noArray, flat⟩
    have keyed : root.isArray = true → (none : Option CStr).isSome = true :=
      fun array => absurd (noArray.symm.trans array) Bool.false_ne_true
    have inside : Inside (jsDecodeAll percentP address decoders root [] [] none decode) [] root :=
      insideAll_of_flat root flat [] [] none decode keyed
    have fresh : Fresh (⟨[], []⟩ : Decoded δ) [] := fun _ none => (List.not_mem_nil none).elim
    obtain ⟨jobj, new⟩ : ∃ jobj, newObj percentP address root [] none (-1) none decode =
        some (jobj, true) := by
      unfold newObj
      cases idName root with
      | none => exact ⟨_, rfl⟩
      | some id => exact ⟨_, rfl⟩
    obtain ⟨final, ends, -, adds⟩ := jsDecodeWith_put new inside fresh
    refine ⟨final, ?_, ?_⟩
    · rw [jsProcessJson, jsDecode, ends]
      rfl
    · cases object : root.isObject with
      | true =>
          apply registers_of_adds
          rw [objectPaths_eq, entryPaths_object object]
          exact adds
      | false =>
          intro path there
          rw [objectPaths_eq, entryPaths_leaf object noArray] at there
          cases there

end Process

section Documents

/-- `JsDecode s_def_decode("", nullptr, nullptr)` -/
def defDecode : Decoders Unit where
  jsKey := fun _ => ⟨[], CStr.ended_nil⟩
  jsUpstream := fun _ => none
  jsDecode := fun _ => none
  sDefDecode := ()
  depth := fun _ => 0
  upstream := fun _ _ none => nomatch none

/-- A document that is an empty array, and an object with an array in an array. -/
theorem array_not_processed :
    ¬ Processes (fun _ => rootName) (fun _ => 0) defDecode (.array []) () ∧
      ¬ Processes (fun _ => rootName) (fun _ => 0) defDecode
        (.object [(rootName, .array [.array []])]) () := by
  constructor
  · rintro ⟨final, ends, -⟩
    obtain ⟨decoded, made, -⟩ := Option.map_eq_some_iff.mp ends
    rw [jsDecode, jsDecodeWith_none fun state => jsDecodeAll_array_none rfl [] [] () state] at made
    cases made
  · rintro ⟨final, ends, -⟩
    obtain ⟨decoded, made, -⟩ := Option.map_eq_some_iff.mp ends
    have nested : ¬ Flat (.object [(rootName, .array [.array []])]) := by
      simp [Flat, FlatMembers, FlatElements, Json.isArray]
    rw [jsDecode, jsDecodeWith_none fun state => jsDecodeAll_none _ [] [] none () state nested]
      at made
    cases made

end Documents

end DecodeAll

end Tvntd
