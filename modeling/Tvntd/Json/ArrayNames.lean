import Tvntd.Ctype.DhashFifo
import Tvntd.Cpptype.Object
import Tvntd.Json.Value
import Tvntd.Lib.Numerals

/-! # Names of decoded array elements

Every object that `JsBase` decodes is a symbol of one table, under its `idName`
or, without one, under a generated name: the key it is decoded for, the address
of its parent and its place in the array. `js_kv_obj` makes the name of an
element once more and looks it up.

A generated name is printed into a buffer of `strlen(key) + 20` bytes, whatever
the address and the place take: behind the address there is room for the first
digits of the place only.
-/

namespace Tvntd

open Numerals

namespace CStr

def append (front back : CStr) : CStr where
  bytes := front.bytes ++ back.bytes
  ended := by
    rw [List.mem_append, not_or]
    exact ⟨front.ended, back.ended⟩

instance : Append CStr := ⟨append⟩

@[simp] theorem bytes_append (front back : CStr) :
    (front ++ back).bytes = front.bytes ++ back.bytes := rfl

end CStr

namespace JsNames

/-! ## Names -/

/-- `%d` of a number that is not negative. -/
def percentD (num : Nat) : CStr := ⟨decimal num, nul_notMem_decimal num⟩

def colon : CStr := ⟨[58#8], by decide⟩

def dash : CStr := ⟨[45#8], by decide⟩

/-- `snprintf` into a buffer: what does not fit in front of the terminator is left out. -/
def snprintf (len : Nat) (text : CStr) : CStr where
  bytes := text.bytes.take (len - 1)
  ended := fun inside => text.ended (List.mem_of_mem_take inside)

@[simp] theorem bytes_snprintf (len : Nat) (text : CStr) :
    (snprintf len text).bytes = text.bytes.take (len - 1) := rfl

section Format

variable (percentP : Ptr → CStr)

/-- `js_make_keyname` -/
def jsMakeKeyname (key : CStr) (id : Ptr) (idx : Int) : CStr :=
  let len := key.bytes.length + 20
  if 0 ≤ idx then snprintf len (key ++ colon ++ percentP id ++ colon ++ percentD idx.toNat)
  else snprintf len (key ++ colon ++ percentP id)

/-- `js_format_name` -/
def jsFormatName (parent : Ptr) (hasId : Bool) (id : CStr) (idx : Int) : CStr :=
  if hasId = false then jsMakeKeyname percentP id parent idx
  else if idx < 0 then id
  else snprintf (id.bytes.length + 5) (id ++ dash ++ percentD idx.toNat)

/-- Behind the key, two colons and the address a generated name has the first digits of the
place. -/
theorem bytes_jsMakeKeyname (key : CStr) (id : Ptr) (idx : Nat) :
    (jsMakeKeyname percentP key id idx).bytes =
      (key ++ colon ++ percentP id ++ colon).bytes.take (key.bytes.length + 19) ++
        (decimal idx).take (17 - (percentP id).bytes.length) := by
  have room : key.bytes.length + 20 - 1 - (key ++ colon ++ percentP id ++ colon).bytes.length =
      17 - (percentP id).bytes.length := by
    simp only [CStr.bytes_append, List.length_append, colon, List.length_singleton]
    omega
  unfold jsMakeKeyname
  rw [if_pos (Int.natCast_nonneg idx), bytes_snprintf, Int.toNat_natCast, CStr.bytes_append,
    List.take_append, room]
  rfl

/-- Two places have the same generated name when their digits are cut to the same ones. -/
theorem jsMakeKeyname_eq_iff (key : CStr) (id : Ptr) (own other : Nat) :
    jsMakeKeyname percentP key id own = jsMakeKeyname percentP key id other ↔
      (decimal own).take (17 - (percentP id).bytes.length) =
        (decimal other).take (17 - (percentP id).bytes.length) := by
  rw [CStr.ext_iff, bytes_jsMakeKeyname, bytes_jsMakeKeyname, List.append_cancel_left_eq]

/-- As many places have names of their own as there is room for digits. -/
theorem jsMakeKeyname_inj {key : CStr} {id : Ptr} {own other : Nat}
    (ownFits : own < 10 ^ (17 - (percentP id).bytes.length))
    (otherFits : other < 10 ^ (17 - (percentP id).bytes.length))
    (same : jsMakeKeyname percentP key id own = jsMakeKeyname percentP key id other) :
    own = other := by
  rw [jsMakeKeyname_eq_iff] at same
  generalize 17 - (percentP id).bytes.length = room at ownFits otherFits same
  by_cases none : room = 0
  · subst none
    omega
  · have positive : 0 < room := Nat.pos_of_ne_zero none
    have whole : ∀ num, num < 10 ^ room → (decimal num).take room = decimal num := by
      intro num fits
      apply List.take_of_length_le
      rw [decimal, List.length_map]
      exact (Nat.length_toDigits_le_iff (by decide) positive).mpr fits
    rw [whole own ownFits, whole other otherFits] at same
    exact decimal_injective same

theorem jsMakeKeyname_inj_ten :
    jsMakeKeyname (fun _ => dash) colon 0 10 ≠ jsMakeKeyname (fun _ => dash) colon 0 100 := by
  intro same
  exact absurd (jsMakeKeyname_inj (fun _ => dash) (by decide) (by decide) same) (by decide)

end Format

/-! ## Symbols -/

/-- A decoded object, by its name and its address. -/
structure JsSymb where
  jsIdName : CStr
  address : Ptr
  deriving DecidableEq

/-- `js_put_symb`, on the symbols in the order they were put. -/
def jsPutSymb (symbols : List JsSymb) (obj : JsSymb) : List JsSymb := symbols ++ [obj]

/-- `js_get_symb` -/
def jsGetSymb (symbols : List JsSymb) (id : CStr) : Option Ptr :=
  (symbols.find? fun obj => obj.jsIdName = id).map JsSymb.address

/-- The hash of `js_symbol`. -/
def symbHash (size : Nat) (obj : JsSymb) : Nat := objHashStrfn size obj.jsIdName.bytes

/-- The comparison of `js_symbol`. -/
def symbCmp (linked obj : JsSymb) : Int := strcmp linked.jsIdName.bytes obj.jsIdName.bytes

private theorem symb_respects : HashRespects symbHash symbCmp where
  inside := fun _ obj positive => objHashStrfn_lt positive obj.jsIdName.bytes
  agrees := by
    intro size linked obj same
    rw [symbHash, (strcmp_eq_zero_iff _ _).mp same, symbHash]

section Table

variable {symbols front back : List JsSymb} {own : JsSymb} {id : CStr}

/-- Putting into the hash table is `jsPutSymb`. -/
theorem jsPutSymb_represents {table : Dhash JsSymb} (fresh : own ∉ symbols)
    (holds : Represents symbHash symbCmp table symbols) (fits : table.dhElmCnt + 1 < 2 ^ 31) :
    ∃ next, dhashInsert (totalFn symbHash symbCmp) table own =
        some (symbHash table.dhBkSize own, next) ∧
      Represents symbHash symbCmp next (jsPutSymb symbols own) :=
  holds.insert symb_respects fresh fits

/-- Looking up in the hash table, by any object with the name, is `jsGetSymb`. -/
theorem jsGetSymb_represents {table : Dhash JsSymb}
    (holds : Represents symbHash symbCmp table symbols) {seed : JsSymb} (named : seed.jsIdName = id)
    (fits : LongProbe symbHash symbCmp table seed → table.dhBkSize < 2 ^ 30) :
    ∃ found next, dhashFind (totalFn symbHash symbCmp) table seed = some (found, next) ∧
      found.map JsSymb.address = jsGetSymb symbols id ∧
      Represents symbHash symbCmp next symbols := by
  obtain ⟨next, probed, still⟩ := holds.find symb_respects fits
  have same : sameAs symbCmp seed = fun obj : JsSymb => decide (obj.jsIdName = id) := by
    funext obj
    apply decide_eq_decide.mpr
    rw [symbCmp, strcmp_eq_zero_iff, named]
  refine ⟨_, next, probed, ?_, still⟩
  rw [same, jsGetSymb]

/-! ### Runs -/

inductive SymbOp
  | put (obj : JsSymb)
  | get (id : CStr)

/-- The name that is looked up stands in an object of its own. -/
def symbMachine : Machine (Dhash JsSymb) SymbOp (Option Ptr) where
  step table
    | .put obj =>
        (dhashInsert (totalFn symbHash symbCmp) table obj).map fun result => (result.2, none)
    | .get id =>
        (dhashFind (totalFn symbHash symbCmp) table ⟨id, 0⟩).map fun result =>
          (result.2, result.1.map JsSymb.address)

def symbNext (symbols : List JsSymb) : SymbOp → List JsSymb × Option Ptr
  | .put obj => (jsPutSymb symbols obj, none)
  | .get id => (symbols, jsGetSymb symbols id)

/-- An object is put that is not there yet. -/
def symbLegal (symbols : List JsSymb) : SymbOp → Prop
  | .put obj => obj ∉ symbols
  | .get _ => True

/-- No `int` of the table overflows. -/
def symbFits (table : Dhash JsSymb) : SymbOp → Prop
  | .put obj => IntsFit symbHash symbCmp table (.insert obj)
  | .get id => IntsFit symbHash symbCmp table (.find ⟨id, 0⟩)

private theorem symb_simulates :
    symbMachine.Simulates symbNext symbFits symbLegal (Represents symbHash symbCmp) := by
  intro table symbols op holds legal fits
  cases op with
  | put obj =>
      obtain ⟨next, inserted, still⟩ := jsPutSymb_represents legal holds fits
      refine ⟨next, ?_, still⟩
      rw [symbMachine]
      simp only [inserted]
      rfl
  | get id =>
      obtain ⟨found, next, probed, answer, still⟩ := jsGetSymb_represents holds rfl fits
      refine ⟨next, ?_, still⟩
      rw [symbMachine, symbNext, ← answer]
      simp only [probed]
      rfl

/-- **Symbols.** Whatever is put into a new table and looked up there, each name finds the first
object that was put with it. -/
theorem jsGetSymb_of_run {size : Nat} (positive : 0 < size) {ops : List SymbOp}
    (legal : Machine.SpecMeets symbNext symbLegal [] ops)
    (fits : symbMachine.Meets symbFits (dhashInit size) ops) :
    ∃ final, symbMachine.run (dhashInit size) ops =
        some (final, (Machine.specRun symbNext [] ops).2) ∧
      Represents symbHash symbCmp final (Machine.specRun symbNext [] ops).1 :=
  symb_simulates.run (represents_init positive) legal fits

/-- Two objects are put with one name, which finds the first of them. -/
theorem jsGetSymb_of_run_twice : (symbMachine.run (dhashInit 4)
    [.put ⟨colon, 1⟩, .put ⟨colon, 2⟩, .get colon]).map Prod.snd = some [none, none, some 1] := by
  have legal : Machine.SpecMeets symbNext symbLegal []
      [.put ⟨colon, 1⟩, .put ⟨colon, 2⟩, .get colon] :=
    ⟨List.not_mem_nil, show _ ∉ [_] by decide, trivial, trivial⟩
  have fits : symbMachine.Meets symbFits (dhashInit 4)
      [.put ⟨colon, 1⟩, .put ⟨colon, 2⟩, .get colon] := by
    refine ⟨show (0 : Int) + 1 < 2 ^ 31 by decide, fun _ _ first => ?_⟩
    cases first
    refine ⟨show (1 : Int) + 1 < 2 ^ 31 by decide, fun _ _ second => ?_⟩
    cases second
    exact ⟨fun _ => show 4 < 2 ^ 30 by decide, fun _ _ _ => trivial⟩
  obtain ⟨final, ran, -⟩ := jsGetSymb_of_run (by decide) legal fits
  rw [ran]
  rfl

/-- A symbol is what a name finds when the name is its own and none in front of it has it. -/
theorem jsGetSymb_eq_iff (others : ∀ obj ∈ front ++ back, obj.address ≠ own.address) :
    jsGetSymb (front ++ own :: back) id = some own.address ↔
      own.jsIdName = id ∧ ∀ obj ∈ front, obj.jsIdName ≠ id := by
  rw [jsGetSymb, List.find?_append]
  cases early : front.find? (fun obj => obj.jsIdName = id) with
  | some obj =>
      have inside := List.mem_of_find?_eq_some early
      have named : obj.jsIdName = id := by simpa using List.find?_some early
      have differs := others obj (List.mem_append_left back inside)
      rw [Option.some_or, Option.map_some, Option.some_inj]
      exact ⟨fun same => (differs same).elim, fun free => (free.2 obj inside named).elim⟩
  | none =>
      have free : ∀ obj ∈ front, obj.jsIdName ≠ id := by
        simpa using List.find?_eq_none.mp early
      rw [Option.none_or]
      by_cases named : own.jsIdName = id
      · rw [List.find?_cons_of_pos (by exact decide_eq_true named), Option.map_some]
        exact ⟨fun _ => ⟨named, free⟩, fun _ => rfl⟩
      · rw [List.find?_cons_of_neg (by simpa using named)]
        constructor
        · intro late
          obtain ⟨obj, found, same⟩ := Option.map_eq_some_iff.mp late
          have inside := List.mem_of_find?_eq_some found
          exact (others obj (List.mem_append_right front inside) same).elim
        · exact fun both => (named both.1).elim

end Table

/-! ## Decoding and looking up -/

/-- `"idName"` -/
def idNameKey : CStr := ⟨[105#8, 100#8, 78#8, 97#8, 109#8, 101#8], by decide⟩

/-- The `idName` of an object, when it is a string. -/
def idName : Json → Option CStr
  | .object members =>
      match (members.find? fun member => member.1 = idNameKey).map Prod.snd with
      | some (.string id) => some id
      | _ => none
  | _ => none

/-- `(int) cidx` of a `uint32_t` -/
def toInt (cidx : Nat) : Int := (BitVec.ofNat 32 cidx).toInt

private theorem toInt_of_lt {cidx : Nat} (small : cidx < 2 ^ 31) : toInt cidx = cidx := by
  have value : (BitVec.ofNat 32 cidx).toNat = cidx := by
    rw [BitVec.toNat_ofNat]
    omega
  rw [toInt, BitVec.toInt_eq_toNat_of_lt (by omega), value]

/-- An array that is decoded under a key of a parent. The symbols put earlier, those that the
contents of each element put, whose decode comes back, and the objects of the elements are at
addresses of their own. -/
structure ArrayDecode where
  percentP : Ptr → CStr
  /-- `js_decode_all`, or else `js_decode_nested` -/
  getAll : Bool
  parent : Ptr
  key : CStr
  arr : List Json
  before : List JsSymb
  contents : Nat → List JsSymb
  address : Nat → Ptr
  distinct : ∀ i j, i < arr.length → j < arr.length → address i = address j → i = j
  freshBefore : ∀ i < arr.length, ∀ obj ∈ before, obj.address ≠ address i
  freshContents : ∀ i < arr.length, ∀ j < arr.length, ∀ obj ∈ contents j,
    obj.address ≠ address i

namespace ArrayDecode

variable (d : ArrayDecode)

/-- `js_decode` of an element, and `js_put_symb` of what is in no table yet. `js_decode_all` of an
array without a key aborts. -/
def jsDecode (cidx : Nat) (elm : Json) (symbols : List JsSymb) : Option (List JsSymb) :=
  if d.getAll && elm.isArray then none
  else
    match idName elm with
    | some id =>
        let jobj : JsSymb := ⟨jsFormatName d.percentP d.parent true id (-1), d.address cidx⟩
        some (jsPutSymb symbols jobj ++ d.contents cidx)
    | none =>
        let jobj : JsSymb :=
          ⟨jsFormatName d.percentP d.parent false d.key (toInt cidx), d.address cidx⟩
        some (jsPutSymb (symbols ++ d.contents cidx) jobj)

/-- `js_decode_all` decodes objects and arrays only. -/
def decodes (elm : Json) : Bool := !d.getAll || elm.isObject || elm.isArray

def decodeElements : List Json → Nat → List JsSymb → Option (List JsSymb)
  | [], _, symbols => some symbols
  | elm :: rest, cidx, symbols =>
      if d.decodes elm then (d.jsDecode cidx elm symbols).bind (decodeElements rest (cidx + 1))
      else decodeElements rest (cidx + 1) symbols

/-- The loop over the array. Its `uint32_t` never reaches a length of `2 ^ 32` or more. -/
def decodeArray : Option (List JsSymb) :=
  if d.arr.length < 2 ^ 32 then d.decodeElements d.arr 0 d.before else none

/-- `js_get_attr` -/
def jsGetAttr (symbols : List JsSymb) (key : CStr) (hasId : Bool) (idx : Int) : Option Ptr :=
  jsGetSymb symbols (jsFormatName d.percentP d.parent hasId key idx)

/-- `js_get_json` -/
def jsGetJson (symbols : List JsSymb) (elm : Json) (idx : Int) : Option Ptr :=
  match elm with
  | .object members =>
      match idName (.object members) with
      | some id => d.jsGetAttr symbols id true (-1)
      | none => d.jsGetAttr symbols d.key false idx
  | .string str => d.jsGetAttr symbols str true (-1)
  | _ => none

/-- `js_kv_obj` of the parent. A negative place is past every array as a `size_t`. -/
def jsKvObj (symbols : List JsSymb) (idx : Int) : Option Ptr :=
  if idx < 0 then none
  else (d.arr[idx.toNat]?).bind fun elm => d.jsGetJson symbols elm idx

/-- Every element is decoded, and `js_kv_obj` returns its object. -/
def FindsElements : Prop :=
  ∃ symbols, d.decodeArray = some symbols ∧ ∀ i elm, d.arr[i]? = some elm →
    d.decodes elm = true ∧ d.jsKvObj symbols (toInt i) = some (d.address i)

/-- The generated name of a place. -/
def keyname (i : Nat) : CStr := jsMakeKeyname d.percentP d.key d.parent (toInt i)

/-- The name of the object of an element. -/
def ownName (i : Nat) (elm : Json) : CStr := (idName elm).getD (d.keyname i)

def ownSymb (i : Nat) (elm : Json) : JsSymb := ⟨d.ownName i elm, d.address i⟩

/-- The digits of a place that are in its generated name. -/
def digits (i : Nat) : List Byte := (decimal i).take (17 - (d.percentP d.parent).bytes.length)

/-- What keeps the names of two elements apart. -/
def Apart (i : Nat) (own : Json) (j : Nat) (other : Json) : Prop :=
  match idName own, idName other with
  | some id, some otherId => id ≠ otherId
  | some id, none => id ≠ d.keyname j
  | none, some otherId => d.keyname i ≠ otherId
  | none, none => d.digits i ≠ d.digits j

/-- The places are of type `int`, the elements are objects, or strings that happen to be their own
generated names, and no symbol put in front of an element's has its name: no other element's,
and none put earlier or by the contents up to that element. -/
structure NamesApart : Prop where
  short : d.arr.length ≤ 2 ^ 31
  named : ∀ (i : Nat) (elm : Json), d.arr[i]? = some elm →
    elm.isObject = true ∨ d.getAll = false ∧ elm = .string (d.keyname i)
  apart : ∀ i j own other, j < i → d.arr[i]? = some own → d.arr[j]? = some other →
    d.Apart i own j other
  free : ∀ i elm, d.arr[i]? = some elm → ∀ obj,
    (obj ∈ d.before ∨ ∃ j ≤ i, (j = i → idName elm = none) ∧ obj ∈ d.contents j) →
      obj.jsIdName ≠ d.ownName i elm

variable {d}

private theorem apart_iff {i j : Nat} {own other : Json} (small : i < 2 ^ 31) (before : j < i) :
    d.Apart i own j other ↔ d.ownName j other ≠ d.ownName i own := by
  unfold Apart ownName
  cases idName own with
  | some id =>
      cases idName other with
      | some otherId => exact ne_comm
      | none => exact ne_comm
  | none =>
      cases idName other with
      | some otherId => exact ne_comm
      | none =>
          rw [Option.getD_none, Option.getD_none, keyname, keyname, toInt_of_lt small,
            toInt_of_lt (before.trans small), Ne, Ne, jsMakeKeyname_eq_iff]
          exact ne_comm

/-! ### The symbols after the decode -/

/-- What an element puts. -/
def entry (d : ArrayDecode) (i : Nat) (elm : Json) : List JsSymb :=
  if idName elm = none then d.contents i ++ [d.ownSymb i elm]
  else d.ownSymb i elm :: d.contents i

private theorem jsDecode_eq {cidx : Nat} {elm : Json} (goes : (d.getAll && elm.isArray) = false)
    (symbols : List JsSymb) : d.jsDecode cidx elm symbols = some (symbols ++ d.entry cidx elm) := by
  unfold jsDecode entry ownSymb ownName
  rw [goes, if_neg Bool.false_ne_true]
  cases idName elm with
  | some id =>
      rw [if_neg (Option.some_ne_none id)]
      exact congrArg some (List.append_assoc symbols _ (d.contents cidx))
  | none =>
      rw [if_pos rfl]
      exact congrArg some (List.append_assoc symbols (d.contents cidx) _)

/-- The symbols that elements put, from a place on. -/
def entries (d : ArrayDecode) (elms : List Json) (cidx : Nat) : List JsSymb :=
  (elms.zipIdx cidx).flatMap fun e => d.entry e.2 e.1

private theorem decodeElements_eq {elms : List Json}
    (all : ∀ elm ∈ elms, d.decodes elm = true ∧ (d.getAll && elm.isArray) = false) :
    ∀ cidx symbols, d.decodeElements elms cidx symbols = some (symbols ++ d.entries elms cidx) := by
  induction elms with
  | nil =>
      intro cidx symbols
      rw [decodeElements, entries, List.zipIdx_nil, List.flatMap_nil, List.append_nil]
  | cons elm rest ih =>
      intro cidx symbols
      obtain ⟨decoded, goes⟩ := all elm List.mem_cons_self
      rw [decodeElements, if_pos decoded, jsDecode_eq goes, Option.bind_some,
        ih fun other later => all other (List.mem_cons_of_mem _ later)]
      rw [entries, entries, List.zipIdx_cons, List.flatMap_cons, List.append_assoc]

/-- A decode that ends met no element that aborts it. -/
theorem goes_of_decodeElements {elms : List Json} : ∀ {cidx symbols after},
    d.decodeElements elms cidx symbols = some after →
      ∀ elm ∈ elms, d.decodes elm = true → (d.getAll && elm.isArray) = false := by
  induction elms with
  | nil =>
      intro cidx symbols after ended elm inside
      cases inside
  | cons first rest ih =>
      intro cidx symbols after ended elm inside decoded
      rw [decodeElements] at ended
      rcases List.mem_cons.mp inside with rfl | later
      · rw [if_pos decoded, jsDecode] at ended
        cases array : d.getAll && elm.isArray with
        | false => rfl
        | true =>
            rw [array, if_pos rfl] at ended
            cases ended
      · by_cases decodedFirst : d.decodes first = true
        · rw [if_pos decodedFirst] at ended
          obtain ⟨next, -, ended⟩ := Option.bind_eq_some_iff.mp ended
          exact ih ended elm later decoded
        · rw [if_neg decodedFirst] at ended
          exact ih ended elm later decoded

private theorem mem_entry {i : Nat} {elm : Json} {obj : JsSymb} :
    obj ∈ d.entry i elm ↔ obj = d.ownSymb i elm ∨ obj ∈ d.contents i := by
  unfold entry
  split
  · rw [List.mem_append, List.mem_singleton]
    exact or_comm
  · exact List.mem_cons

private theorem mem_entries {elms : List Json} {cidx : Nat} {obj : JsSymb} :
    obj ∈ d.entries elms cidx ↔
      ∃ j elm, cidx ≤ j ∧ elms[j - cidx]? = some elm ∧ obj ∈ d.entry j elm := by
  rw [entries, List.mem_flatMap]
  constructor
  · rintro ⟨⟨elm, j⟩, place, inside⟩
    obtain ⟨from_, at_⟩ := List.mk_mem_zipIdx_iff_le_and_getElem?_sub.mp place
    exact ⟨j, elm, from_, at_, inside⟩
  · rintro ⟨j, elm, from_, at_, inside⟩
    exact ⟨(elm, j), List.mk_mem_zipIdx_iff_le_and_getElem?_sub.mpr ⟨from_, at_⟩, inside⟩

/-- The symbols in front of the object of an element. -/
def front (d : ArrayDecode) (i : Nat) (elm : Json) : List JsSymb :=
  d.before ++ d.entries (d.arr.take i) 0 ++ if idName elm = none then d.contents i else []

/-- The symbols behind the object of an element. -/
def back (d : ArrayDecode) (i : Nat) (elm : Json) : List JsSymb :=
  (if idName elm = none then [] else d.contents i) ++ d.entries (d.arr.drop (i + 1)) (i + 1)

section Element

variable {i : Nat} {elm : Json} (at_ : d.arr[i]? = some elm)

include at_

private theorem symbols_split :
    d.before ++ d.entries d.arr 0 = d.front i elm ++ d.ownSymb i elm :: d.back i elm := by
  obtain ⟨inside, here⟩ := List.getElem?_eq_some_iff.mp at_
  have parts : d.arr = d.arr.take i ++ elm :: d.arr.drop (i + 1) := by
    rw [← here, List.getElem_cons_drop, List.take_append_drop]
  have places : d.entries d.arr 0 = d.entries (d.arr.take i) 0 ++
      (d.entry i elm ++ d.entries (d.arr.drop (i + 1)) (i + 1)) := by
    conv_lhs => rw [parts]
    rw [entries, List.zipIdx_append, List.flatMap_append, List.zipIdx_cons, List.flatMap_cons,
      List.length_take, Nat.min_eq_left (Nat.le_of_lt inside), Nat.zero_add]
    rfl
  rw [places, front, back, entry]
  by_cases generated : idName elm = none
  · simp [generated]
  · simp [generated]

private theorem address_ne_of_entry {j : Nat} {other : Json} (otherAt : d.arr[j]? = some other)
    (differs : j ≠ i) {obj : JsSymb} (inside : obj ∈ d.entry j other) :
    obj.address ≠ d.address i := by
  have own := (List.getElem?_eq_some_iff.mp at_).1
  have bound := (List.getElem?_eq_some_iff.mp otherAt).1
  rcases mem_entry.mp inside with rfl | content
  · exact fun same => differs (d.distinct j i bound own same)
  · exact d.freshContents i own j bound obj content

private theorem address_ne {obj : JsSymb} (inside : obj ∈ d.front i elm ++ d.back i elm) :
    obj.address ≠ (d.ownSymb i elm).address := by
  have own := (List.getElem?_eq_some_iff.mp at_).1
  rcases List.mem_append.mp inside with early | late
  · rcases List.mem_append.mp early with sooner | content
    · rcases List.mem_append.mp sooner with old | entered
      · exact d.freshBefore i own obj old
      · obtain ⟨j, other, -, there, inEntry⟩ := mem_entries.mp entered
        rw [Nat.sub_zero, List.getElem?_take] at there
        split at there
        · rename_i less
          exact address_ne_of_entry at_ there (Nat.ne_of_lt less) inEntry
        · cases there
    · split at content
      · exact d.freshContents i own i own obj content
      · cases content
  · rcases List.mem_append.mp late with content | entered
    · split at content
      · cases content
      · exact d.freshContents i own i own obj content
    · obtain ⟨j, other, more, there, inEntry⟩ := mem_entries.mp entered
      have place : i + 1 + (j - (i + 1)) = j := by omega
      rw [List.getElem?_drop, place] at there
      exact address_ne_of_entry at_ there (by omega) inEntry

/-- The name of an element is free when neither an earlier element nor another symbol put in
front has it. -/
theorem front_free_iff : (∀ obj ∈ d.front i elm, obj.jsIdName ≠ d.ownName i elm) ↔
    (∀ j other, j < i → d.arr[j]? = some other → d.ownName j other ≠ d.ownName i elm) ∧
      ∀ obj, (obj ∈ d.before ∨ ∃ j ≤ i, (j = i → idName elm = none) ∧ obj ∈ d.contents j) →
        obj.jsIdName ≠ d.ownName i elm := by
  have own := (List.getElem?_eq_some_iff.mp at_).1
  have early : ∀ {j other obj}, j < i → d.arr[j]? = some other → obj ∈ d.entry j other →
      obj ∈ d.front i elm := by
    intro j other obj less there inEntry
    apply List.mem_append_left
    apply List.mem_append_right
    rw [mem_entries]
    refine ⟨j, other, Nat.zero_le j, ?_, inEntry⟩
    rw [Nat.sub_zero, List.getElem?_take_of_lt less]
    exact there
  constructor
  · intro free
    refine ⟨fun j other less there => ?_, fun obj put => ?_⟩
    · exact free (d.ownSymb j other) (early less there (mem_entry.mpr (Or.inl rfl)))
    · apply free
      rcases put with old | ⟨j, upTo, unnamed, content⟩
      · exact List.mem_append_left _ (List.mem_append_left _ old)
      · rcases Nat.lt_or_eq_of_le upTo with less | rfl
        · have bound : j < d.arr.length := less.trans own
          exact early less (List.getElem?_eq_getElem bound) (mem_entry.mpr (Or.inr content))
        · apply List.mem_append_right
          rw [if_pos (unnamed rfl)]
          exact content
  · rintro ⟨elements, others⟩ obj inside
    rcases List.mem_append.mp inside with sooner | content
    · rcases List.mem_append.mp sooner with old | entered
      · exact others obj (Or.inl old)
      · obtain ⟨j, other, -, there, inEntry⟩ := mem_entries.mp entered
        rw [Nat.sub_zero, List.getElem?_take] at there
        split at there
        · rename_i less
          rcases mem_entry.mp inEntry with rfl | content
          · exact elements j other less there
          · exact others obj (Or.inr ⟨j, Nat.le_of_lt less, fun same => absurd same (by omega),
              content⟩)
        · cases there
    · split at content
      · rename_i unnamed
        exact others obj (Or.inr ⟨i, Nat.le_refl i, fun _ => unnamed, content⟩)
      · cases content

/-- The lookup of a name in the symbols after the decode. -/
theorem jsGetSymb_decoded_iff {id : CStr} :
    jsGetSymb (d.before ++ d.entries d.arr 0) id = some (d.address i) ↔
      d.ownName i elm = id ∧ ∀ obj ∈ d.front i elm, obj.jsIdName ≠ id := by
  rw [symbols_split at_]
  exact @jsGetSymb_eq_iff _ _ (d.ownSymb i elm) _ fun obj inside => address_ne at_ inside

/-- `js_kv_obj` finds the object of an element that is an object, or of a string that is its own
generated name, when that name is free. -/
theorem jsKvObj_decoded_iff (small : i < 2 ^ 31) :
    d.jsKvObj (d.before ++ d.entries d.arr 0) (toInt i) = some (d.address i) ↔
      (elm.isObject = true ∨ elm = .string (d.keyname i)) ∧
        ∀ obj ∈ d.front i elm, obj.jsIdName ≠ d.ownName i elm := by
  have here : d.jsKvObj (d.before ++ d.entries d.arr 0) (toInt i) =
      d.jsGetJson (d.before ++ d.entries d.arr 0) elm (toInt i) := by
    unfold jsKvObj
    rw [toInt_of_lt small, if_neg (Int.not_lt.mpr (Int.natCast_nonneg i)), Int.toNat_natCast, at_,
      Option.bind_some]
  rw [here]
  cases elm with
  | object members =>
      have name : d.jsGetJson (d.before ++ d.entries d.arr 0) (.object members) (toInt i) =
          jsGetSymb (d.before ++ d.entries d.arr 0) (d.ownName i (.object members)) := by
        cases named : idName (.object members) with
        | some id =>
            simp only [jsGetJson, ownName, named]
            rfl
        | none =>
            simp only [jsGetJson, ownName, named]
            rfl
      rw [name, jsGetSymb_decoded_iff at_]
      simp [Json.isObject]
  | string str =>
      have name : d.jsGetJson (d.before ++ d.entries d.arr 0) (.string str) (toInt i) =
          jsGetSymb (d.before ++ d.entries d.arr 0) str := rfl
      rw [name, jsGetSymb_decoded_iff at_]
      have generated : d.ownName i (.string str) = d.keyname i := rfl
      rw [generated]
      constructor
      · rintro ⟨rfl, free⟩
        exact ⟨Or.inr rfl, free⟩
      · rintro ⟨same, free⟩
        rcases same with noObject | own
        · cases noObject
        · cases own
          exact ⟨rfl, free⟩
  | _ => simp [jsGetJson, Json.isObject]

end Element

/-- The symbols after a decode that skips and aborts at nothing. -/
theorem decodeArray_eq (short : d.arr.length < 2 ^ 32)
    (all : ∀ elm ∈ d.arr, d.decodes elm = true ∧ (d.getAll && elm.isArray) = false) :
    d.decodeArray = some (d.before ++ d.entries d.arr 0) := by
  rw [decodeArray, if_pos short, decodeElements_eq all]

/-- `js_kv_obj` does not get to a place that is no `int`. -/
theorem FindsElements.short (finds : d.FindsElements) : d.arr.length ≤ 2 ^ 31 := by
  obtain ⟨symbols, -, found⟩ := finds
  by_contra long
  have inside : 2 ^ 31 < d.arr.length := Nat.lt_of_not_le long
  have lost := (found (2 ^ 31) _ (List.getElem?_eq_getElem inside)).2
  have negative : toInt (2 ^ 31) < 0 := by decide
  rw [jsKvObj, if_pos negative] at lost
  cases lost

theorem FindsElements.all (finds : d.FindsElements) :
    ∀ elm ∈ d.arr, d.decodes elm = true ∧ (d.getAll && elm.isArray) = false := by
  obtain ⟨symbols, ended, found⟩ := finds
  intro elm inside
  obtain ⟨i, at_⟩ := List.mem_iff_getElem?.mp inside
  have decoded := (found i elm at_).1
  unfold decodeArray at ended
  split at ended
  · exact ⟨decoded, goes_of_decodeElements ended elm inside decoded⟩
  · cases ended

/-- What is returned for each element, by the symbols after the decode. -/
theorem FindsElements.elements (finds : d.FindsElements) {i : Nat} {elm : Json}
    (at_ : d.arr[i]? = some elm) :
    (elm.isObject = true ∨ elm = .string (d.keyname i)) ∧
      ∀ obj ∈ d.front i elm, obj.jsIdName ≠ d.ownName i elm := by
  have short := finds.short
  have ended := decodeArray_eq (d := d) (by omega) finds.all
  obtain ⟨symbols, same, found⟩ := finds
  rw [ended, Option.some_inj] at same
  subst same
  have inside := (List.getElem?_eq_some_iff.mp at_).1
  exact (jsKvObj_decoded_iff at_ (by omega)).mp (found i elm at_).2

/-- Elements that are found have names of their own. -/
theorem FindsElements.names_ne (finds : d.FindsElements) {i j : Nat} {own other : Json}
    (before : j < i) (at_ : d.arr[i]? = some own) (otherAt : d.arr[j]? = some other) :
    d.ownName j other ≠ d.ownName i own :=
  ((front_free_iff at_).mp (finds.elements at_).2).1 j other before otherAt

/-- **Names of decoded array elements.** `js_kv_obj` returns the object of every element exactly
where all elements have names of their own and the lookup makes the same ones. -/
theorem findsElements_iff (d : ArrayDecode) : d.FindsElements ↔ d.NamesApart := by
  constructor
  · intro finds
    have short := finds.short
    constructor
    · exact short
    · intro i elm at_
      rcases (finds.elements at_).1 with object | same
      · exact Or.inl object
      · refine Or.inr ⟨?_, same⟩
        have decoded := (finds.all elm (List.mem_of_getElem? at_)).1
        subst same
        simpa [decodes, Json.isObject, Json.isArray] using decoded
    · intro i j own other before at_ otherAt
      have inside := (List.getElem?_eq_some_iff.mp at_).1
      exact (apart_iff (by omega) before).mpr (finds.names_ne before at_ otherAt)
    · intro i elm at_
      exact ((front_free_iff at_).mp (finds.elements at_).2).2
  · rintro ⟨short, named, apart, free⟩
    have all : ∀ elm ∈ d.arr, d.decodes elm = true ∧ (d.getAll && elm.isArray) = false := by
      intro elm inside
      obtain ⟨i, at_⟩ := List.mem_iff_getElem?.mp inside
      rcases named i elm at_ with object | ⟨nested, same⟩
      · cases elm with
        | object members => simp [decodes, Json.isObject, Json.isArray]
        | _ => cases object
      · simp [decodes, nested]
    refine ⟨_, decodeArray_eq (by omega) all, fun i elm at_ => ?_⟩
    have inside := (List.getElem?_eq_some_iff.mp at_).1
    refine ⟨(all elm (List.mem_of_getElem? at_)).1, ?_⟩
    rw [jsKvObj_decoded_iff at_ (by omega), front_free_iff at_]
    refine ⟨(named i elm at_).imp_right And.right, ?_, free i elm at_⟩
    exact fun j other before otherAt =>
      (apart_iff (by omega) before).mp (apart i j elm other before at_ otherAt)

/-- An array of `1001` objects without an `idName`, decoded for a parent at `0x55d0c8a2b2c0`. -/
def thousandOne : ArrayDecode where
  percentP := fun _ => ⟨[48#8, 120#8, 53#8, 53#8, 100#8, 48#8, 99#8, 56#8, 97#8, 50#8, 98#8, 50#8,
    99#8, 48#8], by decide⟩
  getAll := false
  parent := 0x55d0c8a2b2c0
  key := ⟨[107#8], by decide⟩
  arr := List.replicate 1001 (.object [])
  before := []
  contents := fun _ => []
  address := fun i => i + 1
  distinct := fun _ _ _ _ same => Nat.succ.inj same
  freshBefore := fun _ _ _ inside => (List.not_mem_nil inside).elim
  freshContents := fun _ _ _ _ _ inside => (List.not_mem_nil inside).elim

/-- The places `100` and `1000` have one name. -/
theorem jsKvObj_confuses_elements : ¬ thousandOne.FindsElements := by
  intro finds
  have at_ : thousandOne.arr[1000]? = some (.object []) := List.getElem?_replicate_of_lt (by decide)
  have otherAt : thousandOne.arr[100]? = some (.object []) :=
    List.getElem?_replicate_of_lt (by decide)
  apply finds.names_ne (by decide) at_ otherAt
  decide

end ArrayDecode

end JsNames

end Tvntd
