import Tvntd.Cpptype.Object
import Tvntd.Lib.Arrays
import Tvntd.Lib.Machine
import Mathlib.Algebra.Group.Nat.Defs
import Mathlib.Algebra.Group.Int.Defs

/-! # Outputs

The setters of `JsOutput`, of `json/json-out.cpp`: a string, an array of numbers
and an array of strings, the arrays with their lengths in fields of their own.

An output owns its arrays. The heaps are those of the program, which hands over
arrays of its own; a string that is freed is not of interest here.
-/

namespace Tvntd

open Arrays

/-- The fields, with the arrays of numbers and of strings. Of `out_str` it is the length that
counts; the others are addresses. A string is its address, zero where it is null. -/
structure JsOutput where
  outStr : Option Nat
  outStrArr : Option Nat
  outInts : Option Nat
  outArrSize : BitVec 32
  outStrArrSize : BitVec 32
  numbers : Heap (BitVec 64)
  strings : Heap Nat

namespace JsOutput

def create (numbers : Heap (BitVec 64)) (strings : Heap Nat) : JsOutput :=
  ⟨none, none, none, 0, 0, numbers, strings⟩

/-! ## Setters

`none` is a failed assertion, or an access outside of an array. -/

def outPutNum (self : JsOutput) (num : BitVec 64) (idx : BitVec 32) : Option JsOutput :=
  if idx < self.outArrSize ∧ self.outArrSize > 0 then
    self.outInts.bind fun outInts =>
      (write self.numbers outInts idx.toNat num).map fun numbers => { self with numbers := numbers }
  else some self

def outSetNumArr (self : JsOutput) (arr : Option Nat) (size : BitVec 32) : Option JsOutput :=
  match arr with
  | none => some { self with outInts := none, outArrSize := 0 }
  | some arr =>
      (release self.numbers self.outInts).map fun numbers =>
        { self with outInts := some arr, outArrSize := size, numbers := numbers }

/-- The array is allocated at `fresh`. -/
def outPutNumArr (self : JsOutput) (size : BitVec 32) (num : BitVec 64) (idx : BitVec 32)
    (fresh : Nat) : Option JsOutput :=
  (release self.numbers self.outInts).bind fun numbers =>
    if size > idx then
      let numbers := put numbers fresh (List.replicate size.toNat none)
      (write numbers fresh idx.toNat num).map fun numbers =>
        { self with outInts := some fresh, outArrSize := size, numbers := numbers }
    else none

def outNewStr (self : JsOutput) (size : Nat) : JsOutput := { self with outStr := some size }

def outSetStr (self : JsOutput) (str : Option Nat) : JsOutput := { self with outStr := str }

/-- `strcpy` copies the terminator too. -/
def outPutStr (self : JsOutput) (str : CStr) : Option JsOutput :=
  let self := self.outNewStr str.bytes.length
  self.outStr.bind fun size => if str.bytes.length + 1 ≤ size then some self else none

/-- The array is allocated at `fresh`, and `memset` makes its strings null. -/
def outNewStrArr (self : JsOutput) (elm fresh : Nat) : Option JsOutput :=
  (release self.strings self.outStrArr).map fun strings =>
    { self with
      outStrArr := some fresh
      strings := put strings fresh (List.replicate elm (some 0)) }

def outSetStrArr (self : JsOutput) (str : Option Nat) (size : BitVec 32) : Option JsOutput :=
  match str with
  | none => some { self with outStrArr := none, outStrArrSize := 0 }
  | some str =>
      (release self.strings self.outStrArr).map fun strings =>
        { self with outStrArr := some str, outStrArrSize := size, strings := strings }

/-- The index is an `int`, compared without its sign. -/
def outPutStrArr (self : JsOutput) (str : Nat) (idx : BitVec 32) : Option JsOutput :=
  self.outStrArr.bind fun outStrArr =>
    if idx < self.outStrArrSize ∧ 0 ≤ idx.toInt then
      -- the string that is there is freed
      (read self.strings outStrArr idx.toNat).bind fun _ =>
        (write self.strings outStrArr idx.toNat str).map fun strings =>
          { self with strings := strings }
    else none

/-- The indices of the destructor's loop. Behind the largest `int` comes the least, where its read
is outside of any array. -/
def dtorIndices (size : BitVec 32) : List Int :=
  if size.toNat ≤ 2 ^ 31 then (List.range size.toNat).map Int.ofNat
  else (List.range (2 ^ 31)).map Int.ofNat ++ [-2 ^ 31]

/-- `out_str_arr[i]` -/
def readIndex (strings : Heap Nat) (outStrArr : Nat) (i : Int) : Option Nat :=
  if i < 0 then none else read strings outStrArr i.toNat

/-! ## Runs -/

inductive Op where
  | outPutNum (num : BitVec 64) (idx : BitVec 32)
  | outSetNumArr (arr : Option Nat) (size : BitVec 32)
  | outPutNumArr (size : BitVec 32) (num : BitVec 64) (idx : BitVec 32) (fresh : Nat)
  | outPutStr (str : CStr)
  | outSetStr (str : Option Nat)
  | outNewStr (size : Nat)
  | outNewStrArr (elm fresh : Nat)
  | outSetStrArr (str : Option Nat) (size : BitVec 32)
  | outPutStrArr (str : Nat) (idx : BitVec 32)

def apply (self : JsOutput) : Op → Option JsOutput
  | .outPutNum num idx => self.outPutNum num idx
  | .outSetNumArr arr size => self.outSetNumArr arr size
  | .outPutNumArr size num idx fresh => self.outPutNumArr size num idx fresh
  | .outPutStr str => self.outPutStr str
  | .outSetStr str => some (self.outSetStr str)
  | .outNewStr size => some (self.outNewStr size)
  | .outNewStrArr elm fresh => self.outNewStrArr elm fresh
  | .outSetStrArr str size => self.outSetStrArr str size
  | .outPutStrArr str idx => self.outPutStrArr str idx

def machine : Machine JsOutput Op Unit := ⟨fun self op => (self.apply op).map (·, ())⟩

/-- Sizes are truthful, and indices below the length of the array. An `int` counts the strings. -/
def Legal (self : JsOutput) : Op → Prop
  | .outSetNumArr (some arr) size => Owns self.numbers (some arr) size.toNat
  | .outPutNumArr size _ idx _ => idx < size
  | .outNewStrArr elm _ => elm < 2 ^ 31
  | .outSetStrArr (some str) size => Owns self.strings (some str) size.toNat
  | .outPutStrArr _ idx =>
      ∃ length, Owns self.strings self.outStrArr length ∧ idx.toNat < length
  | _ => True

/-- The recorded sizes are those of the arrays, and the destructor reads strings that were
written. -/
structure Right (output : JsOutput) : Prop where
  numbersSize : Owns output.numbers output.outInts output.outArrSize.toNat
  stringsSize : Owns output.strings output.outStrArr output.outStrArrSize.toNat
  destroyed : ∀ outStrArr, output.outStrArr = some outStrArr →
    ∀ i ∈ dtorIndices output.outStrArrSize, ∃ str, readIndex output.strings outStrArr i = some str

/-- The entries up to a size were written, and an `int` counts them. -/
def Initialised (strings : Heap Nat) (outStrArr : Nat) (size : BitVec 32) : Prop :=
  size.toNat ≤ 2 ^ 31 ∧ ∀ idx < size.toNat, ∃ str, read strings outStrArr idx = some str

/-- No string is copied; a new array of strings is as long as the old one; and an array that is
handed over is another than the one that is held, and its strings were written. -/
def Spared (self : JsOutput) : Op → Prop
  | .outSetNumArr (some arr) _ => self.outInts ≠ some arr
  | .outPutStr _ => False
  | .outNewStrArr elm _ => elm = self.outStrArrSize.toNat
  | .outSetStrArr (some str) size =>
      self.outStrArr ≠ some str ∧ Initialised self.strings str size
  | _ => True

private theorem initialised_iff (strings : Heap Nat) (outStrArr : Nat) (size : BitVec 32) :
    (∀ i ∈ dtorIndices size, ∃ str, readIndex strings outStrArr i = some str) ↔
      Initialised strings outStrArr size := by
  unfold dtorIndices Initialised
  by_cases small : size.toNat ≤ 2 ^ 31
  · rw [if_pos small, and_iff_right small]
    simp only [List.mem_map, List.mem_range, forall_exists_index, and_imp]
    constructor
    · intro all idx inside
      obtain ⟨str, there⟩ := all _ idx inside rfl
      exact ⟨str, there⟩
    · rintro all _ idx inside rfl
      exact all idx inside
  · rw [if_neg small]
    refine iff_of_false ?_ fun both => small both.1
    intro all
    obtain ⟨str, there⟩ := all (-2 ^ 31) (List.mem_append_right _ List.mem_cons_self)
    cases there

variable {self next : JsOutput}

private theorem Right.initialised (right : self.Right) {outStrArr : Nat}
    (held : self.outStrArr = some outStrArr) :
    Initialised self.strings outStrArr self.outStrArrSize :=
  (initialised_iff _ _ _).mp (right.destroyed outStrArr held)

private theorem right_create (numbers : Heap (BitVec 64)) (strings : Heap Nat) :
    (create numbers strings).Right where
  numbersSize := rfl
  stringsSize := rfl
  destroyed := fun _ none => nomatch none

/-! ### The numbers -/

private theorem Right.outPutNum (right : self.Right) (num : BitVec 64) (idx : BitVec 32) :
    ∃ next, self.outPutNum num idx = some next ∧ next.Right := by
  unfold JsOutput.outPutNum
  split
  · rename_i inside
    cases held : self.outInts with
    | none =>
        have size := right.numbersSize
        rw [held] at size
        have small := BitVec.lt_def.mp inside.1
        exact absurd (show self.outArrSize.toNat = 0 from size) (by omega)
    | some outInts =>
        obtain ⟨numbers, wrote, owns⟩ :=
          (held ▸ right.numbersSize).write (BitVec.lt_def.mp inside.1) num
        refine ⟨{ self with numbers := numbers }, ?_, ?_, right.stringsSize, right.destroyed⟩
        · rw [Option.bind_some, wrote, ← held]
          rfl
        · rw [held]
          exact owns
  · exact ⟨self, rfl, right⟩

private theorem Right.outPutNumArr (right : self.Right) {size idx : BitVec 32} (below : idx < size)
    (num : BitVec 64) (fresh : Nat) :
    ∃ next, self.outPutNumArr size num idx fresh = some next ∧ next.Right := by
  obtain ⟨numbers, released, -, -⟩ := right.numbersSize.release
  have owns : Owns (put numbers fresh (List.replicate size.toNat none)) (some fresh) size.toNat :=
    (owns_some_iff put_same).mpr List.length_replicate
  obtain ⟨wrote, written, still⟩ := owns.write (BitVec.lt_def.mp below) num
  refine ⟨{ self with outInts := some fresh, outArrSize := size, numbers := wrote }, ?_, still,
    right.stringsSize, right.destroyed⟩
  rw [JsOutput.outPutNumArr, released, Option.bind_some, if_pos below]
  simp only [written, Option.map_some]

private theorem Right.outSetNumArr_none (right : self.Right) (size : BitVec 32) :
    ∃ next, self.outSetNumArr none size = some next ∧ next.Right :=
  ⟨_, rfl, rfl, right.stringsSize, right.destroyed⟩

/-- The array that is handed over is kept if it is not the one that is freed. -/
theorem Right.outSetNumArr (right : self.Right) {arr : Nat} {size : BitVec 32}
    (truthful : Owns self.numbers (some arr) size.toNat) :
    ∃ next, self.outSetNumArr (some arr) size = some next ∧
      (self.outInts ≠ some arr → next.Right) ∧ (self.outInts = some arr → ¬ next.Right) := by
  obtain ⟨numbers, released, freed, kept⟩ := right.numbersSize.release
  refine ⟨{ self with outInts := some arr, outArrSize := size, numbers := numbers }, ?_, ?_, ?_⟩
  · rw [JsOutput.outSetNumArr, released]
    rfl
  · intro other
    refine ⟨?_, right.stringsSize, right.destroyed⟩
    obtain ⟨entries, there, length⟩ := truthful
    exact ⟨entries, (kept arr other).trans there, length⟩
  · intro same wrong
    obtain ⟨entries, there, -⟩ := wrong.numbersSize
    exact absurd ((freed arr same).symm.trans there) (fun none => nomatch none)

/-! ### The strings -/

private theorem outPutStr_fails (self : JsOutput) (str : CStr) : self.outPutStr str = none :=
  if_neg (Nat.not_succ_le_self _)

private theorem Right.outSetStrArr_none (right : self.Right) (size : BitVec 32) :
    ∃ next, self.outSetStrArr none size = some next ∧ next.Right :=
  ⟨_, rfl, right.numbersSize, rfl, fun _ none => nomatch none⟩

/-- The array that is handed over is kept if it is not the one that is freed, and then its strings
are those that the destructor reads. -/
theorem Right.outSetStrArr (right : self.Right) {str : Nat} {size : BitVec 32}
    (truthful : Owns self.strings (some str) size.toNat) :
    ∃ next, self.outSetStrArr (some str) size = some next ∧
      (next.Right ↔ self.outStrArr ≠ some str ∧ Initialised self.strings str size) := by
  obtain ⟨strings, released, freed, kept⟩ := right.stringsSize.release
  refine ⟨{ self with outStrArr := some str, outStrArrSize := size, strings := strings }, ?_, ?_⟩
  · rw [JsOutput.outSetStrArr, released]
    rfl
  by_cases same : self.outStrArr = some str
  · refine iff_of_false (fun wrong => ?_) fun other => other.1 same
    obtain ⟨entries, there, -⟩ := wrong.stringsSize
    exact absurd ((freed str same).symm.trans there) (fun none => nomatch none)
  · have own := kept str same
    have reads : ∀ idx, Arrays.read strings str idx = Arrays.read self.strings str idx := by
      intro idx
      rw [Arrays.read, Arrays.read, own]
    constructor
    · intro still
      refine ⟨same, ?_⟩
      have initialised := still.initialised rfl
      simp only [Initialised, reads] at initialised
      exact initialised
    · rintro ⟨-, initialised⟩
      refine ⟨right.numbersSize, ?_, ?_⟩
      · obtain ⟨entries, there, length⟩ := truthful
        exact ⟨entries, own.trans there, length⟩
      · intro outStrArr held
        cases held
        rw [initialised_iff]
        simp only [Initialised, reads]
        exact initialised

/-- A new array is kept if it is as long as the size that stays behind. -/
theorem Right.outNewStrArr (right : self.Right) {elm : Nat} (small : elm < 2 ^ 31) (fresh : Nat) :
    ∃ next, self.outNewStrArr elm fresh = some next ∧
      (next.Right ↔ elm = self.outStrArrSize.toNat) := by
  obtain ⟨strings, released, -, -⟩ := right.stringsSize.release
  refine ⟨{ self with
    outStrArr := some fresh
    strings := put strings fresh (List.replicate elm (some 0)) }, ?_, ?_⟩
  · rw [JsOutput.outNewStrArr, released]
    rfl
  constructor
  · intro still
    have length := (owns_some_iff put_same).mp still.stringsSize
    rwa [List.length_replicate] at length
  · intro same
    refine ⟨right.numbersSize, ?_, ?_⟩
    · exact (owns_some_iff put_same).mpr (List.length_replicate.trans same)
    · intro outStrArr held
      cases held
      rw [initialised_iff]
      refine ⟨same ▸ Nat.le_of_lt small, fun idx inside => ⟨0, read_put.trans ?_⟩⟩
      have low : idx < elm := same ▸ inside
      rw [List.getElem?_replicate_of_lt low]
      rfl

private theorem Right.outPutStrArr (right : self.Right) {str length : Nat} {idx : BitVec 32}
    (owns : Owns self.strings self.outStrArr length) (below : idx.toNat < length) :
    ∃ next, self.outPutStrArr str idx = some next ∧ next.Right := by
  cases held : self.outStrArr with
  | none =>
      rw [held] at owns
      exact absurd (show length = 0 from owns) (by omega)
  | some outStrArr =>
      have size : length = self.outStrArrSize.toNat := by
        obtain ⟨entries, there, rfl⟩ := held ▸ owns
        exact (owns_some_iff there).mp (held ▸ right.stringsSize)
      obtain ⟨small, initialised⟩ := right.initialised held
      rw [size] at below
      have nonneg : 0 ≤ idx.toInt := by
        rw [BitVec.toInt_eq_toNat_of_lt (by omega)]
        exact Int.natCast_nonneg _
      obtain ⟨old, found⟩ := initialised idx.toNat below
      obtain ⟨strings, wrote, still⟩ := (held ▸ right.stringsSize).write below str
      refine ⟨{ self with strings := strings }, ?_, right.numbersSize, ?_, ?_⟩
      · rw [JsOutput.outPutStrArr, held, Option.bind_some, if_pos ⟨below, nonneg⟩, found,
          Option.bind_some, wrote, ← held]
        rfl
      · rw [held]
        exact still
      · intro other same
        have own : other = outStrArr := Option.some.inj (same.symm.trans held)
        rw [own, initialised_iff]
        refine ⟨small, fun i inside => ?_⟩
        rw [read_write wrote]
        split
        · exact ⟨str, rfl⟩
        · exact initialised i inside

/-! ### The setters -/

/-- **One call.** It ends, and leaves everything right, exactly if it is spared. -/
theorem Right.apply (right : self.Right) {op : Op} (legal : self.Legal op) :
    (self.Spared op ∧ ∃ next, self.apply op = some next ∧ next.Right) ∨
      ¬ self.Spared op ∧ ∀ next, self.apply op = some next → ¬ next.Right := by
  cases op with
  | outPutNum num idx => exact Or.inl ⟨trivial, right.outPutNum num idx⟩
  | outSetNumArr arr size =>
      cases arr with
      | none => exact Or.inl ⟨trivial, right.outSetNumArr_none size⟩
      | some arr =>
          obtain ⟨next, set, kept, freed⟩ := right.outSetNumArr legal
          by_cases same : self.outInts = some arr
          · refine Or.inr ⟨fun other => other same, fun other again => ?_⟩
            rw [← Option.some.inj (set.symm.trans again)]
            exact freed same
          · exact Or.inl ⟨same, next, set, kept same⟩
  | outPutNumArr size num idx fresh =>
      exact Or.inl ⟨trivial, right.outPutNumArr legal num fresh⟩
  | outPutStr str =>
      refine Or.inr ⟨id, fun next put => ?_⟩
      exact absurd ((outPutStr_fails self str).symm.trans put) (fun none => nomatch none)
  | outSetStr str => exact Or.inl ⟨trivial, _, rfl, right.1, right.2, right.3⟩
  | outNewStr size => exact Or.inl ⟨trivial, _, rfl, right.1, right.2, right.3⟩
  | outNewStrArr elm fresh =>
      obtain ⟨next, made, iff⟩ := right.outNewStrArr legal fresh
      by_cases same : elm = self.outStrArrSize.toNat
      · exact Or.inl ⟨same, next, made, iff.mpr same⟩
      · refine Or.inr ⟨same, fun other again wrong => same (iff.mp ?_)⟩
        rwa [← Option.some.inj (made.symm.trans again)] at wrong
  | outSetStrArr str size =>
      cases str with
      | none => exact Or.inl ⟨trivial, right.outSetStrArr_none size⟩
      | some str =>
          obtain ⟨next, set, iff⟩ := right.outSetStrArr legal
          by_cases spared : self.Spared (.outSetStrArr (some str) size)
          · exact Or.inl ⟨spared, next, set, iff.mpr spared⟩
          · refine Or.inr ⟨spared, fun other again wrong => spared (iff.mp ?_)⟩
            rwa [← Option.some.inj (set.symm.trans again)] at wrong
  | outPutStrArr str idx =>
      obtain ⟨length, owns, below⟩ := legal
      exact Or.inl ⟨trivial, right.outPutStrArr owns below⟩

theorem step_machine (self : JsOutput) (op : Op) (next : JsOutput) (output : Unit) :
    machine.step self op = some (next, output) ↔ self.apply op = some next := by
  change (self.apply op).map (·, ()) = _ ↔ _
  simp

/-- **The setters, in every order.** Sizes and arrays agree, every access is in its array and no
assertion fails along a run exactly when all its calls are spared. -/
theorem always_right_iff_spared (numbers : Heap (BitVec 64)) (strings : Heap Nat) {ops : List Op}
    (legal : machine.Meets Legal (create numbers strings) ops) :
    machine.Always Right (create numbers strings) ops ↔
      machine.Meets Spared (create numbers strings) ops := by
  refine Machine.always_iff_meets (fun _ right => right) ?_ ?_ (right_create numbers strings) legal
  · intro self op right legal spared
    rcases right.apply legal with ⟨-, next, applied, still⟩ | ⟨harmed, -⟩
    · exact ⟨next, (), (step_machine self op next ()).mpr applied, still⟩
    · exact absurd spared harmed
  · intro self op next output right legal harmed stepped
    rcases right.apply legal with ⟨spared, -⟩ | ⟨-, wrong⟩
    · exact absurd spared harmed
    · exact wrong next ((step_machine self op next output).mp stepped)

section Calls

/-- Two numbers, and an array of no strings. -/
def calls : List Op := [.outPutNumArr 2 5 1 10, .outPutNum 7 0, .outNewStrArr 0 20]

theorem always_right_iff_spared_calls :
    machine.Always Right (create (fun _ => none) fun _ => none) calls := by
  refine (always_right_iff_spared (fun _ => none) (fun _ => none) ?_).mpr ?_
  · have below : (1 : BitVec 32) < 2 := by decide
    have small : 0 < 2 ^ 31 := by decide
    exact ⟨below, fun _ _ _ => ⟨trivial, fun _ _ _ => ⟨small, fun _ _ _ => trivial⟩⟩⟩
  · refine ⟨trivial, ?_⟩
    intro first _ stepped
    cases stepped
    refine ⟨trivial, ?_⟩
    intro second _ stepped
    cases stepped
    exact ⟨rfl, fun _ _ _ => trivial⟩

/-- A string of one byte is copied, and an array of one string is made. -/
theorem string_not_right :
    ¬ machine.Always Right (create (fun _ => none) fun _ => none) [.outPutStr ⟨[97], by decide⟩] ∧
      ¬ machine.Always Right (create (fun _ => none) fun _ => none) [.outNewStrArr 1 20] := by
  constructor
  · rintro ⟨-, next, output, stepped, -⟩
    cases stepped
  · rintro ⟨-, next, output, stepped, right⟩
    cases stepped
    have length := (owns_some_iff put_same).mp right.here.stringsSize
    exact absurd length (by decide)

end Calls

end JsOutput

end Tvntd
