import Tvntd.Cpptype.Object
import Tvntd.Di.Lifecycle
import Tvntd.Lib.Numerals
import Tvntd.Lib.Printing

/-! # The description of a program

`Program::to_string` prints the arguments of the program and the tree of its
modules, a line for each, into a buffer. Each level prints into what the levels
above it left of the buffer, and stops as soon as a part does not fit. The lengths
are of type `size_t`; what `snprintf` returns is taken for any number.
-/

namespace Tvntd

open Bytewise (Bytes)
open Numerals Printing

/-- An integer, filled with zeros up to a width. -/
def percent0d (width : Nat) (value : Int) : List Byte :=
  let minus := if value < 0 then ascii "-" else []
  let digits := decimal value.natAbs
  minus ++ (List.replicate (width - (minus.length + digits.length)) 48#8 ++ digits)

/-- What is printed of a module. -/
structure ModInfo where
  address : BitVec 64
  mNrLock : Int
  mNrQueue : Int
  objKeystr : CStr

namespace ModulePtr

/-- The line of a module. -/
def line (mod : ModInfo) (mDepCnt : Nat) : List Byte :=
  ascii "\tModule 0x" ++ hexadecimal mod.address.toNat ++ ascii " [" ++ percent0d 3 mDepCnt ++
    ascii ", nr_lock " ++ percent0d 2 mod.mNrLock ++ ascii ", nr_queue " ++
    percent0d 2 mod.mNrQueue ++ ascii "] " ++ mod.objKeystr.bytes ++ ascii "\n"

/-- `Module::to_string`; the `m_dep_cnt` slots of a module are those of its array. -/
def toString : ModulePtr ModInfo → Bytes → Nat → BitVec 64 → BitVec 64 × Bytes
  | .null, mem, _, _ => (0, mem)
  | .leaf mod, mem, str, len =>
      let (off, mem) := snprintf mem str len.toNat (line mod 0)
      if len.toNat ≤ off then (len, mem) else (BitVec.ofNat 64 off, mem)
  | .parent mod depIdx, mem, str, len =>
      let (off, mem) := snprintf mem str len.toNat (line mod depIdx.length)
      if len.toNat ≤ off then (len, mem) else depsToString depIdx mem str len (BitVec.ofNat 64 off)
where
  depsToString : List (ModulePtr ModInfo) → Bytes → Nat → BitVec 64 → BitVec 64 → BitVec 64 × Bytes
    | [], mem, _, _, off => (off, mem)
    | dep :: rest, mem, str, len, off =>
        if dep.mod?.isNone then depsToString rest mem str len off
        else
          let lim := len - off
          let (ret, mem) := toString dep mem (str + off.toNat) lim
          let off := off + ret
          if lim ≤ ret then (len, mem) else depsToString rest mem str len off

/-- The lines of a tree, every module before those below it. -/
def text : ModulePtr ModInfo → List Byte
  | .null => []
  | .leaf mod => line mod 0
  | .parent mod depIdx => line mod depIdx.length ++ textOf depIdx
where
  textOf : List (ModulePtr ModInfo) → List Byte
    | [] => []
    | dep :: rest => text dep ++ textOf rest

private theorem text_of_isNone : ∀ {dep : ModulePtr ModInfo}, dep.mod?.isNone = true → dep.text = []
  | .null, _ => rfl

/-- The loop over the slots, behind a text that has room. -/
def PrintsDeps (deps : List (ModulePtr ModInfo)) : Prop :=
  ∀ {mem now : Bytes} {str : Nat} {len off : BitVec 64} {before : List Byte},
    Upto mem str len before off now → now = store mem str (written len.toNat before) →
      Ends (toString.depsToString deps now str len off) mem str len (before ++ text.textOf deps)

private theorem printsDeps_nil : PrintsDeps [] := by
  intro mem now str len off before upto there
  rw [toString.depsToString, text.textOf, List.append_nil]
  exact ⟨upto.counted.trans (Nat.min_eq_right upto.room).symm, there⟩

private theorem printsDeps_cons {dep : ModulePtr ModInfo} {rest : List (ModulePtr ModInfo)}
    (own : dep.mod?.isSome = true → Prints dep.toString dep.text) (later : PrintsDeps rest) :
    PrintsDeps (dep :: rest) := by
  intro mem now str len off before upto there
  rw [toString.depsToString, text.textOf]
  by_cases empty : dep.mod?.isNone = true
  · rw [if_pos empty, text_of_isNone empty, List.nil_append]
    exact later upto there
  · have present : dep.mod?.isSome = true := by
      cases slot : dep.mod? with
      | none => exact (empty (slot ▸ rfl)).elim
      | some mod => rfl
    obtain ⟨ret, put⟩ := own present now (str + off.toNat) (len - off)
    rw [if_neg empty]
    dsimp only
    by_cases full : (len - off).toNat ≤ dep.text.length
    · obtain ⟨longer, last⟩ := upto.last full (text.textOf rest)
      rw [Nat.min_eq_left full] at ret
      rw [if_pos (BitVec.le_def.mpr (Nat.le_of_eq ret.symm))]
      exact ⟨(Nat.min_eq_left longer).symm, put.trans last⟩
    · have fits := Nat.lt_of_not_le full
      rw [Nat.min_eq_right (Nat.le_of_lt fits)] at ret
      have before_ := ret ▸ fits
      have next := upto.next ret before_
      rw [if_neg (fun longer => Nat.not_le.mpr before_ (BitVec.le_def.mp longer)), put,
        ← List.append_assoc]
      exact later next upto.part

private theorem toString_parent (mod : ModInfo) (depIdx : List (ModulePtr ModInfo)) (mem : Bytes)
    (str : Nat) (len : BitVec 64) :
    (parent mod depIdx).toString mem str len =
      if len.toNat ≤ (line mod depIdx.length).length then
        (len, store mem str (written len.toNat (line mod depIdx.length)))
      else
        toString.depsToString depIdx (store mem str (written len.toNat (line mod depIdx.length)))
          str len (BitVec.ofNat 64 (line mod depIdx.length).length) := by
  rw [toString]
  rfl

/-- The line of a module, and what its slots hold. -/
theorem prints_parent (mod : ModInfo) {depIdx : List (ModulePtr ModInfo)}
    (deps : PrintsDeps depIdx) :
    Prints (parent mod depIdx).toString (parent mod depIdx).text := by
  intro mem str len
  rw [toString_parent, text]
  by_cases full : len.toNat ≤ (line mod depIdx.length).length
  · rw [if_pos full, Ends, written_of_le full, List.length_append]
    exact ⟨(Nat.min_eq_left (Nat.le_trans full (Nat.le_add_right _ _))).symm, rfl⟩
  · rw [if_neg full]
    exact deps (Upto.first (Nat.lt_of_not_le full)) rfl

private theorem prints_leaf (mod : ModInfo) : Prints (leaf mod).toString (leaf mod).text := by
  have alone := prints_parent mod printsDeps_nil
  rw [text, text.textOf, List.append_nil] at alone
  exact alone

mutual

/-- **A module prints its tree.** -/
theorem prints_toString : ∀ mod : ModulePtr ModInfo, mod.mod?.isSome = true →
    Prints mod.toString mod.text
  | .leaf mod, _ => prints_leaf mod
  | .parent mod depIdx, _ => prints_parent mod (printsDeps depIdx)

private theorem printsDeps : ∀ deps : List (ModulePtr ModInfo), PrintsDeps deps
  | [] => printsDeps_nil
  | dep :: rest => printsDeps_cons (prints_toString dep) (printsDeps rest)

end

end ModulePtr

/-- A program with its arguments and its module. -/
structure Program where
  pArgv : List CStr
  pModule : ModulePtr ModInfo
  loaded : pModule.mod?.isSome = true

namespace Program

/-- What is left to do behind the arguments. -/
def modulesToString (self : Program) (mem : Bytes) (str : Nat) (len off : BitVec 64) :
    BitVec 64 × Bytes :=
  let lim := len - off
  let (ret, mem) := snprintf mem (str + off.toNat) lim.toNat (ascii "\nModule list\n")
  let off := off + BitVec.ofNat 64 ret
  if lim.toNat ≤ ret then (len, mem)
  else
    let (ret, mem) := self.pModule.toString mem (str + off.toNat) (len - off)
    (off + ret, mem)

/-- The loop over the arguments, and what follows it. -/
def argsToString (self : Program) :
    List CStr → Bytes → Nat → BitVec 64 → BitVec 64 → BitVec 64 × Bytes
  | [], mem, str, len, off => self.modulesToString mem str len off
  | arg :: rest, mem, str, len, off =>
      let lim := len - off
      let (ret, mem) := snprintf mem (str + off.toNat) lim.toNat (arg.bytes ++ ascii " ")
      let off := off + BitVec.ofNat 64 ret
      if lim.toNat ≤ ret then (len, mem) else argsToString self rest mem str len off

/-- `Program::to_string` -/
def toString (self : Program) (mem : Bytes) (str : Nat) (len : BitVec 64) : BitVec 64 × Bytes :=
  self.argsToString self.pArgv mem str len 0

def text (self : Program) : List Byte :=
  self.pArgv.flatMap (fun arg => arg.bytes ++ ascii " ") ++
    (ascii "\nModule list\n" ++ self.pModule.text)

private theorem ends_modules (self : Program) {mem now : Bytes} {str : Nat} {len off : BitVec 64}
    {before : List Byte} (upto : Upto mem str len before off now) :
    Ends (self.modulesToString now str len off) mem str len
      (before ++ (ascii "\nModule list\n" ++ self.pModule.text)) := by
  exact upto.check fun next => next.finish (ModulePtr.prints_toString self.pModule self.loaded)

private theorem ends_args (self : Program) (args : List CStr) : ∀ {mem now : Bytes} {str : Nat}
    {len off : BitVec 64} {before : List Byte}, Upto mem str len before off now →
    Ends (self.argsToString args now str len off) mem str len
      (before ++ (args.flatMap (fun arg => arg.bytes ++ ascii " ") ++
        (ascii "\nModule list\n" ++ self.pModule.text))) := by
  induction args with
  | nil => exact fun upto => self.ends_modules upto
  | cons arg rest ih =>
      intro mem now str len off before upto
      rw [List.flatMap_cons, List.append_assoc (arg.bytes ++ ascii " ")]
      exact upto.check fun next => ih next

/-- **A program prints its arguments and its modules.** -/
theorem prints_toString (self : Program) : Prints self.toString self.text := by
  intro mem str len
  exact self.ends_args self.pArgv (Upto.start mem str len)

end Program

/-- What stands in the buffer, and what is returned. -/
def Describes (toString : Bytes → Nat → BitVec 64 → BitVec 64 × Bytes) (text : List Byte) : Prop :=
  ∀ mem str len, Printed mem (toString mem str len).2 str len.toNat text ∧
    (toString mem str len).1.toNat = min len.toNat text.length

private theorem describes_of_prints {toString : Bytes → Nat → BitVec 64 → BitVec 64 × Bytes}
    {text : List Byte} (prints : Prints toString text) : Describes toString text := by
  intro mem str len
  obtain ⟨ret, put⟩ := prints mem str len
  exact ⟨put ▸ printed_store mem str len.toNat text, ret⟩

/-- **The descriptions.** Of a program, and of every module of its tree. -/
theorem toString_describes :
    (∀ mod : { mod : ModulePtr ModInfo // mod.mod?.isSome = true },
      Describes mod.val.toString mod.val.text) ∧
    ∀ program : Program, Describes program.toString program.text :=
  ⟨fun mod => describes_of_prints (ModulePtr.prints_toString mod.val mod.property),
    fun program => describes_of_prints program.prints_toString⟩

end Tvntd
