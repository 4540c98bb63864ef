import Mathlib.Algebra.GroupWithZero.Nat
import Tvntd.Cpptype.Object
import Tvntd.Lib.Printing

/-! # Scripts

`sh_fmt_script` adds up the lengths of the parts of a script with some room for
each, allocates that much, and prints the parts one behind the other into what
is left. The lengths are of type `size_t`; what `snprintf` returns is taken for
any number.

The room that is left for a variable or a line is more than it needs, and the room
for the head is less than what head and trailer need.
-/

namespace Tvntd

open Bytewise (Bytes)
open Printing

/-- `sh_var_in_t`; the strings may be null, and `sh_rtime_val` is read at run time. -/
structure ShVarIn where
  shVarName : CStr
  shFixedVal : Option CStr
  shRtimeVal : Option CStr

/-- `inp` of the loop over the variables; `none` is its failed assertion. -/
def ShVarIn.inp (var : ShVarIn) : Option CStr := var.shFixedVal <|> var.shRtimeVal

/-- `sh_script_t`. The arrays are in memory, with 24 and 8 bytes for an entry. -/
structure ShScript where
  shBin : CStr
  shInVars : List ShVarIn
  shScripts : List CStr
  inMemory : 24 * shInVars.length + 8 * shScripts.length < 2 ^ 64

namespace ShScript

def shExtraArg : BitVec 64 := 4

def shExtraHdr : BitVec 64 := 12

def shMaxCmdbuf : BitVec 64 := 32 * 1024

def strlen (str : CStr) : BitVec 64 := BitVec.ofNat 64 str.bytes.length

/-- `sh_apply_in_vars` -/
def shApplyInVars {Arg : Type} (applyFn : ShVarIn → Arg → CStr → Arg) :
    List ShVarIn → Arg → Option Arg
  | [], arg => some arg
  | var :: rest, arg =>
      var.inp.bind fun inp => shApplyInVars applyFn rest (applyFn var arg inp)

/-- `sh_inp_arg_t`, with the memory. The file is null or has the bytes. -/
structure ShInpArg where
  inLen : BitVec 64
  inExe : Nat
  inFile : Option (List Byte)
  mem : Bytes

/-- `sh_cal_len_inp_var`, on `in_len`. -/
def shCalLenInpVar (var : ShVarIn) (inLen : BitVec 64) (inp : CStr) : BitVec 64 :=
  inLen + (shExtraArg + strlen inp + strlen var.shVarName)

/-- A part goes to the buffer, or to the file. -/
def ShInpArg.print (scpt : ShInpArg) (text : List Byte) : ShInpArg :=
  match scpt.inFile with
  | none =>
      let (len, mem) := snprintf scpt.mem scpt.inExe scpt.inLen.toNat text
      { scpt with
        inExe := scpt.inExe + len
        inLen := scpt.inLen - BitVec.ofNat 64 len
        mem := mem }
  | some file => { scpt with inFile := some (file ++ text) }

/-- `sh_fillin_inp_var` -/
def shFillinInpVar (var : ShVarIn) (scpt : ShInpArg) (inp : CStr) : ShInpArg :=
  scpt.print (var.shVarName.bytes ++ ascii "=" ++ inp.bytes ++ ascii "\n")

/-- The length that is computed first. -/
def calLen (scpt : ShScript) : Option (BitVec 64) :=
  (shApplyInVars shCalLenInpVar scpt.shInVars (strlen scpt.shBin + shExtraHdr)).map fun inLen =>
    scpt.shScripts.foldl (fun inLen text => inLen + (strlen text + shExtraArg)) inLen

def header (scpt : ShScript) : List Byte := scpt.shBin.bytes ++ ascii " '( "

def trailer : List Byte := ascii " )' > /dev/null 2>&1"

/-- What follows the choice of the buffer or the file. -/
def fill (scpt : ShScript) (input : ShInpArg) : Option ShInpArg :=
  (shApplyInVars shFillinInpVar scpt.shInVars input).map fun input =>
    let input :=
      scpt.shScripts.foldl (fun input text => input.print (text.bytes ++ ascii "\n")) input
    if input.inFile = none then input.print trailer else input

/-- `sh_fmt_script`. A buffer is allocated at `exe`; `generated` is the text of the file that
`sh_gen_script_file` makes, if it does. The inner `none` is its return without a script. -/
def shFmtScript (scpt : ShScript) (limit : BitVec 64) (exe : Nat) (generated : Option (List Byte))
    (mem : Bytes) : Option (Option ShInpArg) :=
  scpt.calLen.bind fun inLen =>
    if inLen < limit then
      let input : ShInpArg := ⟨inLen, exe, none, mem⟩
      (scpt.fill (input.print scpt.header)).map some
    else
      match generated with
      | none => some none
      | some file => (scpt.fill ⟨inLen, 0, some file, mem⟩).map some

/-! ## The script -/

/-- The line of a variable. -/
def varLine (var : ShVarIn) : List Byte :=
  var.shVarName.bytes ++ ascii "=" ++ (var.inp.map CStr.bytes).getD [] ++ ascii "\n"

def scriptLine (text : CStr) : List Byte := text.bytes ++ ascii "\n"

/-- The head, a line for each variable, the lines, and the trailer. -/
def text (scpt : ShScript) : List Byte :=
  scpt.header ++ (scpt.shInVars.flatMap varLine ++ (scpt.shScripts.flatMap scriptLine ++ trailer))

/-- The lengths added up, were there no bound on a number. -/
def length (scpt : ShScript) : Nat :=
  scpt.shBin.bytes.length + 12 +
    (scpt.shInVars.map fun var =>
      4 + ((var.inp.map CStr.bytes).getD []).length + var.shVarName.bytes.length).sum +
    (scpt.shScripts.map fun text => text.bytes.length + 4).sum

/-- The script is in the buffer of `inLen` bytes, nothing else has changed, and the subtractions
from `in_len` did not wrap. -/
structure Exact (scpt : ShScript) (inLen : BitVec 64) (exe : Nat) (before : Bytes)
    (input : ShInpArg) : Prop where
  outside : ∀ address, address < exe ∨ exe + inLen.toNat ≤ address →
    input.mem address = before address
  copied : ∀ position (inside : position < scpt.text.length),
    input.mem (exe + position) = scpt.text[position]
  ended : input.mem (exe + scpt.text.length) = 0
  counted : input.inLen.toNat + scpt.text.length = inLen.toNat

/-- Whatever is in memory before. -/
def Formats (scpt : ShScript) (inLen limit : BitVec 64) (exe : Nat)
    (generated : Option (List Byte)) : Prop :=
  ∀ mem, ∃ input, scpt.shFmtScript limit exe generated mem = some (some input) ∧
    scpt.Exact inLen exe mem input

variable {scpt : ShScript} {inLen limit : BitVec 64} {exe : Nat} {generated : Option (List Byte)}

/-- A script that is in the buffer has room there for its end. -/
theorem Formats.room (formats : scpt.Formats inLen limit exe generated) :
    scpt.text.length < inLen.toNat := by
  obtain ⟨input, -, exactly⟩ := formats fun _ => 1
  by_contra full
  have behind := exactly.outside (exe + scpt.text.length) (Or.inr (by omega))
  rw [exactly.ended] at behind
  exact absurd behind (by decide)

/-! ### The length -/

private theorem length_varLine (var : ShVarIn) : (varLine var).length =
    var.shVarName.bytes.length + ((var.inp.map CStr.bytes).getD []).length + 2 := by
  simp [varLine, ascii]
  omega

/-- A variable gets two bytes more than its line has, and a line three; the head gets less. -/
theorem length_add (scpt : ShScript) : scpt.length + 12 =
    scpt.text.length + 2 * scpt.shInVars.length + 3 * scpt.shScripts.length := by
  have vars : ∀ list : List ShVarIn,
      (list.map fun var =>
        4 + ((var.inp.map CStr.bytes).getD []).length + var.shVarName.bytes.length).sum =
      (list.flatMap varLine).length + 2 * list.length := by
    intro list
    induction list with
    | nil => rfl
    | cons var rest ih =>
        rw [List.map_cons, List.sum_cons, ih, List.flatMap_cons, List.length_append,
          length_varLine, List.length_cons]
        omega
  have lines : ∀ list : List CStr, (list.map fun text => text.bytes.length + 4).sum =
      (list.flatMap scriptLine).length + 3 * list.length := by
    intro list
    induction list with
    | nil => rfl
    | cons line rest ih =>
        have own : (scriptLine line).length = line.bytes.length + 1 := List.length_append
        rw [List.map_cons, List.sum_cons, ih, List.flatMap_cons, List.length_append, own,
          List.length_cons]
        omega
  have head : scpt.header.length = scpt.shBin.bytes.length + 4 := List.length_append
  have tail : trailer.length = 20 := by decide
  rw [length, vars, lines, text, List.length_append, List.length_append, List.length_append, head,
    tail]
  omega

/-- An empty value for a variable without one. -/
def value (var : ShVarIn) : CStr := var.inp.getD ⟨[], CStr.ended_nil⟩

theorem bytes_value (var : ShVarIn) : (value var).bytes = (var.inp.map CStr.bytes).getD [] := by
  unfold value
  cases var.inp with
  | none => rfl
  | some inp => rfl

section Apply

variable {Arg : Type} {applyFn : ShVarIn → Arg → CStr → Arg}

theorem shApplyInVars_eq {vars : List ShVarIn} (valued : ∀ var ∈ vars, var.inp.isSome = true)
    (arg : Arg) : shApplyInVars applyFn vars arg =
      some (vars.foldl (fun arg var => applyFn var arg (value var)) arg) := by
  induction vars generalizing arg with
  | nil => rfl
  | cons var rest ih =>
      obtain ⟨inp, given⟩ := Option.isSome_iff_exists.mp (valued var List.mem_cons_self)
      rw [shApplyInVars, given, Option.bind_some, List.foldl_cons, value, given]
      exact ih (fun later inside => valued later (List.mem_cons_of_mem _ inside)) _

theorem valued_of_shApplyInVars {vars : List ShVarIn} {arg result : Arg}
    (applied : shApplyInVars applyFn vars arg = some result) :
    ∀ var ∈ vars, var.inp.isSome = true := by
  induction vars generalizing arg with
  | nil => exact fun _ none => (List.not_mem_nil none).elim
  | cons var rest ih =>
      obtain ⟨inp, given, later⟩ := Option.bind_eq_some_iff.mp applied
      intro other inside
      rcases List.mem_cons.mp inside with rfl | inside
      · exact given ▸ rfl
      · exact ih later other inside

end Apply

/-- The length that is computed is the sum, as far as a `size_t` holds it. -/
theorem toNat_calLen (computed : scpt.calLen = some inLen) :
    inLen.toNat = scpt.length % 2 ^ 64 := by
  obtain ⟨vars, applied, lines⟩ := Option.map_eq_some_iff.mp computed
  rw [shApplyInVars_eq (valued_of_shApplyInVars applied), Option.some.injEq] at applied
  have overVars : ∀ (list : List ShVarIn) (num : Nat),
      list.foldl (fun len var => shCalLenInpVar var len (value var)) (BitVec.ofNat 64 num) =
        BitVec.ofNat 64 (num + (list.map fun var =>
          4 + ((var.inp.map CStr.bytes).getD []).length + var.shVarName.bytes.length).sum) := by
    intro list
    induction list with
    | nil => exact fun num => rfl
    | cons var rest ih =>
        intro num
        have one : shCalLenInpVar var (BitVec.ofNat 64 num) (value var) = BitVec.ofNat 64
            (num + (4 + ((var.inp.map CStr.bytes).getD []).length +
              var.shVarName.bytes.length)) := by
          rw [shCalLenInpVar, strlen, strlen, bytes_value, BitVec.ofNat_add, BitVec.ofNat_add,
            BitVec.ofNat_add]
          rfl
        rw [List.foldl_cons, one, ih, List.map_cons, List.sum_cons, Nat.add_assoc]
  have overLines : ∀ (list : List CStr) (num : Nat),
      list.foldl (fun len text => len + (strlen text + shExtraArg)) (BitVec.ofNat 64 num) =
        BitVec.ofNat 64 (num + (list.map fun text => text.bytes.length + 4).sum) := by
    intro list
    induction list with
    | nil => exact fun num => rfl
    | cons text rest ih =>
        intro num
        have one : BitVec.ofNat 64 num + (strlen text + shExtraArg) =
            BitVec.ofNat 64 (num + (text.bytes.length + 4)) := by
          rw [strlen, BitVec.ofNat_add, BitVec.ofNat_add]
          rfl
        rw [List.foldl_cons, one, ih, List.map_cons, List.sum_cons, Nat.add_assoc]
  have head : strlen scpt.shBin + shExtraHdr = BitVec.ofNat 64 (scpt.shBin.bytes.length + 12) := by
    rw [strlen, BitVec.ofNat_add]
    rfl
  rw [head, overVars] at applied
  rw [← lines, ← applied, overLines, BitVec.toNat_ofNat, length]

/-- A length that the text is less than is the sum itself, which is more than the text needs from
13 bytes on for variables and lines. -/
theorem lt_calLen_iff (computed : scpt.calLen = some inLen) : scpt.text.length < inLen.toNat ↔
    13 ≤ 2 * scpt.shInVars.length + 3 * scpt.shScripts.length ∧ scpt.length < 2 ^ 64 := by
  have added := length_add scpt
  have arrays := scpt.inMemory
  rw [toNat_calLen computed]
  omega

/-! ### The parts -/

/-- The buffer is filled up to the end of a text, and there is room for more. -/
structure Filled (mem : Bytes) (exe : Nat) (size : BitVec 64) (text : List Byte)
    (input : ShInpArg) : Prop where
  upto : Upto mem exe size text (BitVec.ofNat 64 text.length) input.mem
  inExe : input.inExe = exe + text.length
  inLen : input.inLen = size - BitVec.ofNat 64 text.length
  inFile : input.inFile = none

variable {mem : Bytes} {size : BitVec 64} {before part : List Byte} {input : ShInpArg}

private theorem filled_start (mem : Bytes) (exe : Nat) (size : BitVec 64) :
    Filled mem exe size [] ⟨size, exe, none, mem⟩ where
  upto := Upto.start mem exe size
  inExe := rfl
  inLen := (BitVec.sub_zero size).symm
  inFile := rfl

theorem print_buffer (buffer : input.inFile = none) (part : List Byte) : input.print part =
    { input with
      inExe := input.inExe + part.length
      inLen := input.inLen - BitVec.ofNat 64 part.length
      mem := store input.mem input.inExe (written input.inLen.toNat part) } := by
  rw [ShInpArg.print, buffer]
  rfl

/-- What a print behind a text leaves in the buffer. -/
theorem Filled.mem_print (filled : Filled mem exe size before input) (part : List Byte) :
    (input.print part).mem = store mem exe (written size.toNat (before ++ part)) := by
  have put : store input.mem (exe + (BitVec.ofNat 64 before.length).toNat)
      (written (size - BitVec.ofNat 64 before.length).toNat part) = _ := filled.upto.part
  rw [filled.upto.counted, ← filled.inExe, ← filled.inLen] at put
  rw [print_buffer filled.inFile]
  exact put

/-- A part that has room with its terminator. -/
theorem Filled.print (filled : Filled mem exe size before input)
    (room : before.length + part.length < size.toNat) :
    Filled mem exe size (before ++ part) (input.print part) := by
  have left := filled.upto.left
  have length : (BitVec.ofNat 64 part.length).toNat = part.length :=
    Nat.mod_eq_of_lt (Nat.lt_of_le_of_lt (by omega) size.isLt)
  have fits : (BitVec.ofNat 64 part.length).toNat <
    (size - BitVec.ofNat 64 before.length).toNat := by
    rw [left, length]
    omega
  have next := filled.upto.next length fits
  rw [filled.upto.part, ← filled.mem_print, ← BitVec.ofNat_add, ← List.length_append] at next
  refine ⟨next, ?_, ?_, ?_⟩
  · rw [print_buffer filled.inFile, List.length_append, ← Nat.add_assoc, ← filled.inExe]
  · rw [print_buffer filled.inFile, List.length_append, BitVec.ofNat_add, ← BitVec.sub_sub,
      ← filled.inLen]
  · rw [print_buffer filled.inFile]
    exact filled.inFile

/-- A list of parts that have room. -/
theorem Filled.prints {Item : Type} (line : Item → List Byte) {list : List Item} :
    ∀ {before : List Byte} {input : ShInpArg}, Filled mem exe size before input →
      before.length + (list.flatMap line).length < size.toNat →
      Filled mem exe size (before ++ list.flatMap line)
        (list.foldl (fun input item => input.print (line item)) input) := by
  induction list with
  | nil =>
      intro before input filled _
      rw [List.flatMap_nil, List.append_nil]
      exact filled
  | cons item rest ih =>
      intro before input filled room
      rw [List.flatMap_cons, List.length_append] at room
      have fits : before.length + (line item).length < size.toNat := by omega
      have next := filled.print fits
      rw [List.flatMap_cons, ← List.append_assoc]
      apply ih next
      rw [List.length_append]
      omega

theorem shFillinInpVar_value (var : ShVarIn) (input : ShInpArg) :
    shFillinInpVar var input (value var) = input.print (varLine var) := by
  rw [shFillinInpVar, varLine, bytes_value]

/-- What follows the head, where the whole text has room. -/
theorem Filled.fill (head : Filled mem exe size scpt.header input)
    (valued : ∀ var ∈ scpt.shInVars, var.inp.isSome = true)
    (room : scpt.text.length < size.toNat) :
    ∃ final, scpt.fill input = some final ∧ Filled mem exe size scpt.text final ∧
      final.mem = store mem exe (written size.toNat scpt.text) := by
  have parts : scpt.text = scpt.header ++ scpt.shInVars.flatMap varLine ++
      scpt.shScripts.flatMap scriptLine ++ trailer := by
    rw [text, List.append_assoc, List.append_assoc]
  rw [parts, List.length_append, List.length_append] at room
  have varsRoom : scpt.header.length + (scpt.shInVars.flatMap varLine).length < size.toNat := by
    rw [← List.length_append]
    omega
  have vars := head.prints varLine varsRoom
  have lines := vars.prints scriptLine (Nat.lt_of_le_of_lt (Nat.le_add_right _ _) room)
  have last : (scpt.header ++ scpt.shInVars.flatMap varLine ++
      scpt.shScripts.flatMap scriptLine).length + trailer.length < size.toNat := by
    rw [List.length_append]
    exact room
  refine ⟨_, ?_, parts ▸ lines.print last, parts ▸ lines.mem_print trailer⟩
  have buffer : (scpt.shScripts.foldl (fun input text => input.print (scriptLine text))
      (scpt.shInVars.foldl (fun input var => input.print (varLine var)) input)).inFile = none :=
    lines.inFile
  rw [ShScript.fill, shApplyInVars_eq valued, Option.map_some]
  simp only [shFillinInpVar_value]
  exact congrArg some (if_pos buffer)

/-- The whole text, where it has room. -/
theorem formats_of_room (computed : scpt.calLen = some inLen) (below : inLen < limit)
    (room : scpt.text.length < inLen.toNat) : scpt.Formats inLen limit exe generated := by
  intro mem
  obtain ⟨_, applied, -⟩ := Option.map_eq_some_iff.mp computed
  have headRoom : ([] : List Byte).length + scpt.header.length < inLen.toNat := by
    rw [text, List.length_append] at room
    rw [List.length_nil]
    omega
  have head := (filled_start mem exe inLen).print headRoom
  rw [List.nil_append] at head
  obtain ⟨final, fills, filled, put⟩ := head.fill (valued_of_shApplyInVars applied) room
  refine ⟨final, ?_, ?_⟩
  · rw [shFmtScript, computed, Option.bind_some, if_pos below]
    simp only [fills, Option.map_some]
  · have printed := put ▸ printed_store mem exe inLen.toNat scpt.text
    have left := filled.upto.left
    rw [← filled.inLen] at left
    refine ⟨printed.outside, ?_, ?_, ?_⟩
    · intro position inside
      exact printed.copied position inside (by omega)
    · have ended := printed.ended (by omega)
      rwa [Nat.min_eq_left (by omega)] at ended
    · omega

/-- **The room for head and trailer comes from the variables and the lines.** -/
theorem formats_iff_thirteen (scpt : ShScript) {inLen limit : BitVec 64}
    (computed : scpt.calLen = some inLen) (below : inLen < limit) (exe : Nat)
    (generated : Option (List Byte)) : scpt.Formats inLen limit exe generated ↔
      13 ≤ 2 * scpt.shInVars.length + 3 * scpt.shScripts.length ∧ scpt.length < 2 ^ 64 := by
  rw [← lt_calLen_iff computed]
  exact ⟨Formats.room, formats_of_room computed below⟩

section Scripts

def bash (lines : List CStr) (few : lines.length ≤ 100) : ShScript where
  shBin := ⟨ascii "bash", by decide⟩
  shInVars := []
  shScripts := lines
  inMemory := by
    rw [List.length_nil]
    omega

def pwd : CStr := ⟨ascii "pwd", by decide⟩

theorem formats_iff_thirteen_five_lines :
    (bash [pwd, pwd, pwd, pwd, pwd] (by decide)).Formats 51 shMaxCmdbuf 0 none :=
  (formats_iff_thirteen _ (by decide) (by decide) 0 none).mpr (by decide)

/-- A script without variables and lines gets 16 bytes for 28. -/
theorem not_formats_no_lines :
    (bash [] (by decide)).calLen = some 16 ∧ (16 : BitVec 64) < shMaxCmdbuf ∧
      ¬ (bash [] (by decide)).Formats 16 shMaxCmdbuf 0 none :=
  ⟨by decide, by decide, fun formats => absurd formats.room (by decide)⟩

end Scripts

end ShScript

end Tvntd
