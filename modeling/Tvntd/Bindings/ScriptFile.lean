import Tvntd.Bindings.ShScript

/-! # Scripts in files

`sh_script_to_file` has a script printed by `sh_fmt_script`, which makes a file only
from a length of 32 KiB on. A shorter script goes into a buffer, and no file is
returned. The name of the file is printed into a buffer of 1024 bytes first.

The files are kept under their names; what the system answers is a parameter.
-/

namespace Tvntd

open Function

open Bytewise (Bytes)
open Printing

namespace ShScript

/-- The files, under their names. -/
abbrev Files := List Byte → Option (List Byte)

/-- Whether a command exits with 0, a file can be opened for `"w+"`, its mode can be changed. -/
structure Host where
  system : List Byte → Bool
  fopen : List Byte → Bool
  fchmod : List Byte → Bool

def osdMaxInputLine : Nat := 1024

/-- The string in `cmd` behind a print. -/
def cmd (text : List Byte) : List Byte := text.take (osdMaxInputLine - 1)

def mkdir (path : CStr) : List Byte := ascii "mkdir -p " ++ path.bytes

def pathName (path name : CStr) : List Byte := path.bytes ++ ascii "/" ++ name.bytes

def bashHeader : List Byte := ascii "#!/bin/bash\n\n"

/-- `sh_gen_script_file` with a name: the name of the file it returns, and the files. -/
def shGenScriptFile (host : Host) (path name : CStr) (files : Files) :
    Option (List Byte) × Files :=
  if host.system (cmd (mkdir path)) then
    let file := cmd (pathName path name)
    if host.fopen file then
      if host.fchmod file then (some file, update files file (some bashHeader))
      else (none, update files file none)
    else (none, files)
  else (none, files)

/-- What is returned, and the files, behind `sh_fmt_script`. -/
def closed (generated : Option (List Byte) × Files) (files : Files) :
    Option ShInpArg → Bool × Files
  | none => (false, generated.2)
  | some input =>
      match generated.1, input.inFile with
      | some file, some text => (true, update generated.2 file (some text))
      | _, _ => (false, files)

/-- `sh_script_to_file`. The outer `none` is a failed assertion. -/
def shScriptToFile (scpt : ShScript) (host : Host) (path name : CStr) (exe : Nat) (mem : Bytes)
    (files : Files) : Option (Bool × Files) :=
  let generated := shGenScriptFile host path name files
  (scpt.shFmtScript shMaxCmdbuf exe (generated.1.map fun _ => bashHeader) mem).map
    (closed generated files)

/-! ## The file -/

/-- The header, a line for each variable, and the lines. -/
def fileText (scpt : ShScript) : List Byte :=
  bashHeader ++ scpt.shInVars.flatMap varLine ++ scpt.shScripts.flatMap scriptLine

/-- Whatever the files were, and what is in memory. -/
def Saves (scpt : ShScript) (host : Host) (path name : CStr) : Prop :=
  ∀ exe mem files, ∃ after, scpt.shScriptToFile host path name exe mem files = some (true, after) ∧
    after (pathName path name) = some scpt.fileText

/-- The directory can be made, and the file opened and made executable. -/
structure Host.Succeeds (host : Host) (path name : CStr) : Prop where
  makes : host.system (cmd (mkdir path)) = true
  opens : host.fopen (cmd (pathName path name)) = true
  modes : host.fchmod (cmd (pathName path name)) = true

variable {scpt : ShScript} {host : Host} {path name : CStr}

private theorem shGenScriptFile_eq (succeeds : host.Succeeds path name) (files : Files) :
    shGenScriptFile host path name files = (some (cmd (pathName path name)),
      update files (cmd (pathName path name)) (some bashHeader)) := by
  rw [shGenScriptFile, if_pos succeeds.makes]
  exact (if_pos succeeds.opens).trans (if_pos succeeds.modes)

/-- What is printed in a file comes behind what is there. -/
theorem inFile_prints {Item : Type} (line : Item → List Byte) (list : List Item)
    {input : ShInpArg} {file : List Byte} (here : input.inFile = some file) :
    (list.foldl (fun input item => input.print (line item)) input).inFile =
      some (file ++ list.flatMap line) := by
  induction list generalizing input file with
  | nil =>
      rw [List.flatMap_nil, List.append_nil]
      exact here
  | cons item rest ih =>
      have next : (input.print (line item)).inFile = some (file ++ line item) := by
        rw [ShInpArg.print, here]
      rw [List.foldl_cons, ih next, List.flatMap_cons, List.append_assoc]

/-- A file gets no trailer. -/
theorem inFile_fill (valued : ∀ var ∈ scpt.shInVars, var.inp.isSome = true) {input : ShInpArg}
    (here : input.inFile = some bashHeader) :
    ∃ final, scpt.fill input = some final ∧ final.inFile = some scpt.fileText := by
  have vars := inFile_prints varLine scpt.shInVars here
  have lines := inFile_prints scriptLine scpt.shScripts vars
  rw [ShScript.fill, shApplyInVars_eq valued, Option.map_some]
  simp only [shFillinInpVar_value]
  refine ⟨_, rfl, ?_⟩
  split
  · rename_i buffer
    exact absurd (buffer.symm.trans lines) (by simp)
  · exact lines

/-! ## The length that is computed -/

private theorem calLen_eq (valued : ∀ var ∈ scpt.shInVars, var.inp.isSome = true) :
    ∃ inLen, scpt.calLen = some inLen ∧ inLen.toNat = scpt.length % 2 ^ 64 := by
  have computed : ∃ inLen, scpt.calLen = some inLen := by
    rw [calLen, shApplyInVars_eq valued]
    exact ⟨_, rfl⟩
  obtain ⟨inLen, computed⟩ := computed
  exact ⟨inLen, computed, toNat_calLen computed⟩

private theorem valued_of_calLen {inLen : BitVec 64} (computed : scpt.calLen = some inLen) :
    ∀ var ∈ scpt.shInVars, var.inp.isSome = true := by
  obtain ⟨_, applied, -⟩ := Option.map_eq_some_iff.mp computed
  exact valued_of_shApplyInVars applied

/-- A name that does not fit is cut off. -/
theorem cmd_eq_iff (text : List Byte) : cmd text = text ↔ text.length < osdMaxInputLine := by
  have size : (cmd text).length = min (osdMaxInputLine - 1) text.length := List.length_take
  constructor
  · intro same
    rw [same, osdMaxInputLine] at size
    rw [osdMaxInputLine]
    omega
  · intro short
    exact List.take_of_length_le (Nat.le_sub_one_of_lt short)

/-- What is printed in memory is not returned as a file. -/
theorem inFile_fill_buffer {input final : ShInpArg} (buffer : input.inFile = none)
    (filled : scpt.fill input = some final) : final.inFile = none := by
  have kept : ∀ (part : List Byte) (input : ShInpArg), input.inFile = none →
      (input.print part).inFile = none := by
    intro part input buffer
    rw [print_buffer buffer]
    exact buffer
  have prints : ∀ (Item : Type) (line : Item → List Byte) (list : List Item) (input : ShInpArg),
      input.inFile = none →
        (list.foldl (fun input item => input.print (line item)) input).inFile = none := by
    intro Item line list
    induction list with
    | nil => exact fun _ buffer => buffer
    | cons item rest ih => exact fun input buffer => ih _ (kept (line item) input buffer)
  obtain ⟨vars, applied, rfl⟩ := Option.map_eq_some_iff.mp filled
  rw [shApplyInVars_eq (valued_of_shApplyInVars applied), Option.some.injEq] at applied
  simp only [shFillinInpVar_value] at applied
  have before := prints _ varLine scpt.shInVars input buffer
  rw [applied] at before
  have lines := prints _ scriptLine scpt.shScripts vars before
  exact (congrArg ShInpArg.inFile (if_pos lines)).trans (kept trailer _ lines)

private theorem closed_buffer {input : ShInpArg} (buffer : input.inFile = none)
    (generated : Option (List Byte) × Files) (files : Files) :
    closed generated files (some input) = (false, files) := by
  obtain ⟨made, opened⟩ := generated
  cases made with
  | none => rfl
  | some file => simp only [closed, buffer]

/-- A script that is saved has values for its variables, and is long. -/
theorem long_of_saves (saves : scpt.Saves host path name) :
    (∀ var ∈ scpt.shInVars, var.inp.isSome = true) ∧ 32768 ≤ scpt.length % 2 ^ 64 := by
  obtain ⟨after, returned, -⟩ := saves 0 (fun _ => 0) fun _ => none
  obtain ⟨result, formatted, truth⟩ := Option.map_eq_some_iff.mp returned
  obtain ⟨inLen, computed, printed⟩ := Option.bind_eq_some_iff.mp formatted
  refine ⟨valued_of_calLen computed, ?_⟩
  rw [← toNat_calLen computed]
  by_contra short
  have below : inLen < shMaxCmdbuf := by
    rw [BitVec.lt_def]
    exact Nat.lt_of_not_le short
  rw [if_pos below] at printed
  obtain ⟨input, filled, rfl⟩ := Option.map_eq_some_iff.mp printed
  have buffer := inFile_fill_buffer (by rw [print_buffer rfl]) filled
  rw [closed_buffer buffer] at truth
  exact Bool.false_ne_true (congrArg Prod.fst truth)

/-- The file of a long script. -/
theorem shScriptToFile_of_long (succeeds : host.Succeeds path name)
    (valued : ∀ var ∈ scpt.shInVars, var.inp.isSome = true)
    (long : 32768 ≤ scpt.length % 2 ^ 64) (exe : Nat) (mem : Bytes) (files : Files) :
    scpt.shScriptToFile host path name exe mem files =
      some (true, update files (cmd (pathName path name)) (some scpt.fileText)) := by
  obtain ⟨inLen, computed, counted⟩ := calLen_eq valued
  have above : ¬ inLen < shMaxCmdbuf := by
    rw [BitVec.lt_def, counted]
    exact Nat.not_lt.mpr long
  have here : (ShInpArg.mk inLen 0 (some bashHeader) mem).inFile = some bashHeader := rfl
  obtain ⟨final, filled, text⟩ := inFile_fill valued here
  have formatted : scpt.shFmtScript shMaxCmdbuf exe (some bashHeader) mem =
      some (some final) := by
    rw [shFmtScript, computed, Option.bind_some, if_neg above]
    exact congrArg (Option.map some) filled
  rw [shScriptToFile, shGenScriptFile_eq succeeds]
  simp only [Option.map_some, formatted, closed, text, update_idem]

/-- **Only a long script is saved in a file.** -/
theorem saves_iff (scpt : ShScript) {host : Host} {path name : CStr}
    (succeeds : host.Succeeds path name) : scpt.Saves host path name ↔
      (∀ var ∈ scpt.shInVars, var.inp.isSome = true) ∧ 32768 ≤ scpt.length % 2 ^ 64 ∧
        path.bytes.length + 1 + name.bytes.length < 1024 := by
  have size : (pathName path name).length = path.bytes.length + 1 + name.bytes.length := by
    rw [pathName, List.length_append, List.length_append]
    rfl
  constructor
  · intro saves
    obtain ⟨valued, long⟩ := long_of_saves saves
    refine ⟨valued, long, ?_⟩
    rw [← size, ← osdMaxInputLine, ← cmd_eq_iff]
    by_contra cut
    -- Without files before, there is none under the name.
    obtain ⟨after, returned, text⟩ := saves 0 (fun _ => 0) fun _ => none
    rw [shScriptToFile_of_long succeeds valued long, Option.some.injEq, Prod.mk.injEq] at returned
    rw [← returned.2, update_of_ne (Ne.symm cut)] at text
    exact Option.some_ne_none _ text.symm
  · rintro ⟨valued, long, short⟩ exe mem files
    refine ⟨_, shScriptToFile_of_long succeeds valued long exe mem files, ?_⟩
    rw [(cmd_eq_iff _).mpr (size ▸ short), update_self]

section Saved

/-- A system on which everything succeeds. -/
def willing : Host := ⟨fun _ => true, fun _ => true, fun _ => true⟩

private theorem willing_succeeds (path name : CStr) : willing.Succeeds path name := ⟨rfl, rfl, rfl⟩

def tmp : CStr := ⟨ascii "/tmp", by decide⟩

/-- A line of 32 KiB. -/
def longLine : CStr := ⟨List.replicate 32768 120#8, by
  intro inside
  exact absurd (List.eq_of_mem_replicate inside) (by decide)⟩

private theorem length_longLine : (bash [longLine] (by decide)).length = 32788 := by
  have chars : longLine.bytes.length = 32768 := List.length_replicate
  have word : (bash [longLine] (by decide)).shBin.bytes.length = 4 := rfl
  rw [length, word]
  simp [bash, chars]

theorem saves_iff_longLine : (bash [longLine] (by decide)).Saves willing tmp pwd := by
  refine (saves_iff (bash [longLine] (by decide)) (willing_succeeds tmp pwd)).mpr
    ⟨fun var none => (List.not_mem_nil none).elim, ?_, by decide⟩
  rw [length_longLine]
  decide

/-- A script of one short line is not saved. -/
theorem shortScript_not_saves : willing.Succeeds tmp pwd ∧
    ¬ (bash [pwd] (by decide)).Saves willing tmp pwd :=
  ⟨willing_succeeds tmp pwd, fun saves => absurd (long_of_saves saves).2 (by decide)⟩

end Saved

end ShScript

end Tvntd
