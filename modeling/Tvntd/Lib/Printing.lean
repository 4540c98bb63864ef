import Tvntd.Lib.Bytes
import Mathlib.Data.List.Basic

/-! # Printing into a buffer

A print puts as much of a text into a buffer as there is room for together with
a terminator, and tells the length of the whole text. Prints one behind the other,
each into the room the one before left, are the print of the texts together.
-/

namespace Printing

open Bytewise (Bytes)

/-- The bytes of a string literal. -/
def ascii (literal : String) : List (BitVec 8) :=
  literal.toList.map fun c => BitVec.ofNat 8 c.toNat

/-- Bytes put at an address. -/
def store (mem : Bytes) (str : Nat) (bytes : List (BitVec 8)) : Bytes := fun address =>
  if str ≤ address then (bytes[address - str]?).getD (mem address) else mem address

/-- What is put into a buffer. -/
def written (len : Nat) (text : List (BitVec 8)) : List (BitVec 8) :=
  if len = 0 then [] else text.take (len - 1) ++ [0]

/-- The length of the text, which may be longer than the buffer, and the memory behind the print. -/
def snprintf (mem : Bytes) (str len : Nat) (text : List (BitVec 8)) : Nat × Bytes :=
  (text.length, store mem str (written len text))

variable {mem : Bytes} {str len address : Nat} {text later : List (BitVec 8)}

private theorem store_inside (position : Nat) (inside : position < text.length) :
    store mem str text (str + position) = text[position] := by
  rw [store, if_pos (Nat.le_add_right _ _), Nat.add_sub_cancel_left,
    List.getElem?_eq_getElem inside]
  rfl

private theorem store_outside (outside : address < str ∨ str + text.length ≤ address) :
    store mem str text address = mem address := by
  unfold store
  split
  · have behind : text.length ≤ address - str := by omega
    rw [List.getElem?_eq_none behind]
    rfl
  · rfl

/-- What reaches over the end of what is there replaces it from its address on. -/
theorem store_store {first second : List (BitVec 8)} {count : Nat} (inside : count ≤ first.length)
    (reaches : first.length ≤ count + second.length) :
    store (store mem str first) (str + count) second =
      store mem str (first.take count ++ second) := by
  funext address
  have taken : (first.take count).length = count := List.length_take_of_le inside
  unfold store
  by_cases low : str ≤ address
  · by_cases high : str + count ≤ address
    · have position : address - str - count = address - (str + count) := by omega
      rw [if_pos high, if_pos low, if_pos low, List.getElem?_append_right (by omega), taken,
        position]
      by_cases own : address - (str + count) < second.length
      · rw [List.getElem?_eq_getElem own]
        rfl
      · rw [List.getElem?_eq_none (by omega), List.getElem?_eq_none (by omega)]
        rfl
    · rw [if_neg high, if_pos low, if_pos low, List.getElem?_append_left (by omega),
        List.getElem?_take_of_lt (by omega)]
  · have before : ¬ str + count ≤ address := by omega
    rw [if_neg before, if_neg low, if_neg low]

private theorem written_of_lt (room : text.length < len) : written len text = text ++ [0] := by
  rw [written, if_neg (by omega), List.take_of_length_le (by omega)]

/-- A text that does not fit is not told from a longer one. -/
theorem written_of_le (full : len ≤ text.length) :
    written len (text ++ later) = written len text := by
  unfold written
  split
  · rfl
  · rw [List.take_append_of_le_length (by omega)]

/-- **Two prints.** The second goes on where the first ended. -/
theorem store_written_append (room : text.length < len) :
    store (store mem str (written len text)) (str + text.length)
        (written (len - text.length) later) = store mem str (written len (text ++ later)) := by
  have left : len - text.length ≠ 0 := by omega
  have ends : (written len text).length ≤ text.length +
    (written (len - text.length) later).length := by
    rw [written_of_lt room, written, if_neg left, List.length_append, List.length_append]
    simp only [List.length_singleton]
    omega
  have both : written len (text ++ later) = text ++ written (len - text.length) later := by
    rw [written, written, if_neg (by omega), if_neg left, List.take_append, List.append_assoc,
      List.take_of_length_le (by omega)]
    congr 3
    omega
  rw [store_store (by rw [written_of_lt room, List.length_append]; omega) ends, both,
    written_of_lt room, List.take_left]

/-- The longest beginning of the text that fits with its terminator is in the buffer, and nothing
else has changed. -/
structure Printed (before after : Bytes) (str len : Nat) (text : List (BitVec 8)) : Prop where
  outside : ∀ address, address < str ∨ str + len ≤ address → after address = before address
  copied : ∀ position (inside : position < text.length), position + 1 < len →
    after (str + position) = text[position]
  ended : 0 < len → after (str + min text.length (len - 1)) = 0

private theorem length_written : (written len text).length = min len (text.length + 1) := by
  unfold written
  split
  · rename_i none
    rw [none, Nat.zero_min]
    rfl
  · rw [List.length_append, List.length_take, List.length_singleton]
    omega

theorem printed_store (mem : Bytes) (str len : Nat) (text : List (BitVec 8)) :
    Printed mem (store mem str (written len text)) str len text where
  outside := by
    intro address outside
    apply store_outside
    rw [length_written]
    omega
  copied := by
    intro position inside room
    have put : position < (written len text).length := by
      rw [length_written]
      omega
    rw [store_inside position put]
    simp only [written, if_neg (by omega : ¬ len = 0)]
    rw [List.getElem_append_left (by rw [List.length_take]; omega), List.getElem_take]
  ended := by
    intro room
    have put : min text.length (len - 1) < (written len text).length := by
      rw [length_written]
      omega
    rw [store_inside _ put]
    simp only [written, if_neg (by omega : ¬ len = 0)]
    rw [List.getElem_append_right (by rw [List.length_take]; omega), List.getElem_singleton]

/-! ## Printers of several parts

They keep the length of what they printed so far in a variable of 64 bits.
-/

/-- The text is in the buffer, and its length is returned, or that of the buffer where it is
less. -/
def Ends (result : BitVec 64 × Bytes) (mem : Bytes) (str : Nat) (len : BitVec 64)
    (text : List (BitVec 8)) : Prop :=
  result.1.toNat = min len.toNat text.length ∧ result.2 = store mem str (written len.toNat text)

def Prints (printer : Bytes → Nat → BitVec 64 → BitVec 64 × Bytes)
    (text : List (BitVec 8)) : Prop :=
  ∀ mem str len, Ends (printer mem str len) mem str len text

/-- Between two parts: `off` is the length of the text so far, and a part that is put behind it
gives the print of both. -/
structure Upto (mem : Bytes) (str : Nat) (len : BitVec 64) (text : List (BitVec 8))
    (off : BitVec 64) (now : Bytes) : Prop where
  room : text.length ≤ len.toNat
  counted : off.toNat = text.length
  goesOn : ∀ later, store now (str + text.length) (written (len.toNat - text.length) later) =
    store mem str (written len.toNat (text ++ later))

variable {size off : BitVec 64} {now : Bytes}

theorem Upto.start (mem : Bytes) (str : Nat) (size : BitVec 64) : Upto mem str size [] 0 mem where
  room := Nat.zero_le _
  counted := rfl
  goesOn := fun _ => rfl

theorem Upto.first (room : text.length < size.toNat) :
    Upto mem str size text (BitVec.ofNat 64 text.length)
      (store mem str (written size.toNat text)) where
  room := Nat.le_of_lt room
  counted := Nat.mod_eq_of_lt (Nat.lt_trans room size.isLt)
  goesOn := fun _ => store_written_append room

/-- The subtraction does not wrap. -/
theorem Upto.left (upto : Upto mem str size text off now) :
    (size - off).toNat = size.toNat - text.length := by
  have within : off ≤ size := BitVec.le_def.mpr (upto.counted ▸ upto.room)
  rw [BitVec.toNat_sub_of_le within, upto.counted]

theorem Upto.part (upto : Upto mem str size text off now) :
    store now (str + off.toNat) (written (size - off).toNat later) =
      store mem str (written size.toNat (text ++ later)) := by
  rw [upto.counted, upto.left, upto.goesOn]

/-- A part that has room. -/
theorem Upto.next (upto : Upto mem str size text off now) {ret : BitVec 64}
    (length : ret.toNat = later.length) (fits : ret.toNat < (size - off).toNat) :
    Upto mem str size (text ++ later) (off + ret)
      (store now (str + off.toNat) (written (size - off).toNat later)) := by
  rw [upto.left, length] at fits
  have counted := upto.counted
  have bound := size.isLt
  refine ⟨?_, ?_, ?_⟩
  · rw [List.length_append]
    omega
  · rw [BitVec.toNat_add, List.length_append, length, counted]
    exact Nat.mod_eq_of_lt (by omega)
  · intro rest
    rw [upto.left, counted, List.length_append, ← Nat.add_assoc, ← Nat.sub_sub,
      store_written_append fits, upto.goesOn, List.append_assoc]

/-- A part without room is the last that is put into the buffer, whatever would follow. -/
theorem Upto.last (upto : Upto mem str size text off now) (full : (size - off).toNat ≤ later.length)
    (rest : List (BitVec 8)) : size.toNat ≤ (text ++ (later ++ rest)).length ∧
      store now (str + off.toNat) (written (size - off).toNat later) =
        store mem str (written size.toNat (text ++ (later ++ rest))) := by
  have longer : size.toNat ≤ (text ++ later).length := by
    rw [upto.left] at full
    rw [List.length_append]
    omega
  refine ⟨?_, ?_⟩
  · rw [← List.append_assoc, List.length_append]
    omega
  · rw [upto.part, ← List.append_assoc, written_of_le longer]

/-- **The check behind a part.** Without room the printer is done, and else it goes on. -/
theorem Upto.check (upto : Upto mem str size text off now) {rest : List (BitVec 8)}
    {goes : BitVec 64 × Bytes}
    (next : Upto mem str size (text ++ later) (off + BitVec.ofNat 64 later.length)
      (store now (str + off.toNat) (written (size - off).toNat later)) →
        Ends goes mem str size (text ++ later ++ rest)) :
    Ends (if (size - off).toNat ≤ later.length then
        (size, store now (str + off.toNat) (written (size - off).toNat later))
      else goes) mem str size (text ++ (later ++ rest)) := by
  split
  · rename_i full
    obtain ⟨longer, last⟩ := upto.last full rest
    exact ⟨(Nat.min_eq_left longer).symm, last⟩
  · rename_i room
    have fits := Nat.lt_of_not_le room
    have length : (BitVec.ofNat 64 later.length).toNat = later.length :=
      Nat.mod_eq_of_lt (Nat.lt_trans fits (size - off).isLt)
    rw [← List.append_assoc]
    exact next (upto.next length (length.symm ▸ fits))

/-- The part behind which nothing follows. -/
theorem Upto.finish (upto : Upto mem str size text off now)
    {printer : Bytes → Nat → BitVec 64 → BitVec 64 × Bytes} (prints : Prints printer later) :
    Ends (off + (printer now (str + off.toNat) (size - off)).1,
      (printer now (str + off.toNat) (size - off)).2) mem str size (text ++ later) := by
  obtain ⟨ret, put⟩ := prints now (str + off.toNat) (size - off)
  have room := upto.room
  have bound := size.isLt
  refine ⟨?_, put.trans upto.part⟩
  rw [upto.left] at ret
  rw [BitVec.toNat_add, ret, upto.counted, Nat.mod_eq_of_lt (by omega), List.length_append]
  omega

end Printing
