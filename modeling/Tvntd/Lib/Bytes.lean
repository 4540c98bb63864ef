import Mathlib.Data.Nat.Basic
import Mathlib.Algebra.Group.Nat.Defs
import Mathlib.Algebra.Group.Int.Defs

/-! # Memories of bytes

A memory gives every address a byte. A field is read and written as a number of
bytes from an address on, least significant byte first. The rules are about
fields that are the same or *apart*: an access of one of two apart fields does
not see the other.
-/

namespace Bytewise

/-- The content of every address. -/
abbrev Bytes := Nat → BitVec 8

/-- The number in the `width` bytes from an address on. -/
def read (mem : Bytes) : Nat → Nat → Nat
  | _, 0 => 0
  | off, width + 1 => (mem off).toNat + 256 * read mem (off + 1) width

/-- A number put into the `width` bytes from an address on; higher bytes are lost. -/
def write (mem : Bytes) (off width value : Nat) : Bytes := fun address =>
  if off ≤ address ∧ address < off + width then BitVec.ofNat 8 (value / 256 ^ (address - off))
  else mem address

/-- No byte is in both fields. -/
def Apart (off width other otherWidth : Nat) : Prop :=
  off + width ≤ other ∨ other + otherWidth ≤ off

instance (off width other otherWidth : Nat) : Decidable (Apart off width other otherWidth) :=
  inferInstanceAs (Decidable (_ ∨ _))

theorem Apart.symm {off width other otherWidth : Nat} (apart : Apart off width other otherWidth) :
    Apart other otherWidth off width := Or.symm apart

theorem read_lt (mem : Bytes) (off width : Nat) : read mem off width < 256 ^ width := by
  induction width generalizing off with
  | zero => exact Nat.one_pos
  | succ width ih =>
      have low : (mem off).toNat < 256 := (mem off).isLt
      have high := ih (off + 1)
      rw [read, Nat.pow_succ]
      omega

/-- A field depends on its own bytes only. -/
theorem read_congr {mem other : Bytes} {off width : Nat}
    (same : ∀ address, off ≤ address → address < off + width → mem address = other address) :
    read mem off width = read other off width := by
  induction width generalizing off with
  | zero => rfl
  | succ width ih =>
      have later : read mem (off + 1) width = read other (off + 1) width := by
        apply ih
        intro address lower upper
        exact same address (by omega) (by omega)
      rw [read, read, later, same off (Nat.le_refl off) (by omega)]

theorem write_of_outside {mem : Bytes} {off width address : Nat} (value : Nat)
    (outside : address < off ∨ off + width ≤ address) :
    write mem off width value address = mem address :=
  if_neg fun inside => by omega

/-- **Frame.** A write is not seen by a read that is apart. -/
theorem read_write_of_apart {mem : Bytes} {off width other otherWidth : Nat} (value : Nat)
    (apart : Apart off width other otherWidth) :
    read (write mem off width value) other otherWidth = read mem other otherWidth := by
  apply read_congr
  intro address lower upper
  apply write_of_outside
  rcases apart with before | after
  · exact .inr (by omega)
  · exact .inl (by omega)

private theorem read_write_suffix (mem : Bytes) (off width value skipped : Nat) :
    ∀ later, skipped + later = width →
      read (write mem off width value) (off + skipped) later =
        value / 256 ^ skipped % 256 ^ later := by
  intro later
  induction later generalizing skipped with
  | zero => exact fun _ => (Nat.mod_one _).symm
  | succ later ih =>
      intro total
      have here : write mem off width value (off + skipped) =
          BitVec.ofNat 8 (value / 256 ^ skipped) := by
        unfold write
        rw [if_pos ⟨by omega, by omega⟩, Nat.add_sub_cancel_left]
      have split : value / 256 ^ (skipped + 1) = value / 256 ^ skipped / 256 := by
        rw [Nat.pow_succ, Nat.div_div_eq_div_mul]
      have powered : 256 ^ (later + 1) = 256 * 256 ^ later := Nat.pow_succ'
      rw [read, here, Nat.add_assoc, ih (skipped + 1) (by omega), BitVec.toNat_ofNat, split, powered,
        Nat.mod_mul]

/-- A field holds what was last written to it, as far as it fits. -/
theorem read_write (mem : Bytes) (off width value : Nat) :
    read (write mem off width value) off width = value % 256 ^ width := by
  have suffix := read_write_suffix mem off width value 0 width (Nat.zero_add width)
  rwa [Nat.pow_zero, Nat.div_one, Nat.add_zero] at suffix

theorem read_write_of_lt (mem : Bytes) {off width value : Nat} (fits : value < 256 ^ width) :
    read (write mem off width value) off width = value := by
  rw [read_write, Nat.mod_eq_of_lt fits]

private theorem read_div (mem : Bytes) (off skipped : Nat) : ∀ later,
    read mem off (skipped + later) / 256 ^ skipped = read mem (off + skipped) later := by
  induction skipped generalizing off with
  | zero =>
      intro later
      rw [Nat.pow_zero, Nat.div_one, Nat.zero_add, Nat.add_zero]
  | succ skipped ih =>
      intro later
      have low : (mem off).toNat < 256 := (mem off).isLt
      have powered : 256 ^ (skipped + 1) = 256 * 256 ^ skipped := Nat.pow_succ'
      have rest : read mem off (skipped + later + 1) / 256 =
          read mem (off + 1) (skipped + later) := by
        rw [read]
        omega
      rw [Nat.add_right_comm, powered, ← Nat.div_div_eq_div_mul, rest, ih, Nat.add_right_comm off,
        Nat.add_assoc off]

/-- Writing back what was read changes nothing. -/
theorem write_read (mem : Bytes) (off width : Nat) :
    write mem off width (read mem off width) = mem := by
  funext address
  unfold write
  by_cases inside : off ≤ address ∧ address < off + width
  · obtain ⟨skipped, rfl⟩ := Nat.exists_eq_add_of_le inside.1
    obtain ⟨later, rfl⟩ : ∃ later, width = skipped + (later + 1) :=
      ⟨width - skipped - 1, by omega⟩
    rw [if_pos inside, Nat.add_sub_cancel_left, read_div, read]
    apply BitVec.eq_of_toNat_eq
    have low : (mem (off + skipped)).toNat < 256 := (mem (off + skipped)).isLt
    rw [BitVec.toNat_ofNat]
    omega
  · exact if_neg inside

/-! ## Sequences of writes -/

/-- A write of a field. -/
structure Store where
  off : Nat
  width : Nat
  value : Nat

/-- The memory after some writes, the first one first. -/
def stores (mem : Bytes) : List Store → Bytes
  | [] => mem
  | s :: rest => stores (write mem s.off s.width s.value) rest

@[simp] theorem stores_nil (mem : Bytes) : stores mem [] = mem := rfl

@[simp] theorem stores_cons (mem : Bytes) (s : Store) (rest : List Store) :
    stores mem (s :: rest) = stores (write mem s.off s.width s.value) rest := rfl

/-- Writes that are all apart from a field leave it as it is. -/
theorem read_stores_of_apart {off width : Nat} {list : List Store} {mem : Bytes}
    (apart : ∀ s ∈ list, Apart s.off s.width off width) :
    read (stores mem list) off width = read mem off width := by
  induction list generalizing mem with
  | nil => rfl
  | cons s rest ih =>
      rw [stores_cons, ih fun other member => apart other (List.mem_cons_of_mem _ member),
        read_write_of_apart _ (apart s List.mem_cons_self)]

end Bytewise
