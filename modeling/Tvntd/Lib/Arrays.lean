import Mathlib.Logic.Function.Basic
import Mathlib.Tactic.Common

/-! # Arrays by address

A heap gives the address of an allocated array its entries, some of which may
never have been written. Whoever owns an array knows its address and keeps a length
for it elsewhere.
-/

namespace Arrays

open Function

abbrev Heap (α : Type) := Nat → Option (List (Option α))

variable {α : Type}

/-- An array that is allocated, or handed over. -/
def put (heap : Heap α) (address : Nat) (entries : List (Option α)) : Heap α :=
  update heap address (some entries)

/-- `delete []`, which a null pointer is spared; `none` where there is no array. -/
def release (heap : Heap α) : Option Nat → Option (Heap α)
  | none => some heap
  | some address =>
      if (heap address).isSome then some (update heap address none) else none

/-- `none` where the entry is in no array. -/
def write (heap : Heap α) (address idx : Nat) (value : α) : Option (Heap α) :=
  (heap address).bind fun entries =>
    if idx < entries.length then some (put heap address (entries.set idx (some value))) else none

/-- `none` where the entry is in no array, or was never written. -/
def read (heap : Heap α) (address idx : Nat) : Option α :=
  (heap address).bind fun entries => (entries[idx]?).join

/-- The array has the length that is kept for it; without one the length is zero. -/
def Owns (heap : Heap α) (owned : Option Nat) (length : Nat) : Prop :=
  match owned with
  | none => length = 0
  | some address => ∃ entries, heap address = some entries ∧ entries.length = length

variable {heap next : Heap α} {owned : Option Nat} {address length idx : Nat}
  {entries : List (Option α)} {value : α}

@[simp] theorem put_same : put heap address entries address = some entries :=
  update_self _ _ _

theorem read_put : read (put heap address entries) address idx = (entries[idx]?).join := by
  rw [read, put_same, Option.bind_some]

theorem owns_some_iff (there : heap address = some entries) :
    Owns heap (some address) length ↔ entries.length = length := by
  constructor
  · rintro ⟨other, same, rfl⟩
    rw [there, Option.some.injEq] at same
    rw [same]
  · exact fun same => ⟨entries, there, same⟩

/-- What is owned can be released, and then no array is there. -/
theorem Owns.release (owns : Owns heap owned length) :
    ∃ next, Arrays.release heap owned = some next ∧
      (∀ other, owned = some other → next other = none) ∧
      ∀ other, owned ≠ some other → next other = heap other := by
  cases owned with
  | none => exact ⟨heap, rfl, (fun _ same => nomatch same), fun _ _ => rfl⟩
  | some address =>
      obtain ⟨entries, there, -⟩ := owns
      refine ⟨update heap address none, ?_, ?_, ?_⟩
      · rw [Arrays.release, there]
        rfl
      · intro other same
        cases same
        exact update_self _ _ _
      · intro other differs
        exact update_of_ne (fun same => differs (congrArg some same.symm)) _ _

/-- A write into the array keeps its length. -/
theorem Owns.write (owns : Owns heap (some address) length) (inside : idx < length) (value : α) :
    ∃ next, Arrays.write heap address idx value = some next ∧ Owns next (some address) length := by
  obtain ⟨entries, there, rfl⟩ := owns
  refine ⟨put heap address (entries.set idx (some value)), ?_, _, put_same, List.length_set⟩
  rw [Arrays.write, there, Option.bind_some, if_pos inside]

/-- It initialises an entry and leaves the others. -/
theorem read_write (wrote : write heap address idx value = some next) (other : Nat) :
    read next address other = if other = idx then some value else read heap address other := by
  obtain ⟨entries, there, inside⟩ := Option.bind_eq_some_iff.mp wrote
  split at inside
  · rename_i low
    rw [Option.some.injEq] at inside
    subst inside
    rw [read, read, put_same, there, Option.bind_some, Option.bind_some, List.getElem?_set]
    by_cases same : other = idx
    · rw [if_pos same, if_pos same.symm, if_pos (same ▸ low)]
      rfl
    · rw [if_neg same, if_neg (Ne.symm same)]
  · cases inside

end Arrays
