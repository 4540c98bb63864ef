import Mathlib.Data.List.Nodup
import Tvntd.Lib.Bytes

/-! # Singly linked lists of offsets in shared memory

The inline functions of `include/ctype/shm-slist.h`. A list has a root with the
offsets of its first and last element, and every element has the offset of the
next one, all relative to one base. The base is address 0 here and the root has
an address of its own. `none` is a failed `verify` or `assert`.
-/

namespace Tvntd

open Bytewise

/-- `IDX_NIL`, -1 as a `uint32_t`. -/
def idxNil : Nat := 2 ^ 32 - 1

/-- `il_next` -/
def ilNext (mem : Bytes) (off : Nat) : Nat := read mem off 4

def islHead (mem : Bytes) (root : Nat) : Nat := read mem root 4

def islTail (mem : Bytes) (root : Nat) : Nat := read mem (root + 4) 4

def setNext (off value : Nat) : Store := ⟨off, 4, value⟩

def setHead (root value : Nat) : Store := ⟨root, 4, value⟩

def setTail (root value : Nat) : Store := ⟨root + 4, 4, value⟩

def ilinkInit (mem : Bytes) (elem : Nat) : Bytes := stores mem [setNext elem idxNil]

def islInit (mem : Bytes) (root : Nat) : Bytes :=
  stores mem [setHead root idxNil, setTail root idxNil]

def islEmpty (mem : Bytes) (root : Nat) : Bool :=
  islHead mem root = idxNil && islTail mem root = idxNil

/-- The stores of `isl_add_front`, in program order. -/
def islAddFrontStores (mem : Bytes) (root elmOff : Nat) : List Store :=
  let linked := [setNext elmOff (islHead mem root), setHead root elmOff]
  if islTail (stores mem linked) root = idxNil then linked ++ [setTail root elmOff] else linked

def islAddFront (mem : Bytes) (bound : BitVec 32) (root elmOff : Nat) : Option Bytes :=
  if elmOff < bound.toNat ∧ islHead mem root < bound.toNat ∧ islTail mem root < bound.toNat then
    some (stores mem (islAddFrontStores mem root elmOff))
  else none

/-- The stores of `isl_rm_front` on a list with an element, in program order. -/
def islRmFrontStores (mem : Bytes) (root : Nat) : List Store :=
  if islHead mem root = idxNil then []
  else
    let elem := islHead mem root
    let unlinked := [setHead root (ilNext mem elem), setNext elem idxNil]
    if islHead (stores mem unlinked) root = idxNil then unlinked ++ [setTail root idxNil]
    else unlinked

/-- The element is given by its offset; `none` in its place is a null pointer. -/
def islRmFront (mem : Bytes) (bound : BitVec 32) (root : Nat) : Option (Option Nat × Bytes) :=
  if islHead mem root = idxNil then some (none, mem)
  else if islHead mem root < bound.toNat ∧ ilNext mem (islHead mem root) < bound.toNat then
    some (some (islHead mem root), stores mem (islRmFrontStores mem root))
  else none

/-- The stores of `isl_add_back`, in program order. -/
def islAddBackStores (mem : Bytes) (root elmOff : Nat) : List Store :=
  let cleared := stores mem [setNext elmOff idxNil]
  if islTail cleared root = idxNil then
    [setNext elmOff idxNil, setHead root elmOff, setTail root elmOff]
  else [setNext elmOff idxNil, setNext (islTail cleared root) elmOff, setTail root elmOff]

def islAddBack (mem : Bytes) (bound : BitVec 32) (root elmOff : Nat) : Option Bytes :=
  if elmOff < bound.toNat ∧ islTail mem root < bound.toNat ∧ islHead mem root < bound.toNat then
    let cleared := stores mem [setNext elmOff idxNil]
    if islTail cleared root = idxNil ∨ ilNext cleared (islTail cleared root) = idxNil then
      some (stores mem (islAddBackStores mem root elmOff))
    else none
  else none

/-! ## Well-formed lists -/

/-- From an offset on, the links lead through these elements to a last offset. -/
def Walk (mem : Bytes) (last : Nat) : Nat → List Nat → Prop
  | first, [] => first = last
  | first, elm :: rest => first = elm ∧ Walk mem last (ilNext mem elm) rest

abbrev Chain (mem : Bytes) (first : Nat) (elms : List Nat) : Prop := Walk mem idxNil first elms

/-- The root stands for a list of elements inside the segment; no two of their links, and no
link and the root, share a byte. -/
structure IsList (mem : Bytes) (bound : BitVec 32) (root : Nat) (elms : List Nat) : Prop where
  inside : ∀ elm ∈ elms, elm < bound.toNat
  clear : ∀ elm ∈ elms, Apart elm 4 root 8
  apart : elms.Pairwise fun first second => Apart first 4 second 4
  chain : Chain mem (islHead mem root) elms
  tail : islTail mem root = elms.getLast?.getD idxNil

/-- An element that may be linked: it is inside the segment and overlaps no link and no root. -/
structure Unlinked (bound : BitVec 32) (root : Nat) (elms : List Nat) (elm : Nat) : Prop where
  inside : elm < bound.toNat
  clear : Apart elm 4 root 8
  apart : ∀ other ∈ elms, Apart elm 4 other 4

variable {mem : Bytes} {bound : BitVec 32} {root : Nat} {elms : List Nat}

private theorem lt_idxNil {off : Nat} (inside : off < bound.toNat) : off < idxNil :=
  Nat.lt_of_lt_of_le inside (Nat.le_sub_one_of_lt bound.isLt)

theorem ne_idxNil {off : Nat} (inside : off < bound.toNat) : off ≠ idxNil :=
  Nat.ne_of_lt (lt_idxNil inside)

theorem not_idxNil_lt (bound : BitVec 32) : ¬ idxNil < bound.toNat :=
  fun inside => ne_idxNil inside rfl

/-- An offset of the segment fits its field. -/
theorem inside_fits {off : Nat} (inside : off < bound.toNat) : off < 256 ^ 4 :=
  Nat.lt_trans inside bound.isLt

theorem walk_congr {other : Bytes} {last first : Nat}
    (same : ∀ elm ∈ elms, ilNext other elm = ilNext mem elm) (walk : Walk mem last first elms) :
    Walk other last first elms := by
  induction elms generalizing first with
  | nil => exact walk
  | cons elm rest ih =>
      refine ⟨walk.1, ?_⟩
      rw [same elm List.mem_cons_self]
      exact ih (fun later member => same later (List.mem_cons_of_mem _ member)) walk.2

theorem Walk.suffix {last elm : Nat} {before after : List Nat} : ∀ {first : Nat},
    Walk mem last first (before ++ elm :: after) → Walk mem last elm (elm :: after) := by
  induction before with
  | nil => exact fun walk => ⟨rfl, walk.2⟩
  | cons head rest ih => exact fun walk => ih walk.2

/-- The links determine the elements of a chain. -/
theorem Walk.unique {first : Nat} {others : List Nat} (inside : ∀ elm ∈ elms, elm ≠ idxNil)
    (otherInside : ∀ elm ∈ others, elm ≠ idxNil) (chain : Chain mem first elms)
    (other : Chain mem first others) : elms = others := by
  induction elms generalizing first others with
  | nil =>
      cases others with
      | nil => rfl
      | cons elm rest =>
          exact (otherInside elm List.mem_cons_self (other.1.symm.trans chain)).elim
  | cons elm rest ih =>
      cases others with
      | nil => exact (inside elm List.mem_cons_self (chain.1.symm.trans other)).elim
      | cons head later =>
          obtain ⟨rfl, linked⟩ := chain
          obtain ⟨rfl, otherLinked⟩ := other
          rw [ih (fun x member => inside x (List.mem_cons_of_mem _ member))
            (fun x member => otherInside x (List.mem_cons_of_mem _ member)) linked otherLinked]

/-- A chain that ends visits no element twice. -/
theorem Walk.nodup {first : Nat} (inside : ∀ elm ∈ elms, elm ≠ idxNil)
    (chain : Chain mem first elms) : elms.Nodup := by
  induction elms generalizing first with
  | nil => exact List.nodup_nil
  | cons elm rest ih =>
      have restInside := fun x member => inside x (List.mem_cons_of_mem _ member)
      refine List.nodup_cons.mpr ⟨?_, ih restInside chain.2⟩
      intro again
      obtain ⟨before, after, rfl⟩ := List.append_of_mem again
      have afterInside : ∀ x ∈ elm :: after, x ≠ idxNil := fun x member =>
        restInside x (List.mem_append_right _ member)
      have same := Walk.unique inside afterInside (chain.1 ▸ chain) chain.2.suffix
      have length := congrArg List.length same
      simp only [List.length_cons, List.length_append] at length
      omega

/-- The last element of a chain has no successor. -/
theorem chain_getLast {first : Nat} (nonempty : elms ≠ []) (chain : Chain mem first elms) :
    ilNext mem (elms.getLast nonempty) = idxNil := by
  induction elms generalizing first with
  | nil => exact (nonempty rfl).elim
  | cons elm rest ih =>
      cases rest with
      | nil => exact chain.2
      | cons next later =>
          rw [List.getLast_cons (List.cons_ne_nil next later)]
          exact ih (List.cons_ne_nil next later) chain.2

theorem apart_head {off width : Nat} (clear : Apart off width root 8) : Apart off width root 4 := by
  rcases clear with before | after
  · exact .inl before
  · exact .inr (by omega)

theorem apart_tail {off width : Nat} (clear : Apart off width root 8) :
    Apart off width (root + 4) 4 := by
  rcases clear with before | after
  · exact .inl (by omega)
  · exact .inr (by omega)

/-- The two words of the root are apart. -/
theorem apart_root (root : Nat) : Apart root 4 (root + 4) 4 := .inl (Nat.le_refl _)

namespace IsList

/-- The memory is only seen through the links of the elements and the root. -/
theorem congr {other : Bytes} (list : IsList mem bound root elms)
    (links : ∀ elm ∈ elms, ilNext other elm = ilNext mem elm)
    (head : islHead other root = islHead mem root) (tail : islTail other root = islTail mem root) :
    IsList other bound root elms where
  inside := list.inside
  clear := list.clear
  apart := list.apart
  chain := by
    rw [head]
    exact walk_congr links list.chain
  tail := tail.trans list.tail

/-- A store to an element that is not linked keeps the list. -/
theorem setUnlinked (list : IsList mem bound root elms) {elm : Nat}
    (unlinked : Unlinked bound root elms elm) (value : Nat) :
    IsList (stores mem [setNext elm value]) bound root elms :=
  list.congr (fun other member => read_write_of_apart value (unlinked.apart other member))
    (read_write_of_apart value (apart_head unlinked.clear))
      (read_write_of_apart value (apart_tail unlinked.clear))

theorem head_eq (list : IsList mem bound root elms) :
    islHead mem root = elms.head?.getD idxNil := by
  cases elms with
  | nil => exact list.chain
  | cons elm rest => exact list.chain.1

/-- Both offsets of the root are `IDX_NIL` exactly when the list is empty. -/
theorem islEmpty_iff (list : IsList mem bound root elms) :
    islEmpty mem root = true ↔ elms = [] := by
  unfold islEmpty
  rw [list.head_eq, list.tail]
  cases elms with
  | nil => exact iff_of_true (by decide) rfl
  | cons elm rest =>
      have nonempty : elm ≠ idxNil := ne_idxNil (list.inside elm List.mem_cons_self)
      simp [nonempty]

theorem tail_inside (list : IsList mem bound root elms) (nonempty : elms ≠ []) :
    islTail mem root ∈ elms := by
  rw [list.tail, List.getLast?_eq_getLast_of_ne_nil nonempty]
  exact List.getLast_mem nonempty

theorem head_inside (list : IsList mem bound root elms) (nonempty : elms ≠ []) :
    islHead mem root ∈ elms := by
  obtain ⟨elm, rest, rfl⟩ := List.exists_cons_of_ne_nil nonempty
  rw [list.head_eq]
  exact List.mem_cons_self

/-- The links of a list end at its last element. -/
theorem tail_next (list : IsList mem bound root elms) (nonempty : elms ≠ []) :
    ilNext mem (islTail mem root) = idxNil := by
  rw [list.tail, List.getLast?_eq_getLast_of_ne_nil nonempty]
  exact chain_getLast nonempty list.chain

end IsList

end Tvntd
