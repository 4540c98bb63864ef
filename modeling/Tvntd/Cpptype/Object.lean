import Mathlib.Data.List.Basic

/-! # Keys of objects

The key functions of `cpptype/object.h` and `cpptype/object.cpp`: 64-bit keys,
NUL-terminated string keys, and the hash and compare functions over them. A
pointer is a number and `0` is the null pointer.
-/

namespace Tvntd

abbrev Ptr := Nat

def nullptr : Ptr := 0

/-! ## 64-bit keys -/

abbrev Key64 := BitVec 64

/-- `obj_hash64` -/
def objHash64 (size : Nat) (key : Key64) : Nat := key.toNat % size

/-- `obj_compare64` and the compare functions of 64-bit keys: the difference of two `uint64_t`
returned as an `int`. -/
def objCompare64 (own key : Key64) : Int := ((own - key).setWidth 32).toInt

theorem objHash64_lt {size : Nat} (positive : 0 < size) (key : Key64) :
    objHash64 size key < size := Nat.mod_lt _ positive

/-- The narrowed difference is zero when the keys agree in their low half. -/
theorem objCompare64_eq_zero (own key : Key64) :
    objCompare64 own key = 0 ↔ own.setWidth 32 = key.setWidth 32 := by
  have narrowed : (own - key).setWidth 32 = own.setWidth 32 - key.setWidth 32 := by
    rw [BitVec.sub_eq_add_neg, BitVec.setWidth_add _ _ (by decide),
      BitVec.setWidth_neg_of_le (by decide), ← BitVec.sub_eq_add_neg]
  unfold objCompare64
  rw [narrowed]
  constructor
  · intro zero
    have same : own.setWidth 32 - key.setWidth 32 = 0#32 := BitVec.eq_of_toInt_eq zero
    rw [BitVec.sub_eq_iff_eq_add, BitVec.zero_add] at same
    exact same
  · intro same
    rw [same, BitVec.sub_self]
    rfl

/-! ## String keys -/

abbrev Byte := BitVec 8

/-- A NUL-terminated string: the bytes before its terminator. -/
structure CStr where
  bytes : List Byte
  ended : 0#8 ∉ bytes
  deriving DecidableEq

/-- The empty string has no terminator inside. -/
theorem CStr.ended_nil : 0#8 ∉ ([] : List Byte) := List.not_mem_nil

/-- Strings are equal when their bytes are. -/
theorem CStr.ext_iff (own other : CStr) : own = other ↔ own.bytes = other.bytes := by
  constructor
  · exact fun same => same ▸ rfl
  · intro same
    cases own
    cases other
    cases same
    rfl

/-- The loop of `obj_hash_strfn`; `char` is signed. -/
def objHashStrfnLoop (hash : BitVec 64) : List Byte → BitVec 64
  | [] => hash
  | c :: str => objHashStrfnLoop (((hash <<< 5) + hash) + c.signExtend 64) str

/-- `obj_hash_strfn` -/
def objHashStrfn (size : Nat) (str : List Byte) : Nat :=
  (objHashStrfnLoop 5381#64 str).toNat % size

/-- `strcmp`: the bytes are compared as `unsigned char`. -/
def strcmp : List Byte → List Byte → Int
  | [], [] => 0
  | [], b :: _ => -(b.toNat : Int)
  | a :: _, [] => a.toNat
  | a :: as, b :: bs => if a = b then strcmp as bs else (a.toNat : Int) - b.toNat

theorem objHashStrfn_lt {size : Nat} (positive : 0 < size) (str : List Byte) :
    objHashStrfn size str < size := Nat.mod_lt _ positive

private theorem byte_toNat_ne_zero {bytes : List Byte} (ended : 0#8 ∉ bytes) {b : Byte}
    (member : b ∈ bytes) : b.toNat ≠ 0 := by
  intro zero
  have nul : b = 0#8 := BitVec.eq_of_toNat_eq zero
  exact ended (nul ▸ member)

/-- On strings without a NUL inside, `strcmp` gives zero on equal strings only. -/
theorem strcmp_eq_zero {own key : List Byte} (ownEnded : 0#8 ∉ own) (keyEnded : 0#8 ∉ key) :
    strcmp own key = 0 ↔ own = key := by
  induction own generalizing key with
  | nil =>
      cases key with
      | nil => simp [strcmp]
      | cons b bs =>
          have positive := byte_toNat_ne_zero keyEnded List.mem_cons_self
          simp only [strcmp, reduceCtorEq, iff_false]
          omega
  | cons a as ih =>
      cases key with
      | nil =>
          have positive := byte_toNat_ne_zero ownEnded List.mem_cons_self
          simp only [strcmp, reduceCtorEq, iff_false]
          omega
      | cons b bs =>
          have tails := ih (fun inside => ownEnded (List.mem_cons_of_mem _ inside))
            (fun inside => keyEnded (List.mem_cons_of_mem _ inside))
          by_cases same : a = b
          · subst same
            rw [strcmp, if_pos rfl, tails, List.cons.injEq, and_iff_right rfl]
          · have differs : a.toNat ≠ b.toNat := fun equal => same (BitVec.eq_of_toNat_eq equal)
            rw [strcmp, if_neg same, List.cons.injEq]
            constructor
            · intro zero
              omega
            · exact fun equal => (same equal.1).elim

theorem strcmp_eq_zero_iff (own key : CStr) : strcmp own.bytes key.bytes = 0 ↔ own = key := by
  rw [strcmp_eq_zero own.ended key.ended, CStr.ext_iff]

end Tvntd
