import Mathlib.Data.List.Basic
import Mathlib.Tactic.Common
import Mathlib.Algebra.Group.Nat.Defs
import Mathlib.Algebra.Group.Int.Defs

/-! # Messages on the wire

Base-128 varints, least significant group first, and the fields of a message in
the order of their numbers. A zero scalar and an empty string are left out; a
submessage that is set is written even when nothing is left of it. A field is
read back from the front of what remains of the message, provided that no other
field with its tag follows.
-/

namespace Proto3

abbrev Bytes := List (BitVec 8)

/-- What a serialisation library promises of one type of message. -/
structure Codec (Message : Type) where
  serialize : Message → Bytes
  parse : Bytes → Option Message
  parse_serialize : ∀ message, parse (serialize message) = some message

/-- At most `more` groups of seven bits. -/
def varintLoop : Nat → Nat → Bytes
  | 0, _ => []
  | more + 1, value =>
      if value < 128 then [BitVec.ofNat 8 value]
      else BitVec.ofNat 8 (value % 128 + 128) :: varintLoop more (value / 128)

def varint (value : Nat) : Bytes := varintLoop (value.log2 / 7 + 1) value

def getVarint : Bytes → Option (Nat × Bytes)
  | [] => none
  | byte :: rest =>
      if byte.toNat < 128 then some (byte.toNat, rest)
      else (getVarint rest).map fun read => (byte.toNat - 128 + 128 * read.1, read.2)

private theorem getVarint_small {value : Nat} (small : value < 128) {more : Nat} (rest : Bytes) :
    getVarint (varintLoop (more + 1) value ++ rest) = some (value, rest) := by
  have byte : (BitVec.ofNat 8 value).toNat = value :=
    Nat.mod_eq_of_lt (Nat.lt_trans small (by decide))
  rw [varintLoop, if_pos small, List.singleton_append, getVarint, byte, if_pos small]

private theorem getVarint_varintLoop (rest : Bytes) (more : Nat) : ∀ value : Nat,
    value < 128 ^ (more + 1) →
      getVarint (varintLoop (more + 1) value ++ rest) = some (value, rest) := by
  induction more with
  | zero =>
      intro value fits
      exact getVarint_small fits rest
  | succ more ih =>
      intro value fits
      by_cases small : value < 128
      · exact getVarint_small small rest
      · have byte : (BitVec.ofNat 8 (value % 128 + 128)).toNat = value % 128 + 128 :=
          Nat.mod_eq_of_lt (by omega)
        have left : value / 128 < 128 ^ (more + 1) := by
          rw [Nat.div_lt_iff_lt_mul (by decide), ← Nat.pow_succ]
          exact fits
        rw [varintLoop, if_neg small, List.cons_append, getVarint, byte, if_neg (by omega),
          ih _ left, Option.map_some]
        congr 2
        omega

private theorem lt_groups (value : Nat) : value < 128 ^ (value.log2 / 7 + 1) := by
  calc value < 2 ^ (value.log2 + 1) := Nat.lt_log2_self
    _ ≤ 2 ^ (7 * (value.log2 / 7 + 1)) := Nat.pow_le_pow_right (by decide) (by omega)
    _ = 128 ^ (value.log2 / 7 + 1) := Nat.pow_mul 2 7 _

@[simp] theorem getVarint_varint (value : Nat) (rest : Bytes) :
    getVarint (varint value ++ rest) = some (value, rest) :=
  getVarint_varintLoop rest _ value (lt_groups value)

/-! ## Fields -/

/-- The tag of a scalar field. -/
def scalarTag (num : Nat) : BitVec 8 := BitVec.ofNat 8 (num * 8)

/-- The tag of a string, a submessage or packed scalars. -/
def lengthTag (num : Nat) : BitVec 8 := BitVec.ofNat 8 (num * 8 + 2)

def scalar (num value : Nat) : Bytes :=
  if value = 0 then [] else scalarTag num :: varint value

def submessage (num : Nat) (payload : Bytes) : Bytes :=
  lengthTag num :: (varint payload.length ++ payload)

def string (num : Nat) (payload : Bytes) : Bytes :=
  if payload = [] then [] else submessage num payload

/-- The value of a scalar at the front of a message, zero where it is left out. -/
def getScalar (num : Nat) : Bytes → Option (Nat × Bytes)
  | [] => some (0, [])
  | byte :: rest => if byte = scalarTag num then getVarint rest else some (0, byte :: rest)

def getPayload (num : Nat) : Bytes → Option (Bytes × Bytes)
  | [] => some ([], [])
  | byte :: rest =>
      if byte = lengthTag num then
        match getVarint rest with
        | some (length, rest) =>
            if length ≤ rest.length then some (rest.take length, rest.drop length) else none
        | none => none
      else some ([], byte :: rest)

/-- The message does not begin with the tag. -/
def Skips (tag : BitVec 8) (message : Bytes) : Prop := ∀ byte ∈ message.head?, byte ≠ tag

theorem skips_nil (tag : BitVec 8) : Skips tag [] := fun _ none => nomatch none

theorem skips_scalar {tag : BitVec 8} {num : Nat} (apart : scalarTag num ≠ tag) (value : Nat)
    {rest : Bytes} (skips : Skips tag rest) : Skips tag (scalar num value ++ rest) := by
  unfold scalar
  split
  · exact skips
  · rintro byte same
    cases same
    exact apart

theorem skips_string {tag : BitVec 8} {num : Nat} (apart : lengthTag num ≠ tag) (payload : Bytes)
    {rest : Bytes} (skips : Skips tag rest) : Skips tag (string num payload ++ rest) := by
  unfold string
  split
  · exact skips
  · rintro byte same
    cases same
    exact apart

theorem getScalar_scalar {num : Nat} {rest : Bytes} (skips : Skips (scalarTag num) rest)
    (value : Nat) : getScalar num (scalar num value ++ rest) = some (value, rest) := by
  unfold scalar
  by_cases zero : value = 0
  · subst zero
    rw [if_pos rfl, List.nil_append]
    cases rest with
    | nil => rfl
    | cons byte rest => exact if_neg (skips byte rfl)
  · rw [if_neg zero, List.cons_append, getScalar, if_pos rfl, getVarint_varint]

theorem getPayload_submessage (num : Nat) (payload rest : Bytes) :
    getPayload num (submessage num payload ++ rest) = some (payload, rest) := by
  have enough : payload.length ≤ (payload ++ rest).length := by simp
  rw [submessage, List.cons_append, List.append_assoc, getPayload, if_pos rfl,
    getVarint_varint]
  simp only [if_pos enough, List.take_left, List.drop_left]

theorem getPayload_string {num : Nat} {rest : Bytes} (skips : Skips (lengthTag num) rest)
    (payload : Bytes) : getPayload num (string num payload ++ rest) = some (payload, rest) := by
  unfold string
  by_cases empty : payload = []
  · subst empty
    rw [if_pos rfl, List.nil_append]
    cases rest with
    | nil => rfl
    | cons byte rest => exact if_neg (skips byte rfl)
  · rw [if_neg empty]
    exact getPayload_submessage num payload rest

/-! ## Packed scalars -/

def pack (values : List Nat) : Bytes := values.flatMap varint

def unpackLoop : Nat → Bytes → Option (List Nat)
  | _, [] => some []
  | 0, _ :: _ => none
  | more + 1, message =>
      match getVarint message with
      | some (value, rest) => (unpackLoop more rest).map (value :: ·)
      | none => none

/-- A varint takes at least a byte, so there are no more scalars than bytes. -/
def unpack (message : Bytes) : Option (List Nat) := unpackLoop message.length message

theorem varint_ne_nil (value : Nat) : varint value ≠ [] := by
  unfold varint varintLoop
  split <;> exact List.cons_ne_nil _ _

private theorem unpackLoop_pack (values : List Nat) : ∀ more : Nat, values.length ≤ more →
    unpackLoop more (pack values) = some values := by
  induction values with
  | nil =>
      intro more _
      cases more <;> rfl
  | cons value values ih =>
      rintro (_ | more) fits
      · cases fits
      · obtain ⟨byte, rest, first⟩ := List.exists_cons_of_ne_nil (varint_ne_nil value)
        have parts : pack (value :: values) = byte :: (rest ++ pack values) := by
          rw [pack, List.flatMap_cons, first]
          rfl
        have read : getVarint (byte :: (rest ++ pack values)) = some (value, pack values) := by
          rw [← List.cons_append, ← first, getVarint_varint]
        rw [parts, unpackLoop, read]
        · simp only [ih more (Nat.le_of_succ_le_succ fits), Option.map_some]
        · exact fun none => nomatch none

theorem length_le_length_pack (values : List Nat) : values.length ≤ (pack values).length := by
  induction values with
  | nil => exact Nat.le_refl _
  | cons value values ih =>
      have some : 0 < (varint value).length := List.length_pos_of_ne_nil (varint_ne_nil value)
      rw [pack, List.flatMap_cons, List.length_append, List.length_cons]
      exact Nat.add_comm _ _ ▸ Nat.add_le_add some ih

@[simp] theorem unpack_pack (values : List Nat) : unpack (pack values) = some values :=
  unpackLoop_pack values _ (length_le_length_pack values)

end Proto3
