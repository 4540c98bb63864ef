import Mathlib.Data.List.Nodup
import Mathlib.Data.List.Range
import Mathlib.Algebra.Group.Nat.Defs
import Mathlib.Algebra.Group.Int.Defs

/-! # Loops over machine words with a stride

A loop from a first to a last word, both included, in steps of a stride. The
counter wraps, so a loop ends after the words of `strides`, unless its last word
is the last multiple of the stride: then the counter never gets past it.
-/

universe u

namespace Stride

variable {w : Nat} {State : Type u}

/-- The loop cut off after some turns. -/
def loop (body : State → BitVec w → Option State) (stride last : BitVec w) :
    Nat → BitVec w → State → Option State
  | 0, _, _ => none
  | turns + 1, pos, state =>
      if pos ≤ last then (body state pos).bind (loop body stride last turns (pos + stride))
      else some state

/-- Words one stride apart. -/
def strides (stride : BitVec w) : Nat → BitVec w → List (BitVec w)
  | 0, _ => []
  | count + 1, pos => pos :: strides stride count (pos + stride)

theorem length_strides (stride : BitVec w) (count : Nat) :
    ∀ first, (strides stride count first).length = count := by
  induction count with
  | zero => exact fun _ => rfl
  | succ count ih => exact fun first => congrArg (· + 1) (ih (first + stride))

variable {body : State → BitVec w → Option State} {stride last pos : BitVec w}

theorem toNat_add_stride {count : Nat} (ends : pos.toNat + (count + 1) * stride.toNat < 2 ^ w) :
    (pos + stride).toNat = pos.toNat + stride.toNat := by
  rw [BitVec.toNat_add, Nat.mod_eq_of_lt]
  rw [Nat.succ_mul] at ends
  omega

/-- The words of `strides` are the numbers one stride apart, while these do not wrap. -/
theorem mem_strides {count : Nat} {word : BitVec w} :
    ∀ {pos : BitVec w}, pos.toNat + count * stride.toNat < 2 ^ w →
      (word ∈ strides stride count pos ↔
        ∃ i < count, word.toNat = pos.toNat + i * stride.toNat) := by
  induction count with
  | zero => exact fun _ => iff_of_false (List.not_mem_nil) (by simp)
  | succ count ih =>
      intro pos ends
      have next := toNat_add_stride ends
      have later : (pos + stride).toNat + count * stride.toNat < 2 ^ w := by
        rw [next, Nat.add_assoc, Nat.add_comm stride.toNat, ← Nat.succ_mul]
        exact ends
      rw [strides, List.mem_cons, ih later, next]
      constructor
      · rintro (rfl | ⟨i, below, same⟩)
        · exact ⟨0, Nat.succ_pos count, by rw [Nat.zero_mul, Nat.add_zero]⟩
        · exact ⟨i + 1, Nat.succ_lt_succ below, by rw [same, Nat.succ_mul]; omega⟩
      · rintro ⟨i, below, same⟩
        cases i with
        | zero => exact .inl (BitVec.eq_of_toNat_eq (by rw [same, Nat.zero_mul, Nat.add_zero]))
        | succ i =>
            exact .inr ⟨i, Nat.lt_of_succ_lt_succ below, by rw [same, Nat.succ_mul]; omega⟩

theorem strides_nodup {count : Nat} (positive : 0 < stride.toNat) :
    ∀ {pos : BitVec w}, pos.toNat + count * stride.toNat < 2 ^ w →
      (strides stride count pos).Nodup := by
  induction count with
  | zero => exact fun _ => List.nodup_nil
  | succ count ih =>
      intro pos ends
      have next := toNat_add_stride ends
      have later : (pos + stride).toNat + count * stride.toNat < 2 ^ w := by
        rw [next, Nat.add_assoc, Nat.add_comm stride.toNat, ← Nat.succ_mul]
        exact ends
      refine List.nodup_cons.mpr ⟨?_, ih later⟩
      rw [mem_strides later, next]
      rintro ⟨i, -, same⟩
      omega

/-- **A loop that gets past its last word** runs its body on the words up to there. -/
theorem loop_eq_foldlM {count : Nat} (positive : 0 < stride.toNat) :
    ∀ {turns : Nat} {pos : BitVec w} {state : State}, count < turns →
      pos.toNat + count * stride.toNat = last.toNat + stride.toNat →
        last.toNat + stride.toNat < 2 ^ w →
          loop body stride last turns pos state = (strides stride count pos).foldlM body state := by
  induction count with
  | zero =>
      intro turns pos state enough ends _
      obtain ⟨turns, rfl⟩ := Nat.exists_eq_succ_of_ne_zero (Nat.ne_of_gt enough)
      rw [loop, if_neg, strides, List.foldlM_nil]
      · rfl
      · rw [BitVec.le_def]
        omega
  | succ count ih =>
      intro turns pos state enough ends fits
      obtain ⟨turns, rfl⟩ := Nat.exists_eq_succ_of_ne_zero (Nat.ne_of_gt (Nat.zero_lt_of_lt enough))
      have next := toNat_add_stride (by rw [ends]; exact fits)
      rw [Nat.succ_mul] at ends
      rw [loop, if_pos, strides, List.foldlM_cons]
      · cases ran : body state pos with
        | none => rfl
        | some after => exact ih (Nat.lt_of_succ_lt_succ enough) (by omega) fits
      · rw [BitVec.le_def]
        omega

/-- A loop that starts past its last word does nothing. -/
theorem loop_of_lt {turns : Nat} {state : State} (past : last.toNat < pos.toNat) :
    loop body stride last (turns + 1) pos state = some state := by
  rw [loop, if_neg]
  rw [BitVec.le_def]
  omega

/-- **A loop to the last multiple of its stride never ends.** -/
theorem loop_eq_none (divides : stride.toNat ∣ 2 ^ w)
    (lastWord : last.toNat + stride.toNat = 2 ^ w) :
    ∀ {turns : Nat} {pos : BitVec w} {state : State}, stride.toNat ∣ pos.toNat →
      loop body stride last turns pos state = none := by
  intro turns
  induction turns with
  | zero => exact fun _ => rfl
  | succ turns ih =>
      intro pos state aligned
      have below : pos.toNat + stride.toNat ≤ 2 ^ w := by
        obtain ⟨count, total⟩ := divides
        obtain ⟨i, here⟩ := aligned
        have inside : stride.toNat * i < stride.toNat * count := by
          rw [← total, ← here]
          exact pos.isLt
        rw [total, here, ← Nat.mul_succ]
        exact Nat.mul_le_mul_left _ (Nat.lt_of_mul_lt_mul_left inside)
      have wrapped : stride.toNat ∣ (pos + stride).toNat := by
        rw [BitVec.toNat_add]
        exact (Nat.dvd_mod_iff divides).mpr (Nat.dvd_add aligned (Nat.dvd_refl _))
      rw [loop, if_pos]
      · cases ran : body state pos with
        | none => rfl
        | some after => exact ih wrapped
      · rw [BitVec.le_def]
        omega

end Stride
