import Mathlib.Tactic.Ring

/-! # Halving in step

A number is halved in step with a clock: once, and again as long as the clock was
odd, the clock being halved too. `evens` counts the halvings at which the number
was even and `remains` is what is left of it. The clocks that leave nothing of
themselves are `2 ^ r - 1`, and there nothing is left of a number that was even
exactly once if and only if it has `r + 1` binary digits of which one is 0.
-/

namespace Halving

/-- How often the number is even when it is halved. -/
def evens (number clock : Nat) : Nat :=
  (if number % 2 = 0 then 1 else 0) + if clock % 2 = 1 then evens (number / 2) (clock / 2) else 0
termination_by clock
decreasing_by omega

/-- What is left of the number. -/
def remains (number clock : Nat) : Nat :=
  if clock % 2 = 1 then remains (number / 2) (clock / 2) else number / 2
termination_by clock
decreasing_by omega

variable {number clock : Nat}

theorem evens_of_odd (odd : clock % 2 = 1) : evens number clock =
    (if number % 2 = 0 then 1 else 0) + evens (number / 2) (clock / 2) := by
  rw [evens, if_pos odd]

theorem evens_of_even (even : clock % 2 ≠ 1) :
    evens number clock = if number % 2 = 0 then 1 else 0 := by
  rw [evens, if_neg even, Nat.add_zero]

theorem remains_of_odd (odd : clock % 2 = 1) :
    remains number clock = remains (number / 2) (clock / 2) := by
  rw [remains, if_pos odd]

theorem remains_of_even (even : clock % 2 ≠ 1) : remains number clock = number / 2 := by
  rw [remains, if_neg even]

/-- `2 ^ r - 1` is `r` binary ones. -/
theorem ones_succ (r : Nat) : (2 ^ (r + 1) - 1) % 2 = 1 ∧ (2 ^ (r + 1) - 1) / 2 = 2 ^ r - 1 := by
  have positive := Nat.two_pow_pos r
  rw [pow_succ]
  omega

/-- The clocks that leave nothing of themselves. -/
theorem remains_self_iff : remains clock clock = 0 ↔ ∃ r, clock = 2 ^ r - 1 := by
  induction clock using Nat.strongRecOn with
  | ind clock ih =>
      by_cases odd : clock % 2 = 1
      · rw [remains_of_odd odd, ih (clock / 2) (by omega)]
        constructor
        · rintro ⟨r, half⟩
          have step := ones_succ r
          exact ⟨r + 1, by omega⟩
        · rintro ⟨r, rfl⟩
          cases r with
          | zero => exact absurd odd (by decide)
          | succ r => exact ⟨r, (ones_succ r).2⟩
      · rw [remains_of_even odd]
        constructor
        · intro none
          exact ⟨0, by omega⟩
        · rintro ⟨r, rfl⟩
          cases r with
          | zero => rfl
          | succ r => exact absurd (ones_succ r).1 odd

/-- Nothing is left of a number that was never even: it is all ones. -/
theorem remains_never_even_iff (r : Nat) : ∀ number,
    (remains number (2 ^ r - 1) = 0 ∧ evens number (2 ^ r - 1) = 0) ↔ number = 2 ^ (r + 1) - 1 := by
  induction r with
  | zero =>
      intro number
      rw [remains_of_even (by decide), evens_of_even (by decide)]
      split
      · omega
      · omega
  | succ r ih =>
      intro number
      have clock := ones_succ r
      have step := ones_succ (r + 1)
      rw [remains_of_odd clock.1, evens_of_odd clock.1, clock.2]
      have half := ih (number / 2)
      split
      · omega
      · omega

/-- Nothing is left of a number that was even once: it has one binary zero. -/
theorem remains_once_even_iff (r : Nat) : ∀ number,
    (remains number (2 ^ r - 1) = 0 ∧ evens number (2 ^ r - 1) = 1) ↔
      ∃ j ≤ r, number + 1 + 2 ^ j = 2 ^ (r + 1) := by
  induction r with
  | zero =>
      intro number
      rw [remains_of_even (by decide), evens_of_even (by decide)]
      constructor
      · rintro ⟨none, once⟩
        refine ⟨0, Nat.le_refl 0, ?_⟩
        split at once
        · omega
        · omega
      · rintro ⟨j, least, sum⟩
        obtain rfl : j = 0 := by omega
        obtain rfl : number = 0 := by omega
        exact ⟨rfl, rfl⟩
  | succ r ih =>
      intro number
      have clock := ones_succ r
      rw [remains_of_odd clock.1, evens_of_odd clock.1, clock.2]
      have never := remains_never_even_iff r (number / 2)
      have positive := Nat.two_pow_pos (r + 1)
      by_cases even : number % 2 = 0
      · -- the even halving is the first one, and all later ones are odd
        rw [if_pos even]
        constructor
        · rintro ⟨none, rest⟩
          refine ⟨0, Nat.zero_le _, ?_⟩
          have all := never.mp ⟨none, by omega⟩
          rw [pow_succ 2 (r + 1)]
          omega
        · rintro ⟨j, -, sum⟩
          have first : j = 0 := by
            cases j with
            | zero => rfl
            | succ j =>
                rw [pow_succ, pow_succ] at sum
                omega
          subst first
          rw [pow_succ 2 (r + 1)] at sum
          have all := never.mpr (by omega)
          exact ⟨all.1, by omega⟩
      · rw [if_neg even, Nat.zero_add, ih (number / 2)]
        clear never
        constructor
        · rintro ⟨j, least, sum⟩
          refine ⟨j + 1, by omega, ?_⟩
          rw [pow_succ, pow_succ 2 (r + 1)]
          omega
        · rintro ⟨j, least, sum⟩
          rw [pow_succ 2 (r + 1)] at sum
          cases j with
          | zero =>
              rw [pow_zero] at sum
              omega
          | succ j =>
              rw [pow_succ 2 j] at sum
              exact ⟨j, by omega, by omega⟩

end Halving
