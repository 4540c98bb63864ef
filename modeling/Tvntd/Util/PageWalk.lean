import Tvntd.Util.PageLock

/-! # The pages of a range

`pg_lock_range` and `pg_unlock_range` share one loop header. It visits the pages
that meet the range, unless the range ends in the last page of the address space:
`pg += pg_size` then wraps around to the page zero, and no page is above `endp`.
-/

namespace Tvntd

open Stride

namespace PageSize

variable (page : PageSize)

/-- `for (pg = start; pg <= endp; pg += pg_size)` of both functions. -/
def pageLoop {State : Type} (p size : BitVec 64) (body : State → BitVec 64 → Option State)
    (state : State) : Option State :=
  loop body page.pgSize (page.pageOf (p + size - 1)) pgTurns (page.pageOf p) state

/-- An address of the range is in the page. -/
def Meets (p size pg : BitVec 64) : Prop :=
  ∃ addr : BitVec 64, p.toNat ≤ addr.toNat ∧ addr.toNat < p.toNat + size.toNat ∧
    page.pageOf addr = pg

/-- The loops end and run their bodies on these pages, which are those that meet the range. -/
structure Walks (p size : BitVec 64) (pages : List (BitVec 64)) : Prop where
  ends : page.pageLoop p size (fun seen pg => some (seen ++ [pg])) [] = some pages
  lock : p ≠ 0 → ∀ lock pgLocked, pgLockRange page lock pgLocked p size =
    pages.foldlM (pgLockPage lock) ⟨pgLocked, true, []⟩
  unlock : p ≠ 0 → ∀ unlock pgLocked, pgUnlockRange page unlock pgLocked p size =
    pages.foldlM (pgUnlockPage unlock) (pgLocked, [])
  nodup : pages.Nodup
  meets : ∀ pg, pg ∈ pages ↔ page.Meets p size pg

variable {page} {p size : BitVec 64}

/-- The last address of a range that does not wrap around. -/
theorem toNat_lastAddr (filled : size ≠ 0) (fits : p.toNat + size.toNat ≤ 2 ^ 64) :
    (p + size - 1).toNat = p.toNat + size.toNat - 1 := by
  have positive : 0 < size.toNat := Nat.pos_of_ne_zero fun zero =>
      filled (BitVec.eq_of_toNat_eq zero)
  have one : (1 : BitVec 64).toNat = 1 := rfl
  rw [BitVec.toNat_sub, BitVec.toNat_add, one]
  omega

/-- The pages from the first to the last one of a range are those that meet it. -/
theorem meets_iff (filled : size ≠ 0) (fits : p.toNat + size.toNat ≤ 2 ^ 64) (pg : BitVec 64) :
    page.Meets p size pg ↔ page.pgSize.toNat ∣ pg.toNat ∧
      (page.pageOf p).toNat ≤ pg.toNat ∧ pg.toNat ≤ (page.pageOf (p + size - 1)).toNat := by
  have last := toNat_lastAddr filled fits
  have sizePos : 0 < size.toNat := Nat.pos_of_ne_zero fun zero =>
    filled (BitVec.eq_of_toNat_eq zero)
  have positive := page.pos
  constructor
  · rintro ⟨addr, lower, upper, rfl⟩
    refine ⟨page.dvd_pageOf addr, ?_, ?_⟩
    · rw [page.pageOf_toNat, page.pageOf_toNat]
      exact Nat.mul_le_mul_right _ (Nat.div_le_div_right lower)
    · rw [page.pageOf_toNat, page.pageOf_toNat, last]
      exact Nat.mul_le_mul_right _ (Nat.div_le_div_right (by omega))
  · rintro ⟨⟨i, aligned⟩, first, upper⟩
    rw [Nat.mul_comm] at aligned
    by_cases before : pg.toNat ≤ p.toNat
    · refine ⟨p, Nat.le_refl _, by omega, BitVec.eq_of_toNat_eq ?_⟩
      have within : i ≤ p.toNat / page.pgSize.toNat :=
        (Nat.le_div_iff_mul_le positive).mpr (aligned ▸ before)
      rw [page.pageOf_toNat] at first ⊢
      exact Nat.le_antisymm first (aligned ▸ Nat.mul_le_mul_right _ within)
    · have below := Nat.div_mul_le_self (p + size - 1).toNat page.pgSize.toNat
      rw [page.pageOf_toNat] at upper
      refine ⟨pg, by omega, by omega, BitVec.eq_of_toNat_eq ?_⟩
      rw [page.pageOf_toNat, aligned, Nat.mul_div_cancel _ positive]

/-- The pages visited, as a loop that collects them sees them. -/
theorem foldlM_collect (pages seen : List (BitVec 64)) :
    pages.foldlM (fun seen pg => some (seen ++ [pg])) seen = some (seen ++ pages) := by
  induction pages generalizing seen with
  | nil => rw [List.foldlM_nil, List.append_nil]; rfl
  | cons pg rest ih =>
      rw [List.foldlM_cons, Option.bind_eq_bind, Option.bind_some, ih, List.append_assoc,
        List.singleton_append]

/-- **The pages of a range.** The loops end, having visited each page of the range once, exactly
where the range ends before the last page of the address space. -/
theorem walks_iff_not_endless (page : PageSize) {p size : BitVec 64} (filled : size ≠ 0)
    (fits : p.toNat + size.toNat ≤ 2 ^ 64) :
    (∃ pages, page.Walks p size pages) ↔ ¬ page.Endless p size := by
  constructor
  · rintro ⟨pages, walks⟩ endless
    have stuck := walks.ends
    rw [pageLoop, loop_endless endless] at stuck
    cases stuck
  · intro ends
    have given : p ≠ 0 → ¬ (p = 0 ∨ size = 0) := fun some => not_or.mpr ⟨some, filled⟩
    refine ⟨page.visited p size, ?_, ?_, ?_, visited_nodup ends, ?_⟩
    · rw [pageLoop, loop_visited ends, foldlM_collect, List.nil_append]
    · intro some lock pgLocked
      rw [pgLockRange, if_neg (given some), loop_visited ends]
    · intro some unlock pgLocked
      rw [pgUnlockRange, if_neg (given some), loop_visited ends]
    · intro pg
      rw [mem_visited ends, meets_iff filled fits]

/-- Two bytes on both sides of a page boundary. -/
theorem walks_iff_not_endless_boundary : ∃ pages, fourK.Walks 8191 2 pages :=
  (walks_iff_not_endless fourK (by decide) (by decide)).mpr (by decide)

/-- One byte of the last page. -/
theorem lastByte_not_walks :
    (0xFFFFFFFFFFFFFFFF : BitVec 64).toNat + (1 : BitVec 64).toNat ≤ 2 ^ 64 ∧
      ¬ ∃ pages, fourK.Walks 0xFFFFFFFFFFFFFFFF 1 pages := by
  refine ⟨by decide, ?_⟩
  rintro ⟨pages, walks⟩
  have stuck := walks.ends
  rw [pageLoop, loop_endless (by decide)] at stuck
  cases stuck

end PageSize

end Tvntd
