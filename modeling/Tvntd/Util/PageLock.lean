import Mathlib.Data.Nat.Bitwise
import Mathlib.Logic.Function.Basic
import Tvntd.Lib.Stride
import Tvntd.Ctype.Dhash

/-! # Page locks

The model of `common/util/pagelock.cpp`. `pg_locked` counts for every page the
ranges that were locked over it; `lock` and `unlock` are parameters that say for
which pages the system calls succeed, and a call lists those that did. `none` is
a failed `verify`, a counter that overflows, or a loop that never ends.
-/

namespace Tvntd

open Stride Function

/-- The page size is a power of two, as the constructor asserts. -/
structure PageSize where
  pgSize : BitVec 64
  power : ∃ shift < 64, pgSize.toNat = 2 ^ shift

def PageSize.pgMask (page : PageSize) : BitVec 64 := ~~~(page.pgSize - 1)

def PageSize.pageOf (page : PageSize) (addr : BitVec 64) : BitVec 64 := addr &&& page.pgMask

/-- `pg_locked` -/
abbrev AdrMap := BitVec 64 → Option Int

/-- A system call that succeeded. -/
inductive PageCall where
  | lock (pg : BitVec 64)
  | unlock (pg : BitVec 64)
  deriving DecidableEq

/-- More turns than there are addresses: a loop that takes them never ends. -/
def pgTurns : Nat := 2 ^ 64 + 1

/-- The state of the loop in `pg_lock_range`. -/
structure LockLoop where
  pgLocked : AdrMap
  ret : Bool
  calls : List PageCall

def pgLockPage (lock : BitVec 64 → Bool) (state : LockLoop) (pg : BitVec 64) : Option LockLoop :=
  match state.pgLocked pg with
  | none =>
      if lock pg then
        some { state with
          pgLocked := update state.pgLocked pg (some 1)
          calls := state.calls ++ [.lock pg] }
      else some { state with ret := false }
  | some count =>
      (intValue (count + 1)).map fun next =>
        { state with pgLocked := update state.pgLocked pg (some next) }

def pgLockRange (page : PageSize) (lock : BitVec 64 → Bool) (pgLocked : AdrMap)
    (p size : BitVec 64) : Option LockLoop :=
  if p = 0 ∨ size = 0 then some ⟨pgLocked, false, []⟩
  else loop (pgLockPage lock) page.pgSize (page.pageOf (p + size - 1)) pgTurns (page.pageOf p)
    ⟨pgLocked, true, []⟩

def pgUnlockPage (unlock : BitVec 64 → Bool) (state : AdrMap × List PageCall) (pg : BitVec 64) :
    Option (AdrMap × List PageCall) :=
  match state.1 pg with
  | none => none
  | some count =>
      if count = 0 then
        -- `verify(ret == 0)`, where `ret` is true on success
        if unlock pg then none else some (update state.1 pg none, state.2)
      else some state

def pgUnlockRange (page : PageSize) (unlock : BitVec 64 → Bool) (pgLocked : AdrMap)
    (p size : BitVec 64) : Option (AdrMap × List PageCall) :=
  if p = 0 ∨ size = 0 then some (pgLocked, [])
  else loop (pgUnlockPage unlock) page.pgSize (page.pageOf (p + size - 1)) pgTurns (page.pageOf p)
    (pgLocked, [])

/-! ## Pages -/

namespace PageSize

variable (page : PageSize)

theorem pos : 0 < page.pgSize.toNat := by
  obtain ⟨shift, -, power⟩ := page.power
  rw [power]
  exact Nat.two_pow_pos shift

theorem dvd : page.pgSize.toNat ∣ 2 ^ 64 := by
  obtain ⟨shift, below, power⟩ := page.power
  rw [power]
  exact Nat.pow_dvd_pow 2 (Nat.le_of_lt below)

theorem pageOf_toNat (addr : BitVec 64) :
    (page.pageOf addr).toNat = addr.toNat / page.pgSize.toNat * page.pgSize.toNat := by
  obtain ⟨shift, -, power⟩ := page.power
  have low : (page.pgSize - 1).toNat = 2 ^ shift - 1 := by
    have positive : 0 < 2 ^ shift := Nat.two_pow_pos shift
    have one : (1 : BitVec 64).toNat = 1 := rfl
    rw [BitVec.toNat_sub_of_le, power, one]
    rw [BitVec.le_def, power, one]
    omega
  unfold pageOf pgMask
  apply Nat.eq_of_testBit_eq
  intro i
  rw [power, ← Nat.shiftRight_eq_div_pow, ← Nat.shiftLeft_eq, Nat.testBit_shiftLeft,
    Nat.testBit_shiftRight, BitVec.testBit_toNat, BitVec.getLsbD_and, BitVec.getLsbD_not,
    ← BitVec.testBit_toNat, ← BitVec.testBit_toNat, low, Nat.testBit_two_pow_sub_one]
  by_cases high : shift ≤ i
  · rw [show shift + (i - shift) = i by omega]
    by_cases inside : i < 64
    · simp [high, inside]
    · have zero : addr.toNat.testBit i = false := Nat.testBit_lt_two_pow
        (Nat.lt_of_lt_of_le addr.isLt (Nat.pow_le_pow_right (by decide) (Nat.not_lt.mp inside)))
      simp [zero]
  · have below : i < shift := by omega
    simp [high, below]

theorem dvd_pageOf (addr : BitVec 64) : page.pgSize.toNat ∣ (page.pageOf addr).toNat := by
  rw [page.pageOf_toNat]
  exact Nat.dvd_mul_left _ _

/-- A page ends inside the address space. -/
theorem pageOf_add_le (addr : BitVec 64) :
    (page.pageOf addr).toNat + page.pgSize.toNat ≤ 2 ^ 64 := by
  obtain ⟨count, total⟩ := page.dvd
  obtain ⟨i, here⟩ := page.dvd_pageOf addr
  have inside : page.pgSize.toNat * i < page.pgSize.toNat * count := by
    rw [← total, ← here]
    exact (page.pageOf addr).isLt
  rw [total, here, ← Nat.mul_succ]
  exact Nat.mul_le_mul_left _ (Nat.lt_of_mul_lt_mul_left inside)

/-- The last page of the range is the last page of the address space. -/
def Endless (p size : BitVec 64) : Prop :=
  (page.pageOf (p + size - 1)).toNat + page.pgSize.toNat = 2 ^ 64

instance (p size : BitVec 64) : Decidable (page.Endless p size) :=
    inferInstanceAs (Decidable (_ = _))

/-- The pages that the loops over a range visit. -/
def visited (p size : BitVec 64) : List (BitVec 64) :=
  strides page.pgSize (((page.pageOf (p + size - 1)).toNat + page.pgSize.toNat -
    (page.pageOf p).toNat) / page.pgSize.toNat) (page.pageOf p)

variable {page} {p size : BitVec 64}

theorem loop_endless {State : Type} {body : State → BitVec 64 → Option State} {turns : Nat}
    {state : State} (endless : page.Endless p size) :
    loop body page.pgSize (page.pageOf (p + size - 1)) turns (page.pageOf p) state = none :=
  loop_eq_none page.dvd endless (page.dvd_pageOf p)

/-- Either the range starts behind its last page, or its visited pages reach up to there. -/
theorem visited_count (page : PageSize) (p size : BitVec 64) :
    ((page.pageOf (p + size - 1)).toNat < (page.pageOf p).toNat ∧ page.visited p size = []) ∨
      ∃ count, page.visited p size = strides page.pgSize count (page.pageOf p) ∧
        (page.pageOf p).toNat + count * page.pgSize.toNat =
          (page.pageOf (p + size - 1)).toNat + page.pgSize.toNat ∧ count < pgTurns := by
  have positive := page.pos
  obtain ⟨i, first⟩ := page.dvd_pageOf p
  obtain ⟨j, last⟩ := page.dvd_pageOf (p + size - 1)
  have above := page.pageOf_add_le (p + size - 1)
  unfold visited
  by_cases past : (page.pageOf (p + size - 1)).toNat < (page.pageOf p).toNat
  · refine .inl ⟨past, ?_⟩
    have none : (page.pageOf (p + size - 1)).toNat + page.pgSize.toNat - (page.pageOf p).toNat =
        0 := by
      rw [first, last] at past
      have indices := Nat.lt_of_mul_lt_mul_left past
      rw [first, last, ← Nat.mul_succ, Nat.sub_eq_zero_of_le (Nat.mul_le_mul_left _ indices)]
    rw [none, Nat.zero_div]
    rfl
  · refine .inr ⟨_, rfl, ?_, ?_⟩
    · have divides : page.pgSize.toNat ∣
          (page.pageOf (p + size - 1)).toNat + page.pgSize.toNat - (page.pageOf p).toNat :=
        Nat.dvd_sub (Nat.dvd_add (page.dvd_pageOf _) (Nat.dvd_refl _)) (page.dvd_pageOf p)
      rw [Nat.div_mul_cancel divides]
      omega
    · have bounded : ((page.pageOf (p + size - 1)).toNat + page.pgSize.toNat -
          (page.pageOf p).toNat) / page.pgSize.toNat ≤ 2 ^ 64 :=
        Nat.le_trans (Nat.div_le_self _ _) (Nat.le_trans (Nat.sub_le _ _) above)
      exact Nat.lt_succ_of_le bounded

theorem lt_of_not_endless (ends : ¬ page.Endless p size) :
    (page.pageOf (p + size - 1)).toNat + page.pgSize.toNat < 2 ^ 64 :=
  Nat.lt_of_le_of_ne (page.pageOf_add_le _) ends

/-- The visited pages are those from the first to the last page of the range. -/
theorem mem_visited (ends : ¬ page.Endless p size) (pg : BitVec 64) :
    pg ∈ page.visited p size ↔ page.pgSize.toNat ∣ pg.toNat ∧
      (page.pageOf p).toNat ≤ pg.toNat ∧ pg.toNat ≤ (page.pageOf (p + size - 1)).toNat := by
  have positive := page.pos
  have fits := lt_of_not_endless ends
  rcases visited_count page p size with ⟨past, none⟩ | ⟨count, visited, reaches, -⟩
  · rw [none]
    exact iff_of_false List.not_mem_nil (by omega)
  · rw [visited, mem_strides (by rw [reaches]; exact fits)]
    constructor
    · rintro ⟨i, below, same⟩
      have inside : (i + 1) * page.pgSize.toNat ≤ count * page.pgSize.toNat :=
        Nat.mul_le_mul_right _ below
      rw [Nat.succ_mul] at inside
      refine ⟨?_, by omega, by omega⟩
      rw [same]
      exact Nat.dvd_add (page.dvd_pageOf p) (Nat.dvd_mul_left _ _)
    · rintro ⟨aligned, lower, upper⟩
      obtain ⟨i, distance⟩ := Nat.dvd_sub aligned (page.dvd_pageOf p)
      rw [Nat.mul_comm] at distance
      refine ⟨i, ?_, by omega⟩
      have below : i * page.pgSize.toNat < count * page.pgSize.toNat := by omega
      exact Nat.lt_of_mul_lt_mul_right below

theorem visited_nodup (ends : ¬ page.Endless p size) : (page.visited p size).Nodup := by
  rcases visited_count page p size with ⟨-, none⟩ | ⟨count, visited, reaches, -⟩
  · rw [none]
    exact List.nodup_nil
  · rw [visited]
    exact strides_nodup page.pos (by rw [reaches]; exact lt_of_not_endless ends)

/-- The loops over a range run their body on the visited pages. -/
theorem loop_visited {State : Type} {body : State → BitVec 64 → Option State} {state : State}
    (ends : ¬ page.Endless p size) :
    loop body page.pgSize (page.pageOf (p + size - 1)) pgTurns (page.pageOf p) state =
      (page.visited p size).foldlM body state := by
  rcases visited_count page p size with ⟨past, none⟩ | ⟨count, visited, reaches, enough⟩
  · rw [none, List.foldlM_nil]
    exact loop_of_lt past
  · rw [visited]
    exact loop_eq_foldlM page.pos enough reaches (lt_of_not_endless ends)

end PageSize

/-! ## One call -/

section Calls

variable {page : PageSize} {lock unlock : BitVec 64 → Bool} {p size : BitVec 64}

/-- The counter of a page after `pg_lock_range` visited it. -/
def lockedOnce (locks : Bool) : Option Int → Option Int
  | none => if locks then some 1 else none
  | some count => some (count + 1)

/-- The page is counted already, or can be locked. -/
def lockable (lock : BitVec 64 → Bool) (pgLocked : AdrMap) (pg : BitVec 64) : Bool :=
  (pgLocked pg).isSome || lock pg

/-- The page is not counted yet, and can be locked. -/
def locksNew (lock : BitVec 64 → Bool) (pgLocked : AdrMap) (pg : BitVec 64) : Bool :=
  (pgLocked pg).isNone && lock pg

/-- No counter of these pages is at its limit. -/
def Roomy (pgLocked : AdrMap) (pages : List (BitVec 64)) : Prop :=
  ∀ pg ∈ pages, ∀ count, pgLocked pg = some count → count + 1 < 2 ^ 31

instance decidableRoomyAt (pgLocked : AdrMap) (pg : BitVec 64) :
    Decidable (∀ count, pgLocked pg = some count → count + 1 < 2 ^ 31) :=
  match pgLocked pg with
  | none => isTrue fun _ none => nomatch none
  | some count => decidable_of_iff (count + 1 < 2 ^ 31)
      ⟨fun fits _ same => Option.some.inj same ▸ fits, fun fits => fits count rfl⟩

instance (pgLocked : AdrMap) (pages : List (BitVec 64)) : Decidable (Roomy pgLocked pages) :=
  inferInstanceAs (Decidable (∀ pg ∈ pages, _))

private theorem pgLockPage_eq {state : LockLoop} {pg : BitVec 64}
    (roomy : ∀ count, state.pgLocked pg = some count → count + 1 < 2 ^ 31) :
    pgLockPage lock state pg = some
      { pgLocked := update state.pgLocked pg (lockedOnce (lock pg) (state.pgLocked pg))
        ret := state.ret && lockable lock state.pgLocked pg
        calls := state.calls ++ if locksNew lock state.pgLocked pg then [.lock pg] else [] } := by
  unfold pgLockPage lockedOnce lockable locksNew
  cases counted : state.pgLocked pg with
  | none =>
      cases locks : lock pg with
      | true => simp
      | false =>
          have same : update state.pgLocked pg none = state.pgLocked := by
            rw [← counted, update_eq_self]
          simp [same]
  | some count =>
      have next : intValue (count + 1) = some (count + 1) := if_pos (roomy count counted)
      simp [next]

private theorem pgLockPage_overflow {state : LockLoop} {pg : BitVec 64} {count : Int}
    (counted : state.pgLocked pg = some count) (full : ¬ count + 1 < 2 ^ 31) :
    pgLockPage lock state pg = none := by
  unfold pgLockPage intValue
  rw [counted]
  simp only [if_neg full, Option.map_none]

/-- **The loop of `pg_lock_range`** counts every page once, unless a counter overflows. -/
theorem foldlM_pgLockPage {pages : List (BitVec 64)} (nodup : pages.Nodup) :
    ∀ {state : LockLoop}, Roomy state.pgLocked pages →
      pages.foldlM (pgLockPage lock) state = some
        { pgLocked := fun pg => if pg ∈ pages then lockedOnce (lock pg) (state.pgLocked pg)
            else state.pgLocked pg
          ret := state.ret && pages.all (lockable lock state.pgLocked)
          calls := state.calls ++ (pages.filter (locksNew lock state.pgLocked)).map .lock } := by
  induction pages with
  | nil =>
      intro state _
      simp
  | cons pg rest ih =>
      intro state roomy
      obtain ⟨fresh, restNodup⟩ := List.nodup_cons.mp nodup
      obtain ⟨here, later⟩ := List.forall_mem_cons.mp roomy
      have other : ∀ q ∈ rest, update state.pgLocked pg
          (lockedOnce (lock pg) (state.pgLocked pg)) q = state.pgLocked q :=
        fun q member => update_of_ne (ne_of_mem_of_not_mem member fresh) _ _
      have restRoomy : Roomy (update state.pgLocked pg
          (lockedOnce (lock pg) (state.pgLocked pg))) rest := by
        intro q member
        rw [other q member]
        exact later q member
      rw [List.foldlM_cons, pgLockPage_eq here]
      refine (ih restNodup restRoomy).trans ?_
      congr 2
      · funext q
        by_cases own : q = pg
        · subst own
          simp [fresh]
        · by_cases member : q ∈ rest
          · simp [member, other q member]
          · simp [member, own]
      · have same : rest.all (lockable lock (update state.pgLocked pg
            (lockedOnce (lock pg) (state.pgLocked pg)))) =
              rest.all (lockable lock state.pgLocked) := by
          rw [Bool.eq_iff_iff, List.all_eq_true, List.all_eq_true]
          refine forall₂_congr fun q member => ?_
          rw [lockable, other q member, lockable]
        rw [same, List.all_cons, Bool.and_assoc]
      · have same : rest.filter (locksNew lock (update state.pgLocked pg
            (lockedOnce (lock pg) (state.pgLocked pg)))) =
              rest.filter (locksNew lock state.pgLocked) := by
          apply List.filter_congr
          intro q member
          rw [locksNew, other q member, locksNew]
        rw [same, List.append_assoc, List.filter_cons]
        cases new : locksNew lock state.pgLocked pg with
        | true => rfl
        | false => rfl

/-- A counter at its limit overflows. -/
theorem foldlM_pgLockPage_overflow {pages : List (BitVec 64)} (nodup : pages.Nodup) :
    ∀ {state : LockLoop}, ¬ Roomy state.pgLocked pages →
      pages.foldlM (pgLockPage lock) state = none := by
  induction pages with
  | nil => exact fun full => (full fun _ none => (List.not_mem_nil none).elim).elim
  | cons pg rest ih =>
      intro state full
      obtain ⟨fresh, restNodup⟩ := List.nodup_cons.mp nodup
      rw [List.foldlM_cons]
      by_cases here : ∀ count, state.pgLocked pg = some count → count + 1 < 2 ^ 31
      · rw [pgLockPage_eq here]
        apply ih restNodup
        intro roomy
        refine full (List.forall_mem_cons.mpr ⟨here, fun q member => ?_⟩)
        have fits := roomy q member
        dsimp only at fits
        rwa [update_of_ne (ne_of_mem_of_not_mem member fresh)] at fits
      · obtain ⟨count, overflows⟩ := not_forall.mp here
        obtain ⟨counted, full⟩ := Classical.not_imp.mp overflows
        rw [pgLockPage_overflow counted full]
        rfl

/-- `pg_lock_range` on a range with pages: the three ways it goes. -/
theorem pgLockRange_eq (page : PageSize) (lock : BitVec 64 → Bool) (pgLocked : AdrMap)
    (some_ : ¬ (p = 0 ∨ size = 0)) : pgLockRange page lock pgLocked p size =
      if page.Endless p size ∨ ¬ Roomy pgLocked (page.visited p size) then none
      else some
        { pgLocked := fun pg => if pg ∈ page.visited p size then lockedOnce (lock pg) (pgLocked pg)
            else pgLocked pg
          ret := (page.visited p size).all (lockable lock pgLocked)
          calls := ((page.visited p size).filter (locksNew lock pgLocked)).map .lock } := by
  rw [pgLockRange, if_neg some_]
  by_cases endless : page.Endless p size
  · rw [PageSize.loop_endless endless, if_pos (.inl endless)]
  · rw [PageSize.loop_visited endless]
    have nodup := PageSize.visited_nodup endless
    by_cases roomy : Roomy pgLocked (page.visited p size)
    · rw [foldlM_pgLockPage nodup roomy, if_neg (by simp [endless, roomy])]
      rfl
    · rw [foldlM_pgLockPage_overflow nodup roomy, if_pos (.inr roomy)]

/-- The loop of `pg_unlock_range` leaves counters that are not zero as they are. -/
theorem eq_of_foldlM_pgUnlockPage {pages : List (BitVec 64)}
    {state after : AdrMap × List PageCall} (counted : ∀ pg, state.1 pg ≠ some 0)
    (ran : pages.foldlM (pgUnlockPage unlock) state = some after) : after = state := by
  induction pages with
  | nil => exact (Option.some.inj ran).symm
  | cons pg rest ih =>
      rw [List.foldlM_cons] at ran
      obtain ⟨next, here, later⟩ := Option.bind_eq_some_iff.mp ran
      have same : next = state := by
        unfold pgUnlockPage at here
        cases count : state.1 pg with
        | none =>
            rw [count] at here
            cases here
        | some value =>
            have positive : value ≠ 0 := fun zero => counted pg (zero ▸ count)
            simp only [count, if_neg positive, Option.some.injEq] at here
            exact here.symm
      exact ih (same ▸ later)

theorem eq_of_pgUnlockRange {pgLocked : AdrMap} {after : AdrMap × List PageCall}
    (counted : ∀ pg, pgLocked pg ≠ some 0)
    (ran : pgUnlockRange page unlock pgLocked p size = some after) : after = (pgLocked, []) := by
  unfold pgUnlockRange at ran
  by_cases empty : p = 0 ∨ size = 0
  · rw [if_pos empty] at ran
    exact (Option.some.inj ran).symm
  · rw [if_neg empty] at ran
    by_cases endless : page.Endless p size
    · rw [PageSize.loop_endless endless] at ran
      cases ran
    · rw [PageSize.loop_visited endless] at ran
      exact eq_of_foldlM_pgUnlockPage counted ran

/-! ## A lock that fails -/

/-- The page was locked by these calls and is still locked after them. -/
def HeldAfter (calls : List PageCall) (pg : BitVec 64) : Prop :=
  ∃ before after, calls = before ++ .lock pg :: after ∧ .unlock pg ∉ after

/-- A call that returns false leaves `pg_locked` as it was, and no page locked. -/
def Restores (page : PageSize) (lock : BitVec 64 → Bool) (pgLocked : AdrMap)
    (p size : BitVec 64) : Prop :=
  ∀ after, pgLockRange page lock pgLocked p size = some after → after.ret = false →
    after.pgLocked = pgLocked ∧ ∀ pg, ¬ HeldAfter after.calls pg

/-- The call does not get to its pages or does not return, or every page can be locked, or none
is counted and none can be locked. -/
def AllOrNone (page : PageSize) (lock : BitVec 64 → Bool) (pgLocked : AdrMap)
    (p size : BitVec 64) : Prop :=
  (p = 0 ∨ size = 0) ∨ (page.Endless p size ∨ ¬ Roomy pgLocked (page.visited p size)) ∨
    (∀ pg ∈ page.visited p size, (pgLocked pg).isSome ∨ lock pg) ∨
      ∀ pg ∈ page.visited p size, pgLocked pg = none ∧ lock pg = false

/-- **A failed lock restores the pages** exactly when it fails on all of them. -/
theorem restores_iff_allOrNone (page : PageSize) (lock : BitVec 64 → Bool) (pgLocked : AdrMap)
    (p size : BitVec 64) :
    Restores page lock pgLocked p size ↔ AllOrNone page lock pgLocked p size := by
  by_cases empty : p = 0 ∨ size = 0
  · refine iff_of_true ?_ (.inl empty)
    intro after ran _
    rw [pgLockRange, if_pos empty, Option.some.injEq] at ran
    subst ran
    exact ⟨rfl, fun pg ⟨before, rest, same, _⟩ => by simp at same⟩
  · unfold Restores
    rw [pgLockRange_eq page lock pgLocked empty]
    by_cases stuck : page.Endless p size ∨ ¬ Roomy pgLocked (page.visited p size)
    · rw [if_pos stuck]
      exact iff_of_true (fun _ ran => nomatch ran) (.inr (.inl stuck))
    · rw [if_neg stuck]
      constructor
      · intro restores
        refine .inr (.inr ?_)
        by_cases all : (page.visited p size).all (lockable lock pgLocked) = true
        · left
          simpa only [List.all_eq_true, lockable, Bool.or_eq_true] using all
        · right
          intro pg member
          obtain ⟨same, -⟩ := restores _ rfl (Bool.eq_false_iff.mpr all)
          have here := congrFun same pg
          dsimp only at here
          rw [if_pos member] at here
          cases counted : pgLocked pg with
          | none =>
              rw [counted] at here
              cases locks : lock pg with
              | false => exact ⟨rfl, rfl⟩
              | true =>
                  rw [locks] at here
                  cases here
          | some count =>
              rw [counted, lockedOnce, Option.some.injEq] at here
              omega
      · rintro (early | late | all | none)
        · exact (empty early).elim
        · exact (stuck late).elim
        · rintro after ran failed
          rw [Option.some.injEq] at ran
          subst ran
          have succeeded : (page.visited p size).all (lockable lock pgLocked) = true := by
            simpa only [List.all_eq_true, lockable, Bool.or_eq_true] using all
          exact absurd (succeeded.symm.trans failed) (by decide)
        · rintro after ran -
          rw [Option.some.injEq] at ran
          subst ran
          constructor
          · funext pg
            dsimp only
            by_cases member : pg ∈ page.visited p size
            · obtain ⟨fresh, fails⟩ := none pg member
              rw [if_pos member, fresh, fails]
              rfl
            · rw [if_neg member]
          · intro pg held
            have new : (page.visited p size).filter (locksNew lock pgLocked) = [] := by
              rw [List.filter_eq_nil_iff]
              intro q member locks
              rw [locksNew, (none q member).2, Bool.and_false] at locks
              cases locks
            obtain ⟨before, rest, same, -⟩ := held
            rw [new] at same
            simp at same

/-- Pages of 4096 bytes. -/
def fourK : PageSize := ⟨4096, 12, by decide, by decide⟩

/-- The second page of the range cannot be locked, and the first one stays locked. -/
theorem secondPage_not_restores :
    ¬ Restores fourK (fun pg => pg = 4096) (fun _ => none) 4096 8192 := by
  intro restores
  have visited : fourK.visited 4096 8192 = [4096, 8192] := by decide
  have ran := pgLockRange_eq fourK (fun pg => pg = 4096) (fun _ => none)
    (show ¬ ((4096 : BitVec 64) = 0 ∨ (8192 : BitVec 64) = 0) by decide)
  have goes : ¬ (fourK.Endless 4096 8192 ∨
      ¬ Roomy (fun _ => none) (fourK.visited 4096 8192)) := by
    rintro (endless | full)
    · exact absurd endless (by decide)
    · exact full fun _ _ _ none => nomatch none
  rw [if_neg goes, visited] at ran
  obtain ⟨same, -⟩ := restores _ ran (by decide)
  exact absurd (congrFun same 4096) (by decide)

end Calls

end Tvntd
