import Tvntd.Lib.Machine
import Tvntd.Util.PageWalk

/-! # Runs of page locks

`pg_unlock_range` compares the counter of a page with zero and never decrements
it, so an unlock changes nothing. The accounts of a run therefore hold as long as
no range with pages is unlocked, every range ends before the last page, and no
counter overflows.
-/

namespace Tvntd

inductive RangeCall where
  | lock (p size : BitVec 64)
  | unlock (p size : BitVec 64)

namespace PageSize

variable (page : PageSize)

/-- One call, with `lock` and `unlock` succeeding, and the system calls it makes. -/
def step (pgLocked : AdrMap) : RangeCall → Option (AdrMap × List PageCall)
  | .lock p size => (pgLockRange page (fun _ => true) pgLocked p size).map fun after =>
      (after.pgLocked, after.calls)
  | .unlock p size => pgUnlockRange page (fun _ => true) pgLocked p size

def machine : Machine AdrMap RangeCall (List PageCall) := ⟨page.step⟩

/-- A byte of the range is in the page. -/
def Covers (range : BitVec 64 × BitVec 64) (pg : BitVec 64) : Prop :=
  range.1 ≠ 0 ∧ ∃ byte < range.2.toNat, page.pageOf (range.1 + BitVec.ofNat 64 byte) = pg

end PageSize

/-- The ranges that are locked after some calls. -/
def outstanding : List RangeCall → List (BitVec 64 × BitVec 64) :=
  List.foldl (fun ranges call =>
    match call with
    | .lock p size => (p, size) :: ranges
    | .unlock p size => ranges.erase (p, size)) []

/-- Every unlock is of a range that is locked then. -/
def Matched (calls : List RangeCall) : Prop :=
  ∀ before p size, before ++ [.unlock p size] <+: calls → (p, size) ∈ outstanding before

open Classical in
/-- How many of the locked ranges cover the page. -/
noncomputable def coverCount (page : PageSize) (calls : List RangeCall) (pg : BitVec 64) : Nat :=
  (outstanding calls).countP fun range => page.Covers range pg

/-- `pg_locked` and the system calls after some calls from the start. -/
def reached (page : PageSize) (calls : List RangeCall) : Option (AdrMap × List (List PageCall)) :=
  page.machine.run (fun _ => none) calls

/-- After every call of a sequence the counters account for the locked ranges. -/
structure Accounted (page : PageSize) (calls : List RangeCall) : Prop where
  runs : ∃ after, reached page calls = some after
  locked : ∀ before after, before <+: calls → reached page before = some after →
    ∀ pg, (after.1 pg).isSome ↔ 0 < coverCount page before pg
  counts : ∀ before after, before <+: calls → reached page before = some after →
    ∀ other afterOther, other <+: calls → reached page other = some afterOther →
      ∀ pg otherPg count, after.1 pg = some count → afterOther.1 otherPg = some count →
        coverCount page before pg = coverCount page other otherPg
  munlocked : ∀ before call after, before ++ [call] <+: calls →
    reached page (before ++ [call]) = some after → ∀ pg,
      (∃ events, after.2.getLast? = some events ∧ PageCall.unlock pg ∈ events) ↔
        0 < coverCount page before pg ∧ coverCount page (before ++ [call]) pg = 0
  empty : ∀ before after, before <+: calls → reached page before = some after →
    outstanding before = [] → after.1 = fun _ => none

/-- The range has no pages, or ends before the last page of the address space. -/
def Contained (page : PageSize) (p size : BitVec 64) : Prop :=
  (p = 0 ∨ size = 0) ∨ p.toNat + size.toNat ≤ 2 ^ 64 - page.pgSize.toNat

/-- No range with pages is unlocked, every range ends before the last page, and no page is
covered by more ranges than an `int` counts. -/
structure NeverUnlocks (page : PageSize) (calls : List RangeCall) : Prop where
  unlocks : ∀ p size, .unlock p size ∈ calls → p = 0 ∨ size = 0
  contained : ∀ p size, .lock p size ∈ calls → Contained page p size
  counts : ∀ pg, coverCount page calls pg < 2 ^ 31

/-! ## Covered pages -/

section Covered

variable {page : PageSize} {p size : BitVec 64}

private theorem toNat_byte {byte : Nat} (fits : p.toNat + byte < 2 ^ 64) :
    (p + BitVec.ofNat 64 byte).toNat = p.toNat + byte := by
  rw [BitVec.toNat_add, BitVec.toNat_ofNat]
  omega

/-- The bytes of a range that does not wrap around are its addresses. -/
theorem covers_iff_meets (notNull : p ≠ 0) (fits : p.toNat + size.toNat ≤ 2 ^ 64)
    (pg : BitVec 64) : page.Covers (p, size) pg ↔ page.Meets p size pg := by
  constructor
  · rintro ⟨-, byte, below, rfl⟩
    change byte < size.toNat at below
    have byteNat : (p + BitVec.ofNat 64 byte).toNat = p.toNat + byte := toNat_byte (by omega)
    exact ⟨p + BitVec.ofNat 64 byte, by omega, by omega, rfl⟩
  · rintro ⟨addr, lower, upper, rfl⟩
    have same : p + BitVec.ofNat 64 (addr.toNat - p.toNat) = addr := by
      apply BitVec.eq_of_toNat_eq
      rw [toNat_byte (by omega)]
      omega
    exact ⟨notNull, addr.toNat - p.toNat, by dsimp only; omega, congrArg page.pageOf same⟩

/-- A range that ends before the last page covers the pages that are visited. -/
theorem covers_iff_visited (some_ : ¬ (p = 0 ∨ size = 0))
    (contained : p.toNat + size.toNat ≤ 2 ^ 64 - page.pgSize.toNat) :
    ¬ page.Endless p size ∧ ∀ pg, page.Covers (p, size) pg ↔ pg ∈ page.visited p size := by
  obtain ⟨notNull, notEmpty⟩ := not_or.mp some_
  have positive := page.pos
  have fits := Nat.le_trans contained (Nat.sub_le _ _)
  have last := PageSize.toNat_lastAddr notEmpty fits
  have lastPage := page.pageOf_toNat (p + size - 1)
  have lower := Nat.div_mul_le_self (p + size - 1).toNat page.pgSize.toNat
  have sizePos : 0 < size.toNat :=
    Nat.pos_of_ne_zero fun zero => notEmpty (BitVec.eq_of_toNat_eq zero)
  have ends : ¬ page.Endless p size := by
    intro endless
    unfold PageSize.Endless at endless
    omega
  refine ⟨ends, fun pg => ?_⟩
  rw [covers_iff_meets notNull fits, PageSize.mem_visited ends, PageSize.meets_iff notEmpty fits]

/-- The last page of the address space. -/
def lastPage (page : PageSize) : BitVec 64 := BitVec.ofNat 64 (2 ^ 64 - page.pgSize.toNat)

private theorem toNat_lastPage (page : PageSize) :
    (lastPage page).toNat = 2 ^ 64 - page.pgSize.toNat := by
  have positive := page.pos
  rw [lastPage, BitVec.toNat_ofNat, Nat.mod_eq_of_lt (by omega)]

theorem pageOf_eq_lastPage {addr : BitVec 64} (inside : 2 ^ 64 - page.pgSize.toNat ≤ addr.toNat) :
    page.pageOf addr = lastPage page := by
  apply BitVec.eq_of_toNat_eq
  have positive := page.pos
  have bounded := addr.isLt
  obtain ⟨count, total⟩ := page.dvd
  have split : 2 ^ 64 - page.pgSize.toNat = page.pgSize.toNat * (count - 1) := by
    rw [total, Nat.mul_sub, Nat.mul_one]
  rw [page.pageOf_toNat, toNat_lastPage, split, Nat.mul_comm]
  congr 1
  apply Nat.div_eq_of_lt_le
  · rw [Nat.mul_comm, ← split]
    exact inside
  · have some_ : count ≠ 0 := fun zero => by rw [zero, Nat.mul_zero] at total; cases total
    rw [Nat.sub_add_cancel (Nat.pos_of_ne_zero some_), Nat.mul_comm, ← total]
    exact bounded

/-- Other ranges cover the last page, and the loops over them do not visit it. -/
theorem covers_lastPage (some_ : ¬ (p = 0 ∨ size = 0))
    (reaches : ¬ p.toNat + size.toNat ≤ 2 ^ 64 - page.pgSize.toNat)
    (ends : ¬ page.Endless p size) :
    page.Covers (p, size) (lastPage page) ∧ lastPage page ∉ page.visited p size := by
  obtain ⟨notNull, notEmpty⟩ := not_or.mp some_
  have sizePos : 0 < size.toNat :=
    Nat.pos_of_ne_zero fun zero => notEmpty (BitVec.eq_of_toNat_eq zero)
  have positive := page.pos
  have bounded := p.isLt
  constructor
  · refine ⟨notNull, 2 ^ 64 - page.pgSize.toNat - p.toNat, by dsimp only; omega, ?_⟩
    apply pageOf_eq_lastPage
    dsimp only
    rw [toNat_byte (by omega)]
    omega
  · rw [PageSize.mem_visited ends, toNat_lastPage]
    rintro ⟨-, -, upper⟩
    have fits := PageSize.lt_of_not_endless ends
    omega

end Covered

/-! ## Tallies -/

/-- The counter of a page that this many ranges cover. -/
def counterOf : Nat → Option Int
  | 0 => none
  | count + 1 => some (count + 1)

private theorem counterOf_ne_zero (count : Nat) : counterOf count ≠ some 0 := by
  cases count with
  | zero => exact fun same => nomatch same
  | succ count =>
      intro same
      have zero : (count : Int) + 1 = 0 := Option.some.inj same
      omega

private theorem isSome_counterOf (count : Nat) : (counterOf count).isSome ↔ 0 < count := by
  cases count with
  | zero => exact iff_of_false (by decide) (Nat.lt_irrefl 0)
  | succ count => exact iff_of_true rfl (Nat.succ_pos count)

theorem counterOf_eq_some {count : Nat} {value : Int} (same : counterOf count = some value) :
    (count : Int) = value := by
  cases count with
  | zero => cases same
  | succ count =>
      have counted : (count : Int) + 1 = value := Option.some.inj same
      rw [← counted]
      rfl

private theorem lockedOnce_counterOf (count : Nat) :
    lockedOnce true (counterOf count) = counterOf (count + 1) := by
  cases count with
  | zero => rfl
  | succ count => rfl

private theorem outstanding_concat (calls : List RangeCall) (call : RangeCall) :
    outstanding (calls ++ [call]) = match call with
      | .lock p size => (p, size) :: outstanding calls
      | .unlock p size => (outstanding calls).erase (p, size) := by
  unfold outstanding
  rw [List.foldl_append]
  rfl

section Run

variable {page : PageSize} {calls before : List RangeCall} {call : RangeCall} {p size : BitVec 64}

open Classical in
private theorem coverCount_lock (page : PageSize) (calls : List RangeCall) (p size pg : BitVec 64) :
    coverCount page (calls ++ [.lock p size]) pg =
      coverCount page calls pg + if page.Covers (p, size) pg then 1 else 0 := by
  unfold coverCount
  rw [outstanding_concat, List.countP_cons]
  simp only [decide_eq_true_eq]

open Classical in
private theorem coverCount_unlock (page : PageSize) {calls : List RangeCall} {p size : BitVec 64}
    (locked : (p, size) ∈ outstanding calls) (pg : BitVec 64) :
    coverCount page calls pg = coverCount page (calls ++ [.unlock p size]) pg +
      if page.Covers (p, size) pg then 1 else 0 := by
  unfold coverCount
  rw [outstanding_concat, (List.perm_cons_erase locked).countP_eq, List.countP_cons]
  simp only [decide_eq_true_eq]

private theorem not_covers_of_empty (empty : p = 0 ∨ size = 0) (pg : BitVec 64) :
    ¬ page.Covers (p, size) pg := by
  rintro ⟨notNull, byte, below, -⟩
  rcases empty with null | none
  · exact notNull null
  · have zero : size.toNat = 0 := by rw [none]; rfl
    change byte < size.toNat at below
    omega

/-- The counters are those of the ranges that are locked. -/
def Tallied (page : PageSize) (calls : List RangeCall) (pgLocked : AdrMap) : Prop :=
  ∀ pg, pgLocked pg = counterOf (coverCount page calls pg)

private theorem reached_concat (page : PageSize) (before : List RangeCall) (call : RangeCall) :
    reached page (before ++ [call]) = (reached page before).bind fun after =>
      (page.step after.1 call).map fun next => (next.1, after.2 ++ [next.2]) :=
  Machine.run_concat before call _

private theorem coverCount_unlock_empty (page : PageSize) (calls : List RangeCall)
    (empty : p = 0 ∨ size = 0) (pg : BitVec 64) :
    coverCount page (calls ++ [.unlock p size]) pg = coverCount page calls pg := by
  by_cases locked : (p, size) ∈ outstanding calls
  · have split := coverCount_unlock page locked pg
    rw [if_neg (not_covers_of_empty empty pg)] at split
    exact split.symm
  · unfold coverCount
    rw [outstanding_concat]
    dsimp only
    rw [List.erase_of_not_mem locked]

/-- Locking a contained range adds one to the tally of its pages. -/
theorem step_lock {pgLocked : AdrMap} (tallied : Tallied page before pgLocked)
    (contained : Contained page p size)
    (fits : ∀ pg, coverCount page (before ++ [.lock p size]) pg < 2 ^ 31) :
    ∃ next, page.step pgLocked (.lock p size) = some next ∧
      Tallied page (before ++ [.lock p size]) next.1 ∧ ∀ pg, PageCall.unlock pg ∉ next.2 := by
  by_cases empty : p = 0 ∨ size = 0
  · refine ⟨(pgLocked, []), ?_, ?_, fun pg => List.not_mem_nil⟩
    · rw [PageSize.step, pgLockRange, if_pos empty]
      rfl
    · intro pg
      rw [coverCount_lock, if_neg (not_covers_of_empty empty pg), Nat.add_zero]
      exact tallied pg
  · have inside := contained.resolve_left empty
    obtain ⟨ends, covers⟩ := covers_iff_visited empty inside
    have roomy : Roomy pgLocked (page.visited p size) := by
      intro pg member count counted
      rw [tallied pg] at counted
      have below := fits pg
      rw [coverCount_lock, if_pos ((covers pg).mpr member)] at below
      have same := counterOf_eq_some counted
      omega
    have ran := pgLockRange_eq page (fun _ => true) pgLocked empty
    rw [if_neg (not_or.mpr ⟨ends, not_not.mpr roomy⟩)] at ran
    refine ⟨_, by rw [PageSize.step, ran]; rfl, ?_, ?_⟩
    · intro pg
      dsimp only
      rw [coverCount_lock]
      by_cases member : pg ∈ page.visited p size
      · rw [if_pos member, if_pos ((covers pg).mpr member), tallied pg, lockedOnce_counterOf]
      · rw [if_neg member, if_neg fun covered => member ((covers pg).mp covered)]
        exact tallied pg
    · intro pg member
      obtain ⟨other, -, same⟩ := List.mem_map.mp member
      cases same

/-- A lock that returns overflowed no counter. -/
theorem lt_of_step_lock {pgLocked : AdrMap} {next : AdrMap × List PageCall}
    (tallied : Tallied page before pgLocked) (contained : Contained page p size)
    (below : ∀ pg, coverCount page before pg < 2 ^ 31)
    (stepped : page.step pgLocked (.lock p size) = some next) (pg : BitVec 64) :
    coverCount page (before ++ [.lock p size]) pg < 2 ^ 31 := by
  rw [coverCount_lock]
  by_cases covered : page.Covers (p, size) pg
  · have empty : ¬ (p = 0 ∨ size = 0) := fun empty => not_covers_of_empty empty pg covered
    have member := ((covers_iff_visited empty (contained.resolve_left empty)).2 pg).mp covered
    rw [PageSize.step, pgLockRange_eq page (fun _ => true) pgLocked empty] at stepped
    by_cases stuck : page.Endless p size ∨ ¬ Roomy pgLocked (page.visited p size)
    · rw [if_pos stuck] at stepped
      cases stepped
    · have roomy := not_not.mp (not_or.mp stuck).2
      rw [if_pos covered]
      cases counted : coverCount page before pg with
      | zero => decide
      | succ count =>
          have fits := roomy pg member (count + 1) (by rw [tallied pg, counted]; rfl)
          omega
  · rw [if_neg covered]
    exact below pg

/-- A lock of a range that reaches the last page leaves that page's counter as it is. -/
theorem step_lock_lastPage {pgLocked : AdrMap} {next : AdrMap × List PageCall}
    (reaches : ¬ Contained page p size)
    (stepped : page.step pgLocked (.lock p size) = some next) :
    next.1 (lastPage page) = pgLocked (lastPage page) ∧
      page.Covers (p, size) (lastPage page) := by
  obtain ⟨empty, beyond⟩ := not_or.mp reaches
  rw [PageSize.step, pgLockRange_eq page (fun _ => true) pgLocked empty] at stepped
  by_cases stuck : page.Endless p size ∨ ¬ Roomy pgLocked (page.visited p size)
  · rw [if_pos stuck] at stepped
    cases stepped
  · rw [if_neg stuck, Option.map_some, Option.some.injEq] at stepped
    obtain ⟨covered, outside⟩ := covers_lastPage empty beyond (not_or.mp stuck).1
    subst stepped
    exact ⟨if_neg outside, covered⟩

/-- An unlock changes nothing. -/
theorem step_unlock {pgLocked : AdrMap} {next : AdrMap × List PageCall}
    (tallied : Tallied page before pgLocked)
    (stepped : page.step pgLocked (.unlock p size) = some next) : next = (pgLocked, []) :=
  eq_of_pgUnlockRange (fun pg => tallied pg ▸ counterOf_ne_zero _) stepped

/-! ## Sequences that never unlock -/

private theorem NeverUnlocks.of_concat (never : NeverUnlocks page (calls ++ [call])) :
    NeverUnlocks page calls where
  unlocks := fun p size member => never.unlocks p size (List.mem_append_left _ member)
  contained := fun p size member => never.contained p size (List.mem_append_left _ member)
  counts := by
    intro pg
    have below := never.counts pg
    cases call with
    | lock p size =>
        rw [coverCount_lock] at below
        omega
    | unlock p size =>
        have empty := never.unlocks p size (List.mem_append_right _ List.mem_cons_self)
        rwa [coverCount_unlock_empty page calls empty] at below

theorem NeverUnlocks.of_prefix (never : NeverUnlocks page calls) (initial : before <+: calls) :
    NeverUnlocks page before := by
  obtain ⟨rest, rfl⟩ := initial
  induction rest using List.reverseRecOn with
  | nil => rwa [List.append_nil] at never
  | append_singleton rest last ih =>
      rw [← List.append_assoc] at never
      exact ih never.of_concat

/-- The run of a sequence that never unlocks keeps its tallies and unlocks no page. -/
theorem NeverUnlocks.run (never : NeverUnlocks page calls) :
    ∃ after, reached page calls = some after ∧ Tallied page calls after.1 ∧
      ∀ events ∈ after.2, ∀ pg, PageCall.unlock pg ∉ events := by
  induction calls using List.reverseRecOn with
  | nil => exact ⟨_, rfl, fun _ => rfl, fun _ none => (List.not_mem_nil none).elim⟩
  | append_singleton calls call ih =>
      obtain ⟨after, ran, tallied, quiet⟩ := ih never.of_concat
      have stepped : ∃ next, page.step after.1 call = some next ∧
          Tallied page (calls ++ [call]) next.1 ∧ ∀ pg, PageCall.unlock pg ∉ next.2 := by
        cases call with
        | lock p size =>
            exact step_lock tallied
              (never.contained p size (List.mem_append_right _ List.mem_cons_self)) never.counts
        | unlock p size =>
            have empty := never.unlocks p size (List.mem_append_right _ List.mem_cons_self)
            refine ⟨(after.1, []), if_pos empty, fun pg => ?_, fun pg => List.not_mem_nil⟩
            rw [coverCount_unlock_empty page calls empty]
            exact tallied pg
      obtain ⟨next, step, still, silent⟩ := stepped
      refine ⟨(next.1, after.2 ++ [next.2]), ?_, still, ?_⟩
      · rw [reached_concat, ran, Option.bind_some, step]
        rfl
      · exact List.forall_mem_append.mpr ⟨quiet, List.forall_mem_singleton.mpr silent⟩

private theorem coverCount_of_outstanding_nil (page : PageSize) (none : outstanding calls = [])
    (pg : BitVec 64) : coverCount page calls pg = 0 := by
  unfold coverCount
  rw [none]
  rfl

/-- A sequence that never unlocks is accounted for. -/
theorem NeverUnlocks.accounted (never : NeverUnlocks page calls) : Accounted page calls := by
  have tally : ∀ before after, before <+: calls → reached page before = some after →
      Tallied page before after.1 ∧ ∀ events ∈ after.2, ∀ pg, PageCall.unlock pg ∉ events := by
    intro before after initial ran
    obtain ⟨other, same, tallied⟩ := (never.of_prefix initial).run
    rw [ran, Option.some.injEq] at same
    exact same ▸ tallied
  constructor
  · obtain ⟨after, ran, -⟩ := never.run
    exact ⟨after, ran⟩
  · intro before after initial ran pg
    rw [(tally before after initial ran).1 pg]
    exact isSome_counterOf _
  · intro before after initial ran other afterOther otherInitial otherRan pg otherPg count here there
    rw [(tally before after initial ran).1 pg] at here
    rw [(tally other afterOther otherInitial otherRan).1 otherPg] at there
    exact Int.ofNat.inj ((counterOf_eq_some here).trans (counterOf_eq_some there).symm)
  · intro before call after initial ran pg
    constructor
    · rintro ⟨events, last, unlocked⟩
      exact ((tally _ after initial ran).2 events (List.mem_of_getLast? last) pg unlocked).elim
    · rintro ⟨covered, uncovered⟩
      cases call with
      | lock p size =>
          rw [coverCount_lock] at uncovered
          omega
      | unlock p size =>
          have member := initial.subset (List.mem_append_right before List.mem_cons_self)
          rw [coverCount_unlock_empty page before (never.unlocks p size member)] at uncovered
          omega
  · intro before after initial ran none
    funext pg
    rw [(tally before after initial ran).1 pg, coverCount_of_outstanding_nil page none]
    rfl

/-- A counter that a call does not change stands for a page whose ranges it does not change. -/
theorem Accounted.frozen (accounted : Accounted page calls) (initial : before ++ [call] <+: calls)
    {after next : AdrMap × List (List PageCall)} (ran : reached page before = some after)
    (ranNext : reached page (before ++ [call]) = some next) {pg : BitVec 64}
    (same : next.1 pg = after.1 pg) :
    coverCount page (before ++ [call]) pg = coverCount page before pg := by
  have shorter : before <+: calls := (List.prefix_append before [call]).trans initial
  have here := accounted.locked before after shorter ran pg
  have there := accounted.locked _ next initial ranNext pg
  cases counted : after.1 pg with
  | none =>
      rw [same, counted] at there
      rw [counted] at here
      simp only [Option.isSome_none, Bool.false_eq_true, false_iff] at here there
      omega
  | some count =>
      exact accounted.counts _ next initial ranNext _ after shorter ran pg pg count
        (same.trans counted) counted

/-- A sequence that is accounted for never unlocks. -/
theorem Accounted.neverUnlocks (accounted : Accounted page calls) (matched : Matched calls) :
    NeverUnlocks page calls := by
  have always : ∀ before, before <+: calls → NeverUnlocks page before := by
    intro before
    induction before using List.reverseRecOn with
    | nil =>
        intro _
        refine ⟨fun _ _ none => (List.not_mem_nil none).elim,
          fun _ _ none => (List.not_mem_nil none).elim, fun pg => ?_⟩
        rw [coverCount_of_outstanding_nil page rfl]
        decide
    | append_singleton before call ih =>
        intro initial
        have never := ih ((List.prefix_append before [call]).trans initial)
        obtain ⟨after, ran, tallied, -⟩ := never.run
        obtain ⟨next, ranNext⟩ : ∃ next, reached page (before ++ [call]) = some next := by
          obtain ⟨rest, rfl⟩ := initial
          obtain ⟨final, whole⟩ := accounted.runs
          exact Machine.run_of_prefix whole
        have stepped := ranNext
        rw [reached_concat, ran, Option.bind_some] at stepped
        obtain ⟨result, step, rfl⟩ := Option.map_eq_some_iff.mp stepped
        cases call with
        | lock p size =>
            have contained : Contained page p size := by
              by_contra reaches
              obtain ⟨same, covered⟩ := step_lock_lastPage reaches step
              have frozen := accounted.frozen initial ran ranNext same
              rw [coverCount_lock, if_pos covered] at frozen
              omega
            constructor
            · intro q width member
              exact never.unlocks q width (by simpa using member)
            · intro q width member
              rcases List.mem_append.mp member with inside | last
              · exact never.contained q width inside
              · cases List.mem_singleton.mp last
                exact contained
            · exact lt_of_step_lock tallied contained never.counts step
        | unlock p size =>
            have locked := matched before p size initial
            have same := step_unlock tallied step
            have empty : p = 0 ∨ size = 0 := by
              by_contra some_
              obtain ⟨notNull, notEmpty⟩ := not_or.mp some_
              have covered : page.Covers (p, size) (page.pageOf p) :=
                ⟨notNull, 0, Nat.pos_of_ne_zero fun zero => notEmpty (BitVec.eq_of_toNat_eq zero),
                  congrArg page.pageOf (BitVec.add_zero p)⟩
              have frozen := accounted.frozen initial ran ranNext
                (congrFun (congrArg Prod.fst same) (page.pageOf p))
              have split := coverCount_unlock page locked (page.pageOf p)
              rw [if_pos covered] at split
              omega
            constructor
            · intro q width member
              rcases List.mem_append.mp member with inside | last
              · exact never.unlocks q width inside
              · cases List.mem_singleton.mp last
                exact empty
            · intro q width member
              exact never.contained q width (by simpa using member)
            · intro pg
              rw [coverCount_unlock_empty page before empty]
              exact never.counts pg
  exact always calls (List.prefix_refl calls)

/-- **The accounts of page locks hold exactly while nothing is unlocked.** -/
theorem accounted_iff_neverUnlocks (page : PageSize) (calls : List RangeCall)
    (matched : Matched calls) : Accounted page calls ↔ NeverUnlocks page calls :=
  ⟨fun accounted => accounted.neverUnlocks matched, NeverUnlocks.accounted⟩

/-- One byte is locked and unlocked. -/
def lockUnlock : List RangeCall := [.lock 4096 1, .unlock 4096 1]

private theorem matched_lockUnlock : Matched lockUnlock := by
  intro before p size initial
  cases before with
  | nil =>
      obtain ⟨same, -⟩ := List.cons_prefix_cons.mp initial
      cases same
  | cons first rest =>
      obtain ⟨rfl, later⟩ := List.cons_prefix_cons.mp initial
      cases rest with
      | nil =>
          obtain ⟨same, -⟩ := List.cons_prefix_cons.mp later
          cases same
          exact List.mem_cons_self
      | cons second rest =>
          obtain ⟨-, beyond⟩ := List.cons_prefix_cons.mp later
          have length := beyond.length_le
          simp at length

theorem lockUnlock_not_accounted : Matched lockUnlock ∧ ¬ Accounted fourK lockUnlock := by
  refine ⟨matched_lockUnlock, fun accounted => ?_⟩
  have never := accounted.neverUnlocks matched_lockUnlock
  have empty := never.unlocks 4096 1 (List.mem_cons_of_mem _ List.mem_cons_self)
  exact absurd empty (by decide)

theorem accounted_iff_neverUnlocks_lockUnlock :
    Accounted fourK lockUnlock ↔ NeverUnlocks fourK lockUnlock :=
  accounted_iff_neverUnlocks fourK lockUnlock matched_lockUnlock

end Run

end Tvntd
