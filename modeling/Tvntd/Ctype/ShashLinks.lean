import Tvntd.Lib.Buckets
import Tvntd.Ctype.List

/-! # The singly linked hash table in memory

The second half of `common/ctype/hash.c` over the links of `Ctype.List`. A table
is the addresses of its bucket heads, of which the code uses `sh_bk_size`, and a
pointer into the bucket array is an index.
-/

namespace Tvntd

open LinkedCells Buckets

variable {ρ : Type*}

/-- `shash_t` without its stored functions. -/
structure ShashTable (ρ : Type*) where
  shBucket : Nat → ρ
  shBkSize : Nat
  shElmCnt : Int

/-- `shash_iter_t` of one table: the current bucket and the position in its list. -/
structure ShashIter (ρ : Type*) where
  shCurr : Option Nat
  shIter : SlinkIter ρ

/-- `shash_iter_term` -/
def shashIterTerm (iter : ShashIter ρ) : Bool := iter.shCurr.isNone

/-- The inner loop of `shash_iter_next`: the first non-empty bucket among `left` buckets. -/
def shashIterSkip (next : SlNext ρ) (table : ShashTable ρ) (position : SlinkIter ρ) :
    Nat → Nat → ShashIter ρ
  | 0, _ => ⟨none, { position with slCurr := none }⟩
  | left + 1, curr =>
      if slinkEmpty next (table.shBucket curr) then
        shashIterSkip next table position left (curr + 1)
      else ⟨some curr, slinkIterInit next (some (table.shBucket curr))⟩

/-- `shash_iter_next`. A position at the end of its list stays there. -/
def shashIterNext (next : SlNext ρ) (table : ShashTable ρ) (iter : ShashIter ρ) : ShashIter ρ :=
  match iter.shCurr with
  | none => iter
  | some curr =>
      let moved := (slinkIterNext next iter.shIter).getD iter.shIter
      if slinkIterTerm moved then
        shashIterSkip next table moved (table.shBkSize - (curr + 1)) (curr + 1)
      else ⟨some curr, moved⟩

/-- `shash_iter_init` -/
def shashIterInit (next : SlNext ρ) (table : ShashTable ρ) : ShashIter ρ :=
  let iter : ShashIter ρ := ⟨some 0, slinkIterInit next (some (table.shBucket 0))⟩
  if slinkIterTerm iter.shIter then shashIterNext next table iter else iter

/-- Where `shash_iter_rm_curr` leaves the iterator, from the memory without the current link. -/
def shashIterBack [DecidableEq ρ] (next : SlNext ρ) (table : ShashTable ρ) (curr : Option Nat)
    (prev : ρ) : ShashIter ρ :=
  match curr with
  | none => ⟨none, ⟨some prev, some prev⟩⟩
  | some bucket =>
      if next prev = none ∧ prev = table.shBucket bucket then
        -- the bucket before, if there is one, at the end of its list
        let before := bucket - 1
        if slinkEmpty next (table.shBucket before) then
          ⟨some before, slinkIterInit next (some (table.shBucket before))⟩
        else ⟨some before, ⟨some (table.shBucket before), none⟩⟩
      else ⟨some bucket, ⟨some prev, some prev⟩⟩

/-- `shash_iter_rm_curr`: the link that was current, the memory, and the iterator. -/
def shashIterRmCurr [DecidableEq ρ] (next : SlNext ρ) (table : ShashTable ρ)
    (iter : ShashIter ρ) : Option (Option ρ × SlNext ρ × ShashIter ρ) :=
  match iter.shIter.slCurr with
  | none => some (none, next, iter)
  | some curr =>
      iter.shIter.slPrev.bind fun prev =>
        if next prev = some curr then
          let unlinked := Function.update next prev (next curr)
          some (some curr, unlinked, shashIterBack unlinked table iter.shCurr prev)
        else none

/-! ## Well-formed tables -/

/-- Every bucket head starts a list, and no link is in two of them. -/
structure ShashHolds (next : SlNext ρ) (table : ShashTable ρ) (lists : Nat → List ρ) : Prop where
  positive : 0 < table.shBkSize
  chain : ∀ i < table.shBkSize, ChainOf next (table.shBucket i) (table.shBucket i :: lists i)
  apart : ∀ i < table.shBkSize, ∀ j < table.shBkSize, i ≠ j →
    List.Disjoint (table.shBucket i :: lists i) (table.shBucket j :: lists j)

variable {next after : SlNext ρ} {table : ShashTable ρ} {lists : Nat → List ρ}

/-- The memory determines the lists. -/
theorem ShashHolds.unique (holds : ShashHolds next table lists) {other : Nat → List ρ}
    (also : ShashHolds next table other) : ∀ i < table.shBkSize, other i = lists i :=
  fun i inside => (List.cons.inj ((also.chain i inside).unique (holds.chain i inside))).2

/-- Every link is in one bucket, once. -/
theorem ShashHolds.nodup (holds : ShashHolds next table lists) :
    (elements table.shBkSize lists).Nodup := by
  apply List.nodup_flatMap.mpr
  constructor
  · intro i member
    exact (List.nodup_cons.mp (holds.chain i (List.mem_range.mp member)).nodup).2
  · refine List.nodup_range.pairwise_of_forall_ne ?_
    intro i first j second differ elm here there
    exact holds.apart i (List.mem_range.mp first) j (List.mem_range.mp second) differ
      (List.mem_cons_of_mem _ here) (List.mem_cons_of_mem _ there)

theorem ShashHolds.empty_iff (holds : ShashHolds next table lists) {i : Nat}
    (inside : i < table.shBkSize) : slinkEmpty next (table.shBucket i) = (lists i).isEmpty :=
  slinkEmpty_iff (holds.chain i inside)

/-- Only the buckets of the table count. -/
theorem ShashHolds.congr (holds : ShashHolds next table lists) {other : Nat → List ρ}
    (same : ∀ i < table.shBkSize, other i = lists i) : ShashHolds next table other where
  positive := holds.positive
  chain := by
    intro i inside
    rw [same i inside]
    exact holds.chain i inside
  apart := by
    intro i inside j bounded
    rw [same i inside, same j bounded]
    exact holds.apart i inside j bounded

/-- A change inside one bucket: its list is another one, of links that were in it or in no bucket,
and the links of all other buckets are as before. -/
theorem ShashHolds.update (holds : ShashHolds next table lists) {k : Nat}
    (inside : k < table.shBkSize) {list : List ρ}
    (chain : ChainOf after (table.shBucket k) (table.shBucket k :: list))
    (frame : ∀ i < table.shBkSize, i ≠ k → ∀ cell ∈ table.shBucket i :: lists i,
      after cell = next cell ∧ cell ∉ list) :
    ShashHolds after table (Function.update lists k list) where
  positive := holds.positive
  chain := by
    intro i bounded
    by_cases same : i = k
    · subst same
      rw [Function.update_self]
      exact chain
    · rw [Function.update_of_ne same]
      exact (holds.chain i bounded).congr fun cell member => (frame i bounded same cell member).1
  apart := by
    have foreign : ∀ i < table.shBkSize, i ≠ k →
        List.Disjoint (table.shBucket i :: lists i) (table.shBucket k :: list) := by
      intro i bounded other cell member also
      rcases List.mem_cons.mp also with rfl | also
      · exact holds.apart i bounded k inside other member List.mem_cons_self
      · exact (frame i bounded other cell member).2 also
    intro i bounded j limited differ
    by_cases first : i = k
    · subst first
      rw [Function.update_self, Function.update_of_ne differ.symm]
      exact fun _ here there => foreign j limited differ.symm there here
    · by_cases second : j = k
      · subst second
        rw [Function.update_self, Function.update_of_ne first]
        exact foreign i bounded first
      · rw [Function.update_of_ne first, Function.update_of_ne second]
        exact holds.apart i bounded j limited differ

/-- A link is unlinked from its bucket. -/
theorem ShashHolds.unlink [DecidableEq ρ] (holds : ShashHolds next table lists) {k : Nat}
    (inside : k < table.shBkSize) {done rest : List ρ} {prev curr : ρ}
    (split : table.shBucket k :: lists k = done ++ prev :: curr :: rest) (list : List ρ)
    (left : table.shBucket k :: list = done ++ prev :: rest) :
    ShashHolds (Function.update next prev (next curr)) table (Function.update lists k list) := by
  have chain := holds.chain k inside
  rw [split] at chain
  apply holds.update inside
  · rw [left]
    exact chain.unlink _
  · intro i bounded other cell member
    have foreign := holds.apart i bounded k inside other member
    rw [split] at foreign
    constructor
    · apply Function.update_of_ne
      rintro rfl
      exact foreign (by simp)
    · intro also
      have within : cell ∈ done ++ prev :: rest := by
        rw [← left]
        exact List.mem_cons_of_mem _ also
      apply foreign
      rcases List.mem_append.mp within with one | one
      · simp [one]
      · rcases List.mem_cons.mp one with rfl | one
        · simp
        · simp [one]

/-- Only the buckets and their links count. -/
theorem ShashHolds.of_agrees (holds : ShashHolds next table lists)
    (agrees : ∀ i < table.shBkSize, ∀ p ∈ table.shBucket i :: lists i, after p = next p) :
    ShashHolds after table lists where
  positive := holds.positive
  chain := fun i inside => (holds.chain i inside).congr (agrees i inside)
  apart := holds.apart

/-- A link is no bucket. -/
theorem ShashHolds.off_buckets (holds : ShashHolds next table lists) {link : ρ}
    (member : link ∈ elements table.shBkSize lists) :
    ∀ i < table.shBkSize, link ≠ table.shBucket i := by
  rintro i inside rfl
  obtain ⟨j, bounded, listed⟩ := mem_elements.mp member
  by_cases same : i = j
  · subst same
    exact (List.nodup_cons.mp (holds.chain i inside).nodup).1 listed
  · exact holds.apart i inside j bounded same List.mem_cons_self (List.mem_cons_of_mem _ listed)

/-- A store to a link that is in no bucket. -/
theorem ShashHolds.store [DecidableEq ρ] (holds : ShashHolds next table lists) {cell : ρ}
    (off : ∀ i < table.shBkSize, cell ∉ table.shBucket i :: lists i) (link : Option ρ) :
    ShashHolds (Function.update next cell link) table lists where
  positive := holds.positive
  chain := fun i inside => (holds.chain i inside).update (off i inside) link
  apart := holds.apart

/-- A link is unlinked from its bucket and reset. -/
theorem ShashHolds.remove [DecidableEq ρ] (holds : ShashHolds next table lists) {k : Nat}
    (inside : k < table.shBkSize) {done rest : List ρ} {prev curr : ρ}
    (split : table.shBucket k :: lists k = done ++ prev :: curr :: rest) (list : List ρ)
    (left : table.shBucket k :: list = done ++ prev :: rest) :
    ShashHolds (Function.update (Function.update next prev (next curr)) curr none) table
      (Function.update lists k list) := by
  apply (holds.unlink inside split list left).store
  intro i bounded
  by_cases same : i = k
  · subst same
    have chain := holds.chain i inside
    rw [split] at chain
    rw [Function.update_self, left]
    exact chain.notMem _
  · rw [Function.update_of_ne same]
    intro member
    have foreign := holds.apart i bounded k inside same member
    rw [split] at foreign
    exact foreign (by simp)

/-- A link is put in front of its bucket. -/
theorem ShashHolds.addFront [DecidableEq ρ] (holds : ShashHolds next table lists) {k : Nat}
    (inside : k < table.shBkSize) {elm : ρ}
    (fresh : ∀ i < table.shBkSize, elm ∉ table.shBucket i :: lists i) :
    ShashHolds (slinkAddFront next (table.shBucket k) elm) table
      (Function.update lists k (elm :: lists k)) := by
  apply holds.update inside
  · exact chain_slinkAddFront (holds.chain k inside) (fresh k inside)
  · intro i bounded other cell member
    have away : cell ≠ elm := by
      rintro rfl
      exact fresh i bounded member
    have foreign := holds.apart i bounded k inside other member
    constructor
    · unfold slinkAddFront
      rw [Function.update_of_ne (List.ne_of_not_mem_cons foreign), Function.update_of_ne away]
    · intro also
      rcases List.mem_cons.mp also with same | also
      · exact away same
      · exact foreign (List.mem_cons_of_mem _ also)

end Tvntd
