import Tvntd.Ctype.DhashIter
import Tvntd.Ctype.DlistFilter
import Tvntd.Ctype.ShashFilter

/-! # Filtering a ring and both tables

`dhash_filter` is the loop of `dlist_filter_out` over every bucket. Neither filter
of a table touches the count of its elements, which is wrong as soon as one is
moved.
-/

namespace Tvntd

open Buckets LinkedCells

variable {ε : Type*}

/-- The variables of both loops: the bucket, the position in its ring once the inner loop runs, and
the two lists. `applied` are the elements the selection was applied to. -/
structure DhashFilterVars (ε : Type*) where
  idx : Nat
  iter : Option Nat
  table : Dhash ε
  newlst : List ε
  applied : List ε

/-- `dhash_filter` -/
def dhashFilter (selectFn : ε → Nat → Bool) : Loop (DhashFilterVars ε) (DhashFilterVars ε) where
  turn vars :=
    match vars.iter with
    | none =>
        if vars.idx < vars.table.dhBkSize then
          some (.inl { vars with iter := some (dlistIterInit (vars.table.dhBucket vars.idx)) })
        else some (.inr vars)
    | some iter =>
        let bucket := vars.table.dhBucket vars.idx
        if dlistIterTerm iter then some (.inl { vars with idx := vars.idx + 1, iter := none })
        else
          bucket[iter - 1]?.bind fun elm =>
            let applied := vars.applied ++ [elm]
            if selectFn elm vars.idx then
              (dlistIterRmCurr bucket iter).map fun (cur, bucket, iter) =>
                let table := { vars.table with
                  dhBucket := Function.update vars.table.dhBucket vars.idx bucket }
                .inl ⟨vars.idx, some (dlistIterNext bucket iter), table, vars.newlst ++ [cur],
                  applied⟩
            else
              some (.inl { vars with iter := some (dlistIterNext bucket iter), applied := applied })

def dhashFilterStart (table : Dhash ε) (newlst : List ε) : DhashFilterVars ε :=
  ⟨0, none, table, newlst, []⟩

variable {table : Dhash ε} {size k : Nat} {lists : Nat → List ε} {selectFn : ε → Nat → Bool}
  {newlst : List ε}

/-! ## The ring table -/

/-- No turn of the filter touches the count. -/
theorem dhashFilter_count {vars : DhashFilterVars ε}
    {outcome : DhashFilterVars ε ⊕ DhashFilterVars ε}
    (turn : (dhashFilter selectFn).turn vars = some outcome) :
    (outcome.elim id id).table.dhElmCnt = vars.table.dhElmCnt := by
  unfold dhashFilter at turn
  simp only at turn
  split at turn
  · split at turn
    · cases turn
      rfl
    · cases turn
      rfl
  · split at turn
    · cases turn
      rfl
    · obtain ⟨elm, -, taken⟩ := Option.bind_eq_some_iff.mp turn
      split at taken
      · obtain ⟨removed, -, moved⟩ := Option.map_eq_some_iff.mp taken
        cases moved
        rfl
      · cases taken
        rfl

/-- The inner loop over elements that are not selected. -/
theorem dhashFilter_skip (newlst : List ε) {rest : List ε}
    (skipped : ∀ elm ∈ rest, selectFn elm k = false) :
    ∀ done applied : List ε, table.dhBucket k = done ++ rest → (dhashFilter selectFn).Goes
      ⟨k, some (dlistAt done rest), table, newlst, applied⟩
      ⟨k, some 0, table, newlst, applied ++ rest⟩ := by
  induction rest with
  | nil =>
      intro done applied bucket
      rw [List.append_nil]
      exact .refl _
  | cons elm rest ih =>
      intro done applied bucket
      have goes : (dhashFilter selectFn).turn
          ⟨k, some (dlistAt done (elm :: rest)), table, newlst, applied⟩ =
            some (.inl ⟨k, some (dlistAt (done ++ [elm]) rest), table, newlst,
              applied ++ [elm]⟩) := by
        have position : dlistAt done (elm :: rest) = done.length + 1 := rfl
        simp [dhashFilter, position, dlistIterTerm, bucket, skipped elm, dlistIterNext_append]
      have later := ih (fun elm member => skipped elm (List.mem_cons_of_mem _ member)) _
        (applied ++ [elm]) (bucket.trans (List.append_cons done elm rest))
      rw [List.append_cons applied elm rest]
      exact later.head goes

/-- Where nothing is selected, the filter applies the selection to every element once and changes
nothing. -/
theorem dhashFilter_none (holds : DhashHolds table size lists)
    (skipped : ∀ i < size, ∀ elm ∈ lists i, selectFn elm i = false) :
    (dhashFilter selectFn).Returns (dhashFilterStart table newlst)
      ⟨size, none, table, newlst, elements size lists⟩ := by
  have bucket : ∀ k < size, (dhashFilter selectFn).Goes
      ⟨k, none, table, newlst, elements k lists⟩
      ⟨k + 1, none, table, newlst, elements (k + 1) lists⟩ := by
    intro k inside
    have list := holds.bucket k inside
    have walked := dhashFilter_skip newlst (skipped k inside) [] (elements k lists) list
    have enters : (dhashFilter selectFn).turn ⟨k, none, table, newlst, elements k lists⟩ =
        some (.inl ⟨k, some (dlistAt [] (lists k)), table, newlst, elements k lists⟩) := by
      simp [dhashFilter, holds.sized, inside, list, dlistIterInit_eq]
    have leaves : (dhashFilter selectFn).turn
        ⟨k, some 0, table, newlst, elements k lists ++ lists k⟩ =
          some (.inl ⟨k + 1, none, table, newlst, elements (k + 1) lists⟩) := by
      simp [dhashFilter, dlistIterTerm, elements_succ]
    exact (walked.trans (.head leaves (.refl _))).head enters
  apply (Loop.goes_upto bucket).returns_iff.mpr
  apply Loop.returns_of_done
  simp [dhashFilter, holds.sized]

/-- The elements of the buckets that are not selected. -/
def keptOf (selectFn : ε → Nat → Bool) (lists : Nat → List ε) : Nat → List ε :=
  fun i => (lists i).filter fun elm => !selectFn elm i

/-- The selected elements of the buckets. -/
def selectedOf (selectFn : ε → Nat → Bool) (lists : Nat → List ε) : Nat → List ε :=
  fun i => (lists i).filter fun elm => selectFn elm i

/-- No element in a bucket is selected. -/
def NoneSelected (selectFn : ε → Nat → Bool) (size : Nat) (lists : Nat → List ε) : Prop :=
  ∀ i < size, ∀ elm ∈ lists i, selectFn elm i = false

private theorem noneSelected_iff : NoneSelected selectFn size lists ↔
    (elements size (keptOf selectFn lists)).length = (elements size lists).length := by
  have whole := length_elements_filter_iff size lists fun i elm => !selectFn elm i
  unfold NoneSelected keptOf
  rw [whole]
  simp only [Bool.not_eq_true']

theorem NoneSelected.kept (none : NoneSelected selectFn size lists) :
    ∀ i < size, keptOf selectFn lists i = lists i := fun i inside =>
  List.filter_eq_self.mpr fun elm member => by simp [none i inside elm member]

theorem NoneSelected.selected (none : NoneSelected selectFn size lists) :
    elements size (selectedOf selectFn lists) = [] := by
  apply List.flatMap_eq_nil_iff.mpr
  intro i inside
  apply List.filter_eq_nil_iff.mpr
  intro elm member
  rw [none i (List.mem_range.mp inside) elm member]
  exact Bool.false_ne_true

/-- `dhash_filter` applies the selection once to each element, moves the selected ones, and leaves
the table with the others, counted. -/
def DhashFilterRight (selectFn : ε → Nat → Bool) (table : Dhash ε) (size : Nat)
    (lists : Nat → List ε) (newlst : List ε) : Prop :=
  ∃ result, (dhashFilter selectFn).Returns (dhashFilterStart table newlst) result ∧
    result.applied.Perm (elements size lists) ∧
    DhashHolds result.table size (keptOf selectFn lists) ∧
    result.newlst.Perm (newlst ++ elements size (selectedOf selectFn lists))

private theorem dhashFilterRight_iff (holds : DhashHolds table size lists) :
    DhashFilterRight selectFn table size lists newlst ↔ NoneSelected selectFn size lists := by
  constructor
  · rintro ⟨result, returned, -, held, -⟩
    have count : result.table.dhElmCnt = table.dhElmCnt := by
      refine returned.of_invariant (fun vars => vars.table.dhElmCnt = table.dhElmCnt)
        (fun result => result.table.dhElmCnt = table.dhElmCnt) ?_ ?_ rfl
      · intro vars next before went
        exact (dhashFilter_count went).trans before
      · intro vars result before done
        exact (dhashFilter_count done).trans before
    rw [held.count, holds.count] at count
    exact noneSelected_iff.mpr (Int.ofNat_inj.mp count)
  · intro none
    refine ⟨_, dhashFilter_none holds none, .refl _, holds.congr none.kept, ?_⟩
    rw [none.selected, List.append_nil]

/-! ## The chained table -/

section Chained

variable {ρ : Type*} [DecidableEq ρ] {next : SlNext ρ} {chained : ShashTable ρ}
  {links : Nat → List ρ} {select : ρ → Nat → Bool} {root : ρ} {dest : List ρ}

/-- `shash_filter` applies the selection once to each element, moves the selected ones, and leaves
the table with the others, counted. -/
def ShashFilterRight (select : ρ → Nat → Bool) (next : SlNext ρ) (chained : ShashTable ρ)
    (links : Nat → List ρ) (root : ρ) (dest : List ρ) : Prop :=
  ∃ result, (shashFilter chained root select).Returns (shashFilterStart next) result ∧
    result.applied.Perm (elements chained.shBkSize links) ∧
    ShashHolds result.next chained (keptOf select links) ∧
    chained.shElmCnt = (elements chained.shBkSize (keptOf select links)).length ∧
    ∃ into, into.Perm (dest ++ elements chained.shBkSize (selectedOf select links)) ∧
      ChainOf result.next root (root :: into)

private theorem shashFilterRight_iff (holds : ShashHolds next chained links)
    (count : chained.shElmCnt = (elements chained.shBkSize links).length)
    (chain : ChainOf next root (root :: dest)) :
    ShashFilterRight select next chained links root dest ↔
      NoneSelected select chained.shBkSize links := by
  constructor
  · rintro ⟨result, -, -, -, counted, -⟩
    rw [count] at counted
    exact noneSelected_iff.mpr (Int.ofNat_inj.mp counted).symm
  · intro none
    refine ⟨_, shashFilter_none root holds none, .refl _, holds.congr none.kept, ?_, dest, ?_,
      chain⟩
    · rw [count, noneSelected_iff.mp none]
    · rw [none.selected, List.append_nil]

/-- **Filters, exactly.** The filter of a ring applies its predicate once to each element, moves the
selected ones and leaves the others in order exactly for the safe runs; the filters of both tables
do that and keep their counts exactly where they select nothing. -/
theorem filters_move_iff {old moved : List ε} (distinct : old.Nodup) (sel : ε → Bool)
    (rings : DhashHolds table size lists) (holds : ShashHolds next chained links)
    (count : chained.shElmCnt = (elements chained.shBkSize links).length)
    (chain : ChainOf next root (root :: dest)) :
    (DlistFilterRight sel old moved ↔ DlistRunsSafe sel old) ∧
    (DhashFilterRight selectFn table size lists newlst ↔ NoneSelected selectFn size lists) ∧
    (ShashFilterRight select next chained links root dest ↔
      NoneSelected select chained.shBkSize links) :=
  ⟨dlistFilterRight_iff distinct moved, dhashFilterRight_iff rings,
    shashFilterRight_iff holds count chain⟩

end Chained

/-- One bucket with one element. -/
private def oneRing : Dhash Nat := ⟨fun _ => [1], 1, 1, 0⟩

private theorem oneRing_holds : DhashHolds oneRing 1 fun _ => [1] where
  positive := by decide
  sized := rfl
  bucket := fun _ _ => rfl
  nodup := by decide
  count := by decide

/-- One bucket at address 0 with the link 1; the list at address 9 is empty. -/
private def oneLink : SlNext Nat := fun link => if link = 0 then some 1 else none

private theorem oneLink_holds : ShashHolds oneLink ⟨fun _ => 0, 1, 1⟩ fun _ => [1] where
  positive := by decide
  chain := by decide
  apart := by
    intro i first j second differ
    change i < 1 at first
    change j < 1 at second
    omega

/-- Every second link of a ring is moved, and tables that select nothing are walked over. -/
theorem filters_move_iff_three : DlistFilterRight (fun elm => elm % 2 = 1) [1, 2, 3] [] ∧
    DhashFilterRight (fun elm _ => elm = 5) oneRing 1 (fun _ => [1]) [] ∧
    ShashFilterRight (fun elm _ => elm = 5) oneLink ⟨fun _ => 0, 1, 1⟩ (fun _ => [1]) 9 [] := by
  have unselected : ∀ i < 1, ∀ elm ∈ [1], decide (elm = 5) = false := by decide
  have iffs : (DlistFilterRight (fun elm => elm % 2 = 1) [1, 2, 3] [] ↔ _) ∧
      (DhashFilterRight (fun elm _ => elm = 5) oneRing 1 (fun _ => [1]) [] ↔ _) ∧
      (ShashFilterRight (fun elm _ => elm = 5) oneLink ⟨fun _ => 0, 1, 1⟩ (fun _ => [1]) 9 [] ↔
        _) :=
    filters_move_iff (by decide) _ oneRing_holds oneLink_holds (by decide) (by decide)
  refine ⟨iffs.1.mpr ⟨1, by decide, ?_⟩, iffs.2.1.mpr unselected, iffs.2.2.mpr unselected⟩
  intro gap member
  obtain rfl : gap = (2, 1) := by simpa [Selection.gaps] using member
  exact ⟨1, by decide, by decide⟩

/-- The second of two selected links of a ring stays, and both tables still count what they
moved. -/
theorem filters_move_wrong : ¬ DlistFilterRight (fun _ => true) [1, 2] [] ∧
    ¬ DhashFilterRight (fun _ _ => true) oneRing 1 (fun _ => [1]) [] ∧
    ¬ ShashFilterRight (fun _ _ => true) oneLink ⟨fun _ => 0, 1, 1⟩ (fun _ => [1]) 9 [] := by
  refine ⟨?_, ?_, ?_⟩
  · rintro ⟨result, returned, -, kept, -⟩
    have ran : (dlistFilterOut fun _ : Nat => true).Returns (dlistFilterStart [1, 2] [])
        ⟨[2], 0, [1], [1]⟩ := ⟨2, rfl⟩
    cases returned.unique ran
    exact absurd kept (by decide)
  · intro right
    have none := (dhashFilterRight_iff oneRing_holds).mp right
    exact absurd (none 0 (by decide) 1 (by decide)) (by decide)
  · intro right
    have none := (shashFilterRight_iff oneLink_holds (by decide) (by decide)).mp right
    exact absurd (none 0 (by decide) 1 (by decide)) (by decide)

end Tvntd
