import Tvntd.Ctype.ShashLinks

/-! # Filtering a table

`shash_filter` runs the loop of `slink_filter_out` over every bucket. It does not
touch `sh_elm_cnt`, and it links an element it selected into the other list while
the iterator stands on it.
-/

namespace Tvntd

open LinkedCells Buckets

variable {ρ : Type*} [DecidableEq ρ]

/-- The variables of both loops: the bucket, its iterator once the inner loop runs, and the memory.
`applied` are the elements the selection was applied to, `moved` the selected ones. -/
structure ShashFilterVars (ρ : Type*) where
  idx : Nat
  iter : Option (SlinkIter ρ)
  next : SlNext ρ
  applied : List ρ
  moved : List ρ

/-- `shash_filter` -/
def shashFilter (table : ShashTable ρ) (newlst : ρ) (selectFn : ρ → Nat → Bool) :
    Loop (ShashFilterVars ρ) (ShashFilterVars ρ) where
  turn vars :=
    match vars.iter with
    | none =>
        if vars.idx < table.shBkSize then
          some (.inl { vars with
            iter := some (slinkIterInit vars.next (some (table.shBucket vars.idx))) })
        else some (.inr vars)
    | some iter =>
        match iter.slCurr with
        | none => some (.inl { vars with idx := vars.idx + 1, iter := none })
        | some curr =>
            let applied := vars.applied ++ [curr]
            if selectFn curr vars.idx then
              (slinkIterRmCurr vars.next iter).bind fun (chk, unlinked) =>
                if chk = some curr then
                  let next := slinkAddFront unlinked newlst curr
                  (slinkIterNext next iter).map fun stepped =>
                    .inl ⟨vars.idx, some stepped, next, applied, vars.moved ++ [curr]⟩
                else none
            else
              (slinkIterNext vars.next iter).map fun stepped =>
                .inl { vars with iter := some stepped, applied := applied }

def shashFilterStart (next : SlNext ρ) : ShashFilterVars ρ := ⟨0, none, next, [], []⟩

variable {next : SlNext ρ} {table : ShashTable ρ} {lists : Nat → List ρ} {newlst : ρ}
  {selectFn : ρ → Nat → Bool} {moved : List ρ}

/-- The inner loop over elements that are not selected. -/
theorem shashFilter_skip (table : ShashTable ρ) (newlst : ρ) (moved : List ρ) {first prev : ρ}
    {k : Nat} {rest : List ρ} (skipped : ∀ elm ∈ rest, selectFn elm k = false)
    (done applied : List ρ) (chain : ChainOf next first (done ++ prev :: rest)) :
    ∃ iter : SlinkIter ρ, iter.slCurr = none ∧ (shashFilter table newlst selectFn).Goes
      ⟨k, some ⟨some prev, rest.head?⟩, next, applied, moved⟩
      ⟨k, some iter, next, applied ++ rest, moved⟩ := by
  have whole : ChainOf next first (done ++ prev :: (rest ++ [])) := by simpa using chain
  have turn : ∀ prev curr passed, curr ∈ rest → next prev = some curr →
      (shashFilter table newlst selectFn).turn
        ⟨k, some ⟨some prev, some curr⟩, next, passed, moved⟩ =
          some (.inl ⟨k, some ⟨some curr, next curr⟩, next, passed ++ [curr], moved⟩) := by
    intro prev curr passed member here
    simp [shashFilter, skipped curr member, slinkIterNext]
  obtain ⟨front, last, -, walked⟩ := whole.walk (shashFilter table newlst selectFn)
    (fun prev curr applied => ⟨k, some ⟨some prev, curr⟩, next, applied, moved⟩) turn done applied
  rw [List.append_nil] at walked
  exact ⟨_, rfl, walked⟩

/-- Where nothing is selected, the filter applies the selection to every element once and changes
nothing. -/
theorem shashFilter_none (newlst : ρ) (holds : ShashHolds next table lists)
    (skipped : ∀ i < table.shBkSize, ∀ elm ∈ lists i, selectFn elm i = false) :
    (shashFilter table newlst selectFn).Returns (shashFilterStart next)
      ⟨table.shBkSize, none, next, elements table.shBkSize lists, []⟩ := by
  have bucket : ∀ k < table.shBkSize, (shashFilter table newlst selectFn).Goes
      ⟨k, none, next, elements k lists, []⟩ ⟨k + 1, none, next, elements (k + 1) lists, []⟩ := by
    intro k inside
    obtain ⟨iter, ended, walked⟩ := shashFilter_skip table newlst [] (skipped k inside) []
      (elements k lists) (holds.chain k inside)
    have enters : (shashFilter table newlst selectFn).turn ⟨k, none, next, elements k lists, []⟩ =
        some (.inl ⟨k, some ⟨some (table.shBucket k), (lists k).head?⟩, next, elements k lists,
          []⟩) := by
      have first := ChainOf.head_eq (holds.chain k inside)
      simp [shashFilter, inside, slinkIterInit, first]
    have leaves : (shashFilter table newlst selectFn).turn
        ⟨k, some iter, next, elements k lists ++ lists k, []⟩ =
          some (.inl ⟨k + 1, none, next, elements (k + 1) lists, []⟩) := by
      simp [shashFilter, ended, elements_succ]
    exact (walked.trans (.head leaves (.refl _))).head enters
  apply (Loop.goes_upto bucket).returns_iff.mpr
  apply Loop.returns_of_done
  simp [shashFilter]

end Tvntd
