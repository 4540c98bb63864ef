import Mathlib.Data.List.Perm.Basic
import Tvntd.Ctype.List

/-! # Filtering elements out of a list

The three filters walk over a list, unlink a selected element and link it into
the other list while the iterator still stands on it. What the iterator takes for
the next element is then the link the element got in its new list: the element
that was first there for `slink_filter_out`, and `NULL` for the two that append.

So nothing goes wrong while nothing is selected, and something goes wrong as soon
as an element is.
-/

namespace Tvntd

open LinkedCells Function

variable {ρ δ α : Type*} [DecidableEq ρ]

/-- The variables of a filter: the memory, the iterator, the list that takes the selected elements
and their number. `applied` are the elements the selection was applied to so far. -/
structure FilterOut (ρ α : Type*) where
  next : SlNext ρ
  iter : SlinkIter ρ
  into : α
  cnt : Nat
  applied : List ρ

/-- The loop of the filters, which end with their variables. `put` links an unlinked element, given
what `slink_iter_rm_curr` returned and the current link. -/
def filterOutLoop (put : SlNext ρ → α → Option ρ → ρ → Option (SlNext ρ × α)) (sel : ρ → Bool) :
    Loop (FilterOut ρ α) (FilterOut ρ α) where
  turn vars :=
    match vars.iter.slCurr with
    | none => some (.inr vars)
    | some curr =>
        let applied := vars.applied ++ [curr]
        if sel curr then
          (slinkIterRmCurr vars.next vars.iter).bind fun removed =>
            (put removed.2 vars.into removed.1 curr).bind fun stored =>
              (slinkIterNext stored.1 vars.iter).map fun moved =>
                .inl ⟨stored.1, moved, stored.2, vars.cnt + 1, applied⟩
        else
          (slinkIterNext vars.next vars.iter).map fun moved =>
            .inl { vars with iter := moved, applied := applied }

/-- The variables at the first turn. -/
def filterOutStart (next : SlNext ρ) (root : ρ) (into : α) : FilterOut ρ α :=
  ⟨next, slinkIterInit next (some root), into, 0, []⟩

/-- What a filter returns, what it applied the selection to, and what it leaves. -/
structure FilteredOut (ρ α : Type*) where
  ret : Nat
  applied : List ρ
  next : SlNext ρ
  root : α
  nlst : α

/-- Where `slink_filter_out` links what it selected. -/
abbrev putFront (next : SlNext ρ) (nlst : ρ) (matched : Option ρ) (_ : ρ) :
    Option (SlNext ρ × ρ) :=
  matched.map fun matched => (slinkAddFront next nlst matched, nlst)

/-- Where the other two do, behind their `assert`. -/
abbrev putBack (next : SlNext ρ) (nlst : Slist ρ) (chk : Option ρ) (curr : ρ) :
    Option (SlNext ρ × Slist ρ) :=
  if chk = some curr then slistInsertBack next nlst curr else none

/-- `slink_filter_out`. It counts nothing. -/
def slinkFilterOut (root nlst : ρ) (sel : ρ → Bool) : Loop (FilterOut ρ ρ) (FilteredOut ρ ρ) :=
  (filterOutLoop putFront sel).andThen fun vars =>
    some ⟨0, vars.applied, vars.next, root, nlst⟩

/-- `slist_filter_out` -/
def slistFilterOut (root : Slist ρ) (sel : ρ → Bool) :
    Loop (FilterOut ρ (Slist ρ)) (FilteredOut ρ (Slist ρ)) :=
  (filterOutLoop putBack sel).andThen fun vars =>
    some ⟨vars.cnt, vars.applied, vars.next, root, vars.into⟩

/-- `slist_filter_out_data` -/
def slistFilterOutData (slData : ρ → δ) (root : Slist ρ) (sel : δ → Bool) :
    Loop (FilterOut ρ (Slist ρ)) (FilteredOut ρ (Slist ρ)) :=
  slistFilterOut root fun curr => sel (slData curr)

/-! ## Walks over unselected elements -/

section Walk

variable {sel : ρ → Bool} {next : SlNext ρ} {first root : ρ} {rest source : List ρ}

/-- The loop walks over the elements that are not selected. -/
theorem filterOutLoop_skip (put : SlNext ρ → α → Option ρ → ρ → Option (SlNext ρ × α))
    {before : List ρ} (skipped : ∀ elm ∈ before, sel elm = false) (into : α) (cnt : Nat)
    (done applied : List ρ) {prev : ρ}
    (chain : ChainOf next first (done ++ prev :: (before ++ rest))) :
    ∃ front last, prev :: before = front ++ [last] ∧ (filterOutLoop put sel).Goes
      ⟨next, ⟨some prev, (before ++ rest).head?⟩, into, cnt, applied⟩
      ⟨next, ⟨some last, rest.head?⟩, into, cnt, applied ++ before⟩ := by
  refine chain.walk (filterOutLoop put sel)
    (fun prev curr applied => ⟨next, ⟨some prev, curr⟩, into, cnt, applied⟩) ?_ done applied
  intro prev curr passed member here
  simp [filterOutLoop, skipped curr member, slinkIterNext]

/-- A filter that selects nothing applies the selection to every element and changes nothing. -/
theorem filterOutLoop_none (put : SlNext ρ → α → Option ρ → ρ → Option (SlNext ρ × α))
    (chain : ChainOf next root (root :: source)) (skipped : ∀ elm ∈ source, sel elm = false)
    (into : α) :
    ∃ iter, (filterOutLoop put sel).Returns (filterOutStart next root into)
      ⟨next, iter, into, 0, source⟩ := by
  have whole : ChainOf next root ([] ++ root :: (source ++ [])) := by simpa using chain
  obtain ⟨front, last, -, walked⟩ := filterOutLoop_skip put skipped into 0 [] [] whole
  have starts : filterOutStart next root into =
      ⟨next, ⟨some root, (source ++ []).head?⟩, into, 0, []⟩ := by
    unfold filterOutStart slinkIterInit
    rw [Option.bind_some, ChainOf.head_eq chain, List.append_nil]
  rw [starts]
  exact ⟨_, walked.returns_iff.mpr (Loop.returns_of_done rfl)⟩

/-- The walk up to the first selected element, which is then the current one. -/
theorem filterOutLoop_reach (put : SlNext ρ → α → Option ρ → ρ → Option (SlNext ρ × α))
    {before : List ρ} {elm : ρ} (chain : ChainOf next root (root :: (before ++ elm :: rest)))
    (skipped : ∀ other ∈ before, sel other = false) (into : α) :
    ∃ front last, root :: before = front ++ [last] ∧ (filterOutLoop put sel).Goes
      (filterOutStart next root into) ⟨next, ⟨some last, some elm⟩, into, 0, before⟩ := by
  obtain ⟨front, last, split, walked⟩ := filterOutLoop_skip put skipped into 0 [] [] chain
  refine ⟨front, last, split, ?_⟩
  unfold filterOutStart slinkIterInit
  rw [Option.bind_some, ChainOf.head_eq chain]
  exact walked

end Walk

/-! ## What a filter is to leave -/

/-- The selection was applied once to each element, the selected ones are in the other list, the
others are left in order, and their number is returned. -/
structure SlinkFiltered (source dest : List ρ) (sel : ρ → Bool) (result : FilteredOut ρ ρ) :
    Prop where
  applied : result.applied.Perm source
  kept : ChainOf result.next result.root (result.root :: source.filter fun elm => !sel elm)
  moved : ∃ into, into.Perm (dest ++ source.filter sel) ∧
    ChainOf result.next result.nlst (result.nlst :: into)
  ret : result.ret = (source.filter sel).length

/-- The same of two lists with tails. -/
structure SlistFiltered (source dest : List ρ) (sel : ρ → Bool) (result : FilteredOut ρ (Slist ρ)) :
    Prop where
  applied : result.applied.Perm source
  kept : SlistHolds result.next result.root (source.filter fun elm => !sel elm)
  moved : ∃ into, into.Perm (dest ++ source.filter sel) ∧
    SlistHolds result.next result.nlst into
  ret : result.ret = (source.filter sel).length

def SlinkFilterOutRight (next : SlNext ρ) (root nlst : ρ) (source dest : List ρ)
    (sel : ρ → Bool) : Prop :=
  ∃ result, (slinkFilterOut root nlst sel).Returns (filterOutStart next root nlst) result ∧
    SlinkFiltered source dest sel result

def SlistFilterOutRight (next : SlNext ρ) (root nlst : Slist ρ) (source dest : List ρ)
    (sel : ρ → Bool) : Prop :=
  ∃ result, (slistFilterOut root sel).Returns (filterOutStart next root.slHead nlst) result ∧
    result.root.slHead = root.slHead ∧ result.nlst.slHead = nlst.slHead ∧
    SlistFiltered source dest sel result

def SlistFilterOutDataRight (next : SlNext ρ) (slData : ρ → δ) (root nlst : Slist ρ)
    (source dest : List ρ) (sel : δ → Bool) : Prop :=
  ∃ result,
    (slistFilterOutData slData root sel).Returns (filterOutStart next root.slHead nlst) result ∧
    result.root.slHead = root.slHead ∧ result.nlst.slHead = nlst.slHead ∧
    SlistFiltered source dest (fun elm => sel (slData elm)) result

variable {sel : ρ → Bool} {next : SlNext ρ} {source dest : List ρ}

omit [DecidableEq ρ] in
private theorem filters_of_none (skipped : ∀ elm ∈ source, sel elm = false) :
    source.filter sel = [] ∧ source.filter (fun elm => !sel elm) = source := by
  constructor
  · simpa using skipped
  · simpa [List.filter_eq_self] using skipped

/-- `slink_filter_out` returns 0, so it is right only where nothing is to be moved. -/
theorem slinkFilterOutRight_iff {root nlst : ρ} (chain : ChainOf next root (root :: source))
    (other : ChainOf next nlst (nlst :: dest)) :
    SlinkFilterOutRight next root nlst source dest sel ↔ ∀ elm ∈ source, sel elm = false := by
  constructor
  · rintro ⟨result, returned, right⟩
    obtain ⟨vars, -, ended⟩ := returned.of_andThen
    have zero : result.ret = 0 := by
      cases ended
      rfl
    rw [right.ret] at zero
    simpa using List.length_eq_zero_iff.mp zero
  · intro skipped
    obtain ⟨iter, returned⟩ := filterOutLoop_none putFront chain skipped nlst
    obtain ⟨none, all⟩ := filters_of_none skipped
    refine ⟨_, returned.andThen rfl, .refl source, ?_, ⟨dest, ?_, other⟩, ?_⟩
    · rw [all]
      exact chain
    · rw [none, List.append_nil]
    · rw [none]
      rfl

/-- `slist_filter_out` moves the first selected element and stops. It leaves the tail of the source
as it was. -/
theorem slistFilterOut_some {root nlst : Slist ρ} {before rest : List ρ} {elm : ρ}
    (holds : SlistHolds next root (before ++ elm :: rest)) (other : SlistHolds next nlst dest)
    (apart : List.Disjoint (root.slHead :: (before ++ elm :: rest)) (nlst.slHead :: dest))
    (skipped : ∀ elm ∈ before, sel elm = false) (selected : sel elm = true) :
    ∃ after, (slistFilterOut root sel).Returns (filterOutStart next root.slHead nlst)
        ⟨1, before ++ [elm], after, root, { nlst with slTail := some elm }⟩ ∧
      ChainOf after root.slHead (root.slHead :: (before ++ rest)) ∧
      SlistHolds after { nlst with slTail := some elm } (dest ++ [elm]) := by
  obtain ⟨front, last, split, walked⟩ := filterOutLoop_reach putBack holds.chain skipped nlst
  have chain := holds.chain
  rw [← List.cons_append, split] at chain apart
  have here : ChainOf next root.slHead (front ++ last :: elm :: rest) := by simpa using chain
  have taken := here.remove front
  -- neither store of the removal is to a link of the other list
  have foreign : ∀ cell ∈ front ++ [last] ++ elm :: rest, cell ∉ nlst.slHead :: dest := apart
  have off : elm ∉ nlst.slHead :: dest := foreign elm (by simp)
  have unlinked : SlistHolds (update (update next last (next elm)) elm none)
      nlst dest :=
    ⟨(other.chain.update (foreign last (by simp)) _).update off _, other.tail⟩
  obtain ⟨after, inserted, held⟩ := unlinked.insertBack off
  have ended : after elm = none := by
    have appended := held.chain
    exact ChainOf.next_eq (nlst.slHead :: dest) appended
  have left : ChainOf after root.slHead (front ++ last :: rest) := by
    apply taken.congr
    intro cell member
    have inside : cell ∈ front ++ [last] ++ elm :: rest := by
      rcases List.mem_append.mp member with one | one
      · simp [one]
      · rcases List.mem_cons.mp one with rfl | one
        · simp
        · simp [one]
    have outside := foreign cell inside
    refine slistInsertBack_frame inserted (List.ne_of_not_mem_cons outside) ?_ ?_
    · intro same
      rw [other.tail] at same
      exact outside (List.mem_cons_of_mem _ (List.mem_of_getLast? same))
    · rintro rfl
      exact here.notMem _ member
  have moves : (filterOutLoop (fun next nlst chk curr =>
      if chk = some curr then slistInsertBack next nlst curr else none) sel).turn
        ⟨next, ⟨some last, some elm⟩, nlst, 0, before⟩ =
      some (.inl ⟨after, ⟨some elm, none⟩, { nlst with slTail := some elm }, 1,
        before ++ [elm]⟩) := by
    simp [filterOutLoop, selected, slinkIterRmCurr, inserted, slinkIterNext, ended]
  have returned := walked.returns_iff.mpr ((Loop.returns_of_done rfl).of_turn moves)
  refine ⟨after, returned.andThen rfl, ?_, held⟩
  rw [← List.cons_append, split]
  simpa using left

/-- `slist_filter_out` is right only where nothing is to be moved: it leaves `sl_tail` on an element
that is gone, or does not reach the last element. -/
theorem slistFilterOutRight_iff {root nlst : Slist ρ} (holds : SlistHolds next root source)
    (other : SlistHolds next nlst dest)
    (apart : List.Disjoint (root.slHead :: source) (nlst.slHead :: dest)) :
    SlistFilterOutRight next root nlst source dest sel ↔ ∀ elm ∈ source, sel elm = false := by
  constructor
  · rintro ⟨result, returned, -, -, right⟩
    by_contra some
    have found : (source.find? sel).isSome := by
      rw [List.find?_isSome]
      simpa using some
    obtain ⟨elm, first⟩ := Option.isSome_iff_exists.mp found
    obtain ⟨selected, before, rest, rfl, others⟩ := List.find?_eq_some_iff_append.mp first
    obtain ⟨after, moved, -⟩ :=
      slistFilterOut_some holds other apart (by simpa using others) selected
    cases returned.unique moved
    have all := right.applied.length_eq
    simp only [List.length_append, List.length_cons, List.length_nil] at all
    obtain rfl : rest = [] := List.length_eq_zero_iff.mp (by omega)
    -- the last element was moved, and the tail of the source still points to it
    have tail := right.kept.tail
    rw [holds.tail, List.getLast?_concat] at tail
    have kept := List.mem_of_getLast? tail.symm
    simp [selected] at kept
  · intro skipped
    obtain ⟨iter, returned⟩ := filterOutLoop_none putBack holds.chain skipped nlst
    obtain ⟨none, all⟩ := filters_of_none skipped
    refine ⟨_, returned.andThen rfl, rfl, rfl, .refl source, ?_, ⟨dest, ?_, other⟩, ?_⟩
    · rw [all]
      exact holds
    · rw [none, List.append_nil]
    · rw [none]
      rfl

/-! ## The filter that does not return -/

/-- Inside the destination, a selected element is moved to its front and the walk goes on behind
it, with the element that was the front before. -/
theorem filterOutLoop_inside {nlst prev curr : ρ} (done : List ρ) {rest : List ρ} (cnt : Nat)
    (applied : List ρ) (chain : ChainOf next nlst (nlst :: (done ++ prev :: curr :: rest)))
    (selected : sel curr = true) :
    ∃ after, (filterOutLoop putFront sel).turn ⟨next, ⟨some prev, some curr⟩, nlst, cnt, applied⟩ =
        some (.inl ⟨after, ⟨some curr, (done ++ prev :: rest).head?⟩, nlst, cnt + 1,
          applied ++ [curr]⟩) ∧
      ChainOf after nlst (nlst :: curr :: (done ++ prev :: rest)) := by
  have off := ChainOf.notMem (nlst :: done) chain
  have unlinked := ChainOf.remove (nlst :: done) chain
  have linked := chain_slinkAddFront unlinked off
  have behind := ChainOf.next_eq [nlst] linked
  refine ⟨_, ?_, linked⟩
  simp [filterOutLoop, selected, slinkIterRmCurr, slinkIterNext, behind]

/-- The first selected element of the source comes to the front of the destination, and the walk
goes on behind it, in the destination. -/
theorem filterOutLoop_enter {root nlst : ρ} {before rest : List ρ} {elm : ρ}
    (chain : ChainOf next root (root :: (before ++ elm :: rest)))
    (other : ChainOf next nlst (nlst :: dest))
    (apart : List.Disjoint (root :: (before ++ elm :: rest)) (nlst :: dest))
    (skipped : ∀ other ∈ before, sel other = false) (selected : sel elm = true) :
    ∃ after, (filterOutLoop putFront sel).Goes (filterOutStart next root nlst)
        ⟨after, ⟨some elm, dest.head?⟩, nlst, 1, before ++ [elm]⟩ ∧
      ChainOf after nlst (nlst :: elm :: dest) := by
  obtain ⟨front, last, split, walked⟩ := filterOutLoop_reach putFront chain skipped nlst
  rw [← List.cons_append, split] at apart
  have foreign : ∀ cell ∈ front ++ [last] ++ elm :: rest, cell ∉ nlst :: dest := apart
  have off := foreign elm (by simp)
  have away := (other.update (foreign last (by simp)) (next elm)).update off none
  have linked := chain_slinkAddFront away off
  have behind := ChainOf.next_eq [nlst] linked
  refine ⟨_, walked.trans (Loop.Goes.head ?_ (.refl _)), linked⟩
  simp [filterOutLoop, selected, slinkIterRmCurr, slinkIterNext, behind]

/-- With a selected element in each list, `slink_filter_out` moves two elements of the destination
to its front in turn, for ever. -/
theorem slinkFilterOut_diverges {root nlst : ρ} (chain : ChainOf next root (root :: source))
    (other : ChainOf next nlst (nlst :: dest))
    (apart : List.Disjoint (root :: source) (nlst :: dest))
    (inSource : ∃ elm ∈ source, sel elm = true) (inDest : ∃ elm ∈ dest, sel elm = true)
    (result : FilteredOut ρ ρ) :
    ¬ (slinkFilterOut root nlst sel).Returns (filterOutStart next root nlst) result := by
  obtain ⟨elm, first⟩ := Option.isSome_iff_exists.mp (List.find?_isSome.mpr inSource)
  obtain ⟨selected, before, rest, rfl, others⟩ := List.find?_eq_some_iff_append.mp first
  obtain ⟨also, second⟩ := Option.isSome_iff_exists.mp (List.find?_isSome.mpr inDest)
  obtain ⟨chosen, ahead, behind, rfl, unchosen⟩ := List.find?_eq_some_iff_append.mp second
  obtain ⟨entered, enters, inside⟩ :=
    filterOutLoop_enter chain other apart (by simpa using others) selected
  -- in the destination the walk reaches the first selected element, and its front is `elm`
  have unselected : ∀ elm ∈ ahead, sel elm = false := by simpa using unchosen
  obtain ⟨passed, prev, joined, reaches⟩ := filterOutLoop_skip putFront unselected nlst 1 [nlst]
    (before ++ [elm]) inside
  have walked : ChainOf entered nlst (nlst :: (passed ++ prev :: also :: behind)) := by
    rw [← List.cons_append, joined] at inside
    simpa using inside
  obtain ⟨turned, moves, swapped⟩ :=
    filterOutLoop_inside passed 1 (before ++ [elm] ++ ahead) walked chosen
  have goes := (enters.trans reaches).trans (.head moves (.refl _))
  -- from here on the two front elements of the destination change places
  intro returned
  obtain ⟨vars, looped, -⟩ := returned.of_andThen
  refine Loop.not_returns_of_invariant (fun vars : FilterOut ρ ρ =>
    ∃ front second rest, sel front = true ∧ sel second = true ∧ vars.into = nlst ∧
      vars.iter = ⟨some front, some second⟩ ∧
      ChainOf vars.next nlst (nlst :: front :: second :: rest)) ?_ ?_ (goes.returns_iff.mp looped)
  · rintro ⟨next, iter, into, cnt, applied⟩ ⟨front, second, rest, one, two, rfl, rfl, chain⟩
    obtain ⟨after, turn, still⟩ := filterOutLoop_inside [] cnt applied chain two
    exact ⟨_, turn, second, front, rest, two, one, rfl, rfl, still⟩
  · cases passed with
    | nil =>
        obtain ⟨rfl, -⟩ := List.cons.inj joined
        exact ⟨also, elm, behind, chosen, selected, rfl, rfl, swapped⟩
    | cons head passed =>
        rw [List.cons_append] at joined
        obtain ⟨rfl, -⟩ := List.cons.inj joined
        exact ⟨also, elm, _, chosen, selected, rfl, rfl, swapped⟩

/-- **The filters, exactly.** On two well-formed lists with no common link, each of the three is
right if and only if it selects nothing. -/
theorem filter_out_iff {root nlst : Slist ρ} (holds : SlistHolds next root source)
    (other : SlistHolds next nlst dest)
    (apart : List.Disjoint (root.slHead :: source) (nlst.slHead :: dest)) (slData : ρ → δ)
    (sel : ρ → Bool) (selData : δ → Bool) :
    (SlinkFilterOutRight next root.slHead nlst.slHead source dest sel ↔
        ∀ elm ∈ source, sel elm = false) ∧
      (SlistFilterOutRight next root nlst source dest sel ↔ ∀ elm ∈ source, sel elm = false) ∧
      (SlistFilterOutDataRight next slData root nlst source dest selData ↔
        ∀ elm ∈ source, selData (slData elm) = false) :=
  ⟨slinkFilterOutRight_iff holds.chain other.chain, slistFilterOutRight_iff holds other apart,
    slistFilterOutRight_iff holds other apart⟩

/-- Links 0 and 10 are heads of lists of one element each. -/
private def twoLists : SlNext Nat := update (update (fun _ => none) 0 (some 1)) 10
  (some 11)

private theorem slistHolds_first : SlistHolds twoLists ⟨0, some 1⟩ [1] := ⟨by decide, by decide⟩

private theorem slistHolds_second : SlistHolds twoLists ⟨10, some 11⟩ [11] :=
  ⟨by decide, by decide⟩

private theorem twoLists_apart : List.Disjoint [0, 1] [10, 11] := by simp

theorem filter_out_iff_single :
    SlinkFilterOutRight twoLists 0 10 [1] [11] (fun elm => elm = 11) ∧
      SlistFilterOutRight twoLists ⟨0, some 1⟩ ⟨10, some 11⟩ [1] [11] (fun elm => elm = 11) ∧
      SlistFilterOutDataRight twoLists id ⟨0, some 1⟩ ⟨10, some 11⟩ [1] [11]
        fun elm => elm = 11 := by
  obtain ⟨slink, slist, slistData⟩ := filter_out_iff slistHolds_first slistHolds_second
    twoLists_apart id (fun elm => elm = 11) fun elm => elm = 11
  exact ⟨slink.mpr (by decide), slist.mpr (by decide), slistData.mpr (by decide)⟩

/-- A list of one element that is selected: one filter does not return, the others leave the tail
of the emptied list on it. -/
theorem filter_out_wrong :
    (∀ result, ¬ (slinkFilterOut 0 10 fun _ => true).Returns (filterOutStart twoLists 0 10)
        result) ∧
      ¬ SlistFilterOutRight twoLists ⟨0, some 1⟩ ⟨10, some 11⟩ [1] [11] (fun _ => true) ∧
      ¬ SlistFilterOutDataRight twoLists id ⟨0, some 1⟩ ⟨10, some 11⟩ [1] [11] fun _ => true := by
  have wrong : ¬ SlistFilterOutRight twoLists ⟨0, some 1⟩ ⟨10, some 11⟩ [1] [11] fun _ => true := by
    intro right
    exact absurd ((slistFilterOutRight_iff slistHolds_first slistHolds_second
      twoLists_apart).mp right) (by decide)
  refine ⟨fun result => ?_, wrong, wrong⟩
  exact slinkFilterOut_diverges slistHolds_first.chain slistHolds_second.chain twoLists_apart
    (by decide) (by decide) result

end Tvntd
