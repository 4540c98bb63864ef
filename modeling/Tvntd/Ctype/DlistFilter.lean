import Tvntd.Lib.Halving
import Tvntd.Lib.Loop
import Tvntd.Lib.Selection
import Tvntd.Ctype.Dhash

/-! # Filtering a ring

`dlist_iter_rm_curr` moves the iterator behind the link it unlinks, and the loop
of `dlist_filter_out` moves it once more: the link behind a selected one is never
looked at, and where the selected one is the last of the ring the loop goes past
the head and walks over the ring again. Every walk halves the runs of selected
links, so the loop ends; each link is looked at once only for certain runs.
-/

namespace Tvntd

open Halving Selection

variable {ε : Type*}

/-- `dlist_iter_rm_curr`: the unlinked element, the ring without it, and the position of the link
that was behind it. Unlinking a list head is undefined. -/
def dlistIterRmCurr (list : List ε) (iter : Nat) : Option (ε × List ε × Nat) :=
  if iter = 0 then none
  else
    list[iter - 1]?.map fun curr =>
      (curr, list.eraseIdx (iter - 1), dlistIterNext list iter - 1)

/-- The variables of the loop of a filter. `applied` are the elements the selection was applied
to. -/
structure DlistFilterVars (ε : Type*) where
  old : List ε
  iter : Nat
  newlst : List ε
  applied : List ε

/-- `dlist_filter_out` -/
def dlistFilterOut (cmpFunc : ε → Bool) : Loop (DlistFilterVars ε) (DlistFilterVars ε) where
  turn vars :=
    if dlistIterTerm vars.iter then some (.inr vars)
    else
      vars.old[vars.iter - 1]?.bind fun elm =>
        let applied := vars.applied ++ [elm]
        if cmpFunc elm then
          (dlistIterRmCurr vars.old vars.iter).map fun (curr, old, iter) =>
            .inl ⟨old, dlistIterNext old iter, vars.newlst ++ [curr], applied⟩
        else
          some (.inl { vars with iter := dlistIterNext vars.old vars.iter, applied := applied })

def dlistFilterStart (old newlst : List ε) : DlistFilterVars ε :=
    ⟨old, dlistIterInit old, newlst, []⟩

variable {sel : ε → Bool} {elm : ε} {list : List ε}

/-! ## One walk over the ring -/

/-- The position behind `kept`, in front of `rest`. -/
def dlistAt (kept rest : List ε) : Nat := if rest = [] then 0 else kept.length + 1

theorem dlistIterNext_append (kept rest : List ε) (elm : ε) :
    dlistIterNext (kept ++ elm :: rest) (kept.length + 1) = dlistAt (kept ++ [elm]) rest := by
  cases rest with
  | nil => simp [dlistIterNext, dlistAt]
  | cons next rest => simp [dlistIterNext, dlistAt]

theorem dlistIterInit_eq (list : List ε) : dlistIterInit list = dlistAt [] list := by
  cases list with
  | nil => rfl
  | cons elm rest => simp [dlistIterInit, dlistIterNext, dlistAt]

private theorem dlistIterRmCurr_append (kept rest : List ε) (elm : ε) :
    dlistIterRmCurr (kept ++ elm :: rest) (kept.length + 1) =
      some (elm, kept ++ rest, dlistAt kept rest) := by
  have erased : (kept ++ elm :: rest).eraseIdx kept.length = kept ++ rest := by
    rw [List.eraseIdx_append_of_length_le (Nat.le_refl _), Nat.sub_self]
    rfl
  have position : dlistAt (kept ++ [elm]) rest - 1 = dlistAt kept rest := by
    unfold dlistAt
    split
    · rfl
    · simp
  simp [dlistIterRmCurr, dlistIterNext_append, erased, position]

/-- What a walk leaves, what it looks at, what it moves, and whether it goes past the head. -/
structure DlistPass (ε : Type*) where
  left : List ε
  visited : List ε
  moved : List ε
  again : Bool

/-- One walk: the link behind a selected one is passed over. -/
def dlistPass (sel : ε → Bool) : List ε → DlistPass ε
  | [] => ⟨[], [], [], false⟩
  | [elm] => if sel elm then ⟨[], [elm], [elm], true⟩ else ⟨[elm], [elm], [], false⟩
  | elm :: next :: rest =>
      if sel elm then
        let later := dlistPass sel rest
        ⟨next :: later.left, elm :: later.visited, elm :: later.moved, later.again⟩
      else
        let later := dlistPass sel (next :: rest)
        ⟨elm :: later.left, elm :: later.visited, later.moved, later.again⟩

/-- A turn at an element that stays. -/
theorem dlistFilterOut_keep (stays : sel elm = false) (kept rest newlst applied : List ε) :
    (dlistFilterOut sel).turn ⟨kept ++ elm :: rest, kept.length + 1, newlst, applied⟩ =
      some (.inl
        ⟨kept ++ elm :: rest, dlistAt (kept ++ [elm]) rest, newlst, applied ++ [elm]⟩) := by
  simp [dlistFilterOut, dlistIterTerm, stays, dlistIterNext_append]

/-- A turn at an element that goes. -/
theorem dlistFilterOut_move (goes : sel elm = true) (kept rest newlst applied : List ε) :
    (dlistFilterOut sel).turn ⟨kept ++ elm :: rest, kept.length + 1, newlst, applied⟩ =
      some (.inl ⟨kept ++ rest, dlistIterNext (kept ++ rest) (dlistAt kept rest), newlst ++ [elm],
        applied ++ [elm]⟩) := by
  simp [dlistFilterOut, dlistIterTerm, goes, dlistIterRmCurr_append]

/-- The loop walks to the end of the ring, and past its head when the last link was moved. -/
theorem dlistFilterOut_pass (sel : ε → Bool) (list : List ε) : ∀ (kept newlst applied : List ε),
    (dlistFilterOut sel).Goes ⟨kept ++ list, dlistAt kept list, newlst, applied⟩
      ⟨kept ++ (dlistPass sel list).left,
        if (dlistPass sel list).again then dlistIterInit (kept ++ (dlistPass sel list).left) else 0,
        newlst ++ (dlistPass sel list).moved, applied ++ (dlistPass sel list).visited⟩ := by
  induction list using dlistPass.induct sel with
  | case1 =>
      intro kept newlst applied
      simp only [dlistPass, List.append_nil]
      exact .refl _
  | case2 elm selected =>
      intro kept newlst applied
      have turn := dlistFilterOut_move selected kept [] newlst applied
      simp only [dlistPass, selected, if_true, List.append_nil] at turn ⊢
      exact .head turn (.refl _)
  | case3 elm unselected =>
      intro kept newlst applied
      have stays : sel elm = false := by simpa using unselected
      have turn := dlistFilterOut_keep stays kept [] newlst applied
      simp only [dlistPass, stays, Bool.false_eq_true, if_false, List.append_nil] at turn ⊢
      exact .head turn (.refl _)
  | case4 elm next rest selected ih =>
      intro kept newlst applied
      have turn := dlistFilterOut_move selected kept (next :: rest) newlst applied
      have walked := ih (kept ++ [next]) (newlst ++ [elm]) (applied ++ [elm])
      rw [show dlistAt kept (next :: rest) = kept.length + 1 from rfl, dlistIterNext_append] at turn
      simp only [List.append_assoc, List.singleton_append] at walked turn
      simp only [dlistPass, selected, if_true]
      exact walked.head turn
  | case5 elm next rest unselected ih =>
      intro kept newlst applied
      have stays : sel elm = false := by simpa using unselected
      have turn := dlistFilterOut_keep stays kept (next :: rest) newlst applied
      have walked := ih (kept ++ [elm]) newlst (applied ++ [elm])
      simp only [List.append_assoc, List.singleton_append] at walked turn
      simp only [dlistPass, stays, Bool.false_eq_true, if_false]
      exact walked.head turn

/-- A walk moves or leaves every link. -/
theorem dlistPass_perm (sel : ε → Bool) (list : List ε) :
    ((dlistPass sel list).left ++ (dlistPass sel list).moved).Perm list := by
  induction list using dlistPass.induct sel with
  | case1 => exact .refl _
  | case2 elm selected => simp [dlistPass, selected]
  | case3 elm unselected => simp [dlistPass, unselected]
  | case4 elm next rest selected ih =>
      simp only [dlistPass, selected, if_true, List.cons_append]
      calc (next :: ((dlistPass sel rest).left ++ elm :: (dlistPass sel rest).moved)).Perm
            (next :: elm :: ((dlistPass sel rest).left ++ (dlistPass sel rest).moved)) :=
            List.perm_middle.cons next
        List.Perm _ (next :: elm :: rest) := (ih.cons elm).cons next
        List.Perm _ (elm :: next :: rest) := .swap ..
  | case5 elm next rest unselected ih =>
      simp only [dlistPass, unselected, Bool.false_eq_true, if_false, List.cons_append]
      exact ih.cons elm

/-- A walk moves one link more than another one goes on from. -/
theorem dlistPass_shorter (again : (dlistPass sel list).again = true) :
    (dlistPass sel list).left.length < list.length := by
  have whole := (dlistPass_perm sel list).length_eq
  have some : 0 < (dlistPass sel list).moved.length := by
    clear whole
    induction list using dlistPass.induct sel with
    | case1 => cases again
    | case2 elm selected => simp [dlistPass, selected]
    | case3 elm unselected => simp [dlistPass, unselected] at again
    | case4 elm next rest selected ih => simp [dlistPass, selected]
    | case5 elm next rest unselected ih =>
        simp only [dlistPass, unselected, Bool.false_eq_true, if_false] at again ⊢
        exact ih again
  rw [List.length_append] at whole
  omega

/-- A walk halves the runs of selected links. -/
theorem gaps_dlistPass (sel : ε → Bool) (list : List ε) : ∀ ahead : Nat,
    gaps sel ahead (dlistPass sel list).left =
      (gaps sel (2 * ahead) list).map fun gap => (gap.1, gap.2 / 2) := by
  induction list using dlistPass.induct sel with
  | case1 => exact fun ahead => rfl
  | case2 elm selected => simp [dlistPass, gaps, selected]
  | case3 elm unselected => simp [dlistPass, gaps, unselected]
  | case4 elm next rest selected ih =>
      intro ahead
      simp only [dlistPass, selected, if_true, gaps_selected]
      cases follows : sel next with
      | true =>
          rw [gaps_selected follows, gaps_selected follows, ih]
          rfl
      | false =>
          rw [gaps_kept follows, gaps_kept follows, ih, List.map_cons]
          congr 2
          omega
  | case5 elm next rest unselected ih =>
      intro ahead
      have stays : sel elm = false := by simpa using unselected
      simp only [dlistPass, stays, Bool.false_eq_true, if_false]
      rw [gaps_kept stays, gaps_kept stays, ih, List.map_cons]
      congr 2
      omega

/-- A walk halves the last run too, and goes past the head when that was odd. -/
theorem trailing_dlistPass (sel : ε → Bool) (list : List ε) : ∀ ahead : Nat,
    trailing sel ahead (dlistPass sel list).left = trailing sel (2 * ahead) list / 2 ∧
      ((dlistPass sel list).again = true ↔ trailing sel (2 * ahead) list % 2 = 1) := by
  induction list using dlistPass.induct sel with
  | case1 =>
      intro ahead
      simp only [dlistPass, trailing, Bool.false_eq_true, false_iff]
      omega
  | case2 elm selected =>
      intro ahead
      simp only [dlistPass, trailing, selected, if_true, true_iff]
      omega
  | case3 elm unselected => simp [dlistPass, trailing, unselected]
  | case4 elm next rest selected ih =>
      intro ahead
      simp only [dlistPass, selected, if_true, trailing_selected]
      cases follows : sel next with
      | true =>
          rw [trailing_selected follows, trailing_selected follows]
          exact ih (ahead + 1)
      | false =>
          rw [trailing_kept follows, trailing_kept follows]
          exact ih 0
  | case5 elm next rest unselected ih =>
      intro ahead
      have stays : sel elm = false := by simpa using unselected
      simp only [dlistPass, stays, Bool.false_eq_true, if_false]
      rw [trailing_kept stays, trailing_kept stays]
      exact ih 0

/-- A walk looks at the links it moves, and at the others behind a run of even length. -/
theorem visited_dlistPass (sel : ε → Bool) (list : List ε) : ∀ ahead : Nat,
    (dlistPass sel list).visited.Perm ((dlistPass sel list).moved ++
      (gaps sel (2 * ahead) list).flatMap fun gap =>
        List.replicate (if gap.2 % 2 = 0 then 1 else 0) gap.1) := by
  induction list using dlistPass.induct sel with
  | case1 => exact fun ahead => .refl _
  | case2 elm selected => simp [dlistPass, gaps, selected]
  | case3 elm unselected => simp [dlistPass, gaps, unselected]
  | case4 elm next rest selected ih =>
      intro ahead
      simp only [dlistPass, selected, if_true, gaps_selected, List.cons_append]
      apply List.Perm.cons
      cases follows : sel next with
      | true =>
          rw [gaps_selected follows]
          exact ih (ahead + 1)
      | false =>
          have odd : ¬ (2 * ahead + 1) % 2 = 0 := by omega
          rw [gaps_kept follows, List.flatMap_cons, if_neg odd, List.replicate_zero,
            List.nil_append]
          exact ih 0
  | case5 elm next rest unselected ih =>
      intro ahead
      have stays : sel elm = false := by simpa using unselected
      have even : 2 * ahead % 2 = 0 := by omega
      simp only [dlistPass, stays, Bool.false_eq_true, if_false]
      rw [gaps_kept stays, List.flatMap_cons, if_pos even, List.replicate_one,
        List.singleton_append]
      exact ((ih 0).cons elm).trans List.perm_middle.symm

/-! ## The whole loop -/

/-- The loop returns. Of each run it leaves what remains of its length when that is halved in step
with the last run, and it looks at the link behind a run as often as the length was even. -/
theorem dlistFilterOut_returns (sel : ε → Bool) (list : List ε) : ∀ (newlst applied : List ε),
    ∃ left moved visited : List ε,
      (dlistFilterOut sel).Returns ⟨list, dlistIterInit list, newlst, applied⟩
        ⟨left, 0, newlst ++ moved, applied ++ visited⟩ ∧
      (left ++ moved).Perm list ∧
      gaps sel 0 left =
        (gaps sel 0 list).map (fun gap => (gap.1, remains gap.2 (trailing sel 0 list))) ∧
      trailing sel 0 left = remains (trailing sel 0 list) (trailing sel 0 list) ∧
      visited.Perm (moved ++ (gaps sel 0 list).flatMap fun gap =>
        List.replicate (evens gap.2 (trailing sel 0 list)) gap.1) := by
  induction length : list.length using Nat.strongRecOn generalizing list with
  | ind count ih =>
      intro newlst applied
      subst length
      have walked := dlistFilterOut_pass sel list [] newlst applied
      rw [← dlistIterInit_eq, List.nil_append, List.nil_append] at walked
      have halved := gaps_dlistPass sel list 0
      have last := trailing_dlistPass sel list 0
      have looked := visited_dlistPass sel list 0
      have parts := dlistPass_perm sel list
      rw [Nat.mul_zero] at halved last looked
      cases again : (dlistPass sel list).again with
      | false =>
          have even : ¬ trailing sel 0 list % 2 = 1 := by
            rw [← last.2, again]
            exact Bool.false_ne_true
          rw [again, if_neg Bool.false_ne_true] at walked
          refine ⟨_, _, _, walked.returns_iff.mpr (Loop.returns_of_done rfl), parts, ?_, ?_, ?_⟩
          · simp only [remains_of_even even]
            exact halved
          · rw [remains_of_even even]
            exact last.1
          · simp only [evens_of_even even]
            exact looked
      | true =>
          have odd : trailing sel 0 list % 2 = 1 := last.2.mp again
          rw [again, if_pos rfl] at walked
          obtain ⟨left, moved, visited, returned, whole, runs, ends, counted⟩ :=
            ih _ (dlistPass_shorter again) (dlistPass sel list).left rfl
              (newlst ++ (dlistPass sel list).moved) (applied ++ (dlistPass sel list).visited)
          rw [halved, last.1, List.map_map] at runs
          rw [last.1] at ends
          rw [halved, last.1, List.flatMap_map] at counted
          rw [List.append_assoc, List.append_assoc] at returned
          refine ⟨left, _, _, walked.returns_iff.mpr returned, ?_, ?_, ?_, ?_⟩
          · calc (left ++ ((dlistPass sel list).moved ++ moved)).Perm
                  (left ++ (moved ++ (dlistPass sel list).moved)) :=
                  List.perm_append_comm.append_left left
              List.Perm _ (left ++ moved ++ (dlistPass sel list).moved) := .of_eq (by simp)
              List.Perm _ list := (whole.append_right _).trans parts
          · simp only [remains_of_odd odd]
            exact runs
          · rw [remains_of_odd odd]
            exact ends
          · simp only [evens_of_odd odd, List.replicate_add]
            refine (looked.append counted).trans ?_
            rw [List.append_assoc, List.append_assoc]
            apply List.Perm.append_left
            exact (List.perm_append_comm_assoc ..).trans
              ((List.flatMap_append_perm ..).append_left moved)

/-! ## When the filter does what it is for -/

/-- The filter applies the selection once to each element, moves the selected ones, and leaves the
others in order. -/
def DlistFilterRight (sel : ε → Bool) (old newlst : List ε) : Prop :=
  ∃ result, (dlistFilterOut sel).Returns (dlistFilterStart old newlst) result ∧
    result.applied.Perm old ∧ result.old = (old.filter fun elm => !sel elm) ∧
    result.newlst.Perm (newlst ++ old.filter sel)

/-- The ring ends in `2 ^ rounds - 1` selected links, and each link that is not selected stands
behind a run of them whose length plus one is `2 ^ (rounds + 1) - 2 ^ j`. -/
def DlistRunsSafe (sel : ε → Bool) (old : List ε) : Prop :=
  ∃ rounds, trailing sel 0 old = 2 ^ rounds - 1 ∧
    ∀ gap ∈ gaps sel 0 old, ∃ j ≤ rounds, gap.2 + 1 + 2 ^ j = 2 ^ (rounds + 1)

/-- Nothing remains of any run, and the link behind each was looked at once. -/
theorem dlistRunsSafe_iff (sel : ε → Bool) (old : List ε) : DlistRunsSafe sel old ↔
    remains (trailing sel 0 old) (trailing sel 0 old) = 0 ∧ ∀ gap ∈ gaps sel 0 old,
      remains gap.2 (trailing sel 0 old) = 0 ∧ evens gap.2 (trailing sel 0 old) = 1 := by
  rw [remains_self_iff]
  constructor
  · rintro ⟨rounds, ends, runs⟩
    rw [ends]
    exact ⟨⟨rounds, rfl⟩, fun gap member =>
      (remains_once_even_iff rounds gap.2).mpr (runs gap member)⟩
  · rintro ⟨⟨rounds, ends⟩, runs⟩
    rw [ends] at runs
    exact ⟨rounds, ends, fun gap member =>
      (remains_once_even_iff rounds gap.2).mp (runs gap member)⟩

private theorem filter_perm_append (sel : ε → Bool) (list : List ε) :
    list.Perm ((list.filter fun elm => !sel elm) ++ list.filter sel) :=
  (List.perm_append_comm.trans (List.filter_append_perm sel list)).symm

/-- The filter of a ring, exactly. -/
theorem dlistFilterRight_iff {old : List ε} (nodup : old.Nodup) (newlst : List ε) :
    DlistFilterRight sel old newlst ↔ DlistRunsSafe sel old := by
  obtain ⟨left, moved, visited, returned, parts, runs, ends, counted⟩ :=
    dlistFilterOut_returns sel old newlst []
  rw [List.nil_append] at returned
  have distinct : ((gaps sel 0 old).map Prod.fst).Nodup := by
    rw [map_gaps]
    exact nodup.filter _
  have empty : (∀ elm ∈ left, sel elm = false) ↔
      (∀ gap ∈ gaps sel 0 old, remains gap.2 (trailing sel 0 old) = 0) ∧
        remains (trailing sel 0 old) (trailing sel 0 old) = 0 := by
    have all := none_selected_iff sel 0 left
    rw [runs, ends, List.forall_mem_map] at all
    exact (all.trans (and_iff_right rfl)).symm
  rw [dlistRunsSafe_iff]
  constructor
  · rintro ⟨result, again, applied, kept, -⟩
    cases returned.unique again
    simp only at applied kept
    have none := empty.mp (by simp [kept])
    refine ⟨none.2, fun gap member => ⟨none.1 gap member, ?_⟩⟩
    refine (replicate_perm_iff (fun gap => evens gap.2 (trailing sel 0 old)) distinct).mp ?_
      gap member
    rw [map_gaps, ← kept]
    apply (List.perm_append_left_iff moved).mp
    exact counted.symm.trans (applied.trans (parts.symm.trans List.perm_append_comm))
  · rintro ⟨last, others⟩
    have none := empty.mpr ⟨fun gap member => (others gap member).1, last⟩
    have kept : left = old.filter fun elm => !sel elm := by
      have whole : (left.filter fun elm => !sel elm) = left :=
        List.filter_eq_self.mpr fun elm member => by simp [none elm member]
      rw [← whole, ← map_gaps sel 0, runs, List.map_map, ← map_gaps sel 0]
      rfl
    have once := (replicate_perm_iff (fun gap => evens gap.2 (trailing sel 0 old)) distinct).mpr
      fun gap member => (others gap member).2
    rw [map_gaps, ← kept] at once
    refine ⟨_, returned, ?_, kept, ?_⟩
    · exact (counted.trans (once.append_left moved)).trans (List.perm_append_comm.trans parts)
    · apply List.Perm.append_left
      apply (List.perm_append_left_iff left).mp
      rw [kept] at parts ⊢
      exact parts.trans (filter_perm_append sel old)

end Tvntd
