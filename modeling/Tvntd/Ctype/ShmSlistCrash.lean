import Tvntd.Ctype.ShmSlistFixup

/-! # Updates cut short

A crash leaves the memory after some of the stores of an update. While the root
leads to elements before and after, every such memory is repaired; where the
root holds `IDX_NIL`, the repair refuses it before it gets to the branches that
were written for that case.
-/

namespace Tvntd

open Bytewise

namespace IslUpdate

/-- The repair of the memory left after this many stores succeeds, and leaves the list as it
was before the update or as it is after. -/
def RepairedAt (mem : Bytes) (bound : BitVec 32) (root : Nat) (elms : List Nat)
    (update : IslUpdate) (done : Nat) : Prop :=
  ∃ turns out, islFixupList turns (Bytewise.stores mem ((update.stores mem root).take done)) bound
      root = some out ∧ out.ret = 0 ∧
    ∃ left, (left = elms ∨ left = update.effect elms) ∧ IsList out.mem bound root left ∧
      out.cnt.toNat = left.length

/-- Every crash between two stores is repaired. -/
def Recovers (mem : Bytes) (bound : BitVec 32) (root : Nat) (elms : List Nat)
    (update : IslUpdate) : Prop :=
  ∀ done, 0 < done → done < (update.stores mem root).length →
    update.RepairedAt mem bound root elms done

end IslUpdate

variable {mem : Bytes} {bound : BitVec 32} {root : Nat} {elms : List Nat}

/-- A settled memory that becomes a list is repaired to it. -/
theorem Settles.fixup {last : Nat} (settles : Settles mem bound root last)
    (list : IsList (stores mem [setTail root last]) bound root elms) :
    ∃ turns out, islFixupList turns mem bound root = some out ∧ out.ret = 0 ∧
      IsList out.mem bound root elms ∧ out.cnt.toNat = elms.length := by
  obtain ⟨reads, -, run⟩ := settles.run
  have chain := list.chain
  rw [islHead_setTail] at chain
  have ended := fixupCount_of_walk not_visited_idxNil 0 chain
    fun elm member => visited_of_inside (list.inside elm member)
  have nodup := Walk.nodup (fun elm member => ne_idxNil (list.inside elm member)) chain
  refine ⟨elms.length + 1, _, (run _).trans (congrArg (Option.map _) ended), ?_, list, ?_⟩
  · rw [counted, if_pos rfl]
  · rw [counted, if_pos rfl]
    change (0#32 + BitVec.ofNat 32 elms.length).toNat = elms.length
    rw [BitVec.zero_add, BitVec.toNat_ofNat]
    exact Nat.mod_eq_of_lt (length_lt_of_nodup nodup list.inside)

/-- A list that is not empty is repaired to itself. -/
theorem IsList.fixup (list : IsList mem bound root elms) (nonempty : elms ≠ []) :
    ∃ turns out, islFixupList turns mem bound root = some out ∧ out.ret = 0 ∧
      IsList out.mem bound root elms ∧ out.cnt.toNat = elms.length := by
  have settles : Settles mem bound root (islTail mem root) :=
    ⟨list.inside _ (list.head_inside nonempty), list.inside _ (list.tail_inside nonempty),
      .inl ⟨rfl, list.tail_next nonempty⟩⟩
  apply settles.fixup
  rw [stores_setTail_self]
  exact list

/-- An addition to the back that stopped before the tail was set is completed. -/
theorem IsList.fixup_lagging {elm : Nat} (list : IsList mem bound root elms) (nonempty : elms ≠ [])
    (unlinked : Unlinked bound root elms elm) (next : ilNext mem elm = idxNil) :
    ∃ turns out, islFixupList turns (stores mem [setNext (islTail mem root) elm]) bound root =
        some out ∧ out.ret = 0 ∧
      IsList out.mem bound root (elms ++ [elm]) ∧ out.cnt.toNat = (elms ++ [elm]).length := by
  obtain ⟨chain, tail⟩ := list.lagging nonempty unlinked next
  have member := list.tail_inside nonempty
  have head : islHead (stores mem [setNext (islTail mem root) elm]) root = islHead mem root :=
    read_write_of_apart _ (apart_head (list.clear _ member))
  have behind : ilNext (stores mem [setNext (islTail mem root) elm]) (islTail mem root) = elm :=
    ilNext_setNext mem (inside_fits unlinked.inside)
  have ended : ilNext (stores mem [setNext (islTail mem root) elm]) elm = idxNil :=
    (read_write_of_apart _ (unlinked.apart _ member).symm).trans next
  have settles : Settles (stores mem [setNext (islTail mem root) elm]) bound root elm := by
    constructor
    · rw [head]
      exact list.inside _ (list.head_inside nonempty)
    · rw [tail]
      exact list.inside _ member
    · rw [tail, behind]
      exact .inr ⟨rfl, unlinked.inside, ended⟩
  exact settles.fixup (list.completed unlinked chain)

/-- A root with `IDX_NIL` is refused. -/
theorem islFixupList_idxNil (empty : islHead mem root = idxNil) (turns : Nat) :
    islFixupList turns mem bound root = some ⟨-2, 0, mem, []⟩ := by
  apply islFixupList_refused
  rw [empty]
  exact .inl (Nat.not_lt.mp (not_idxNil_lt bound))

namespace IslUpdate

private theorem repairedAt_of_list {update : IslUpdate} {done : Nat} {left : List Nat}
    (either : left = elms ∨ left = update.effect elms)
    (repaired : ∃ turns out, islFixupList turns
        (Bytewise.stores mem ((update.stores mem root).take done)) bound root = some out ∧
      out.ret = 0 ∧ IsList out.mem bound root left ∧ out.cnt.toNat = left.length) :
    update.RepairedAt mem bound root elms done := by
  obtain ⟨turns, out, ran, returned, list, count⟩ := repaired
  exact ⟨turns, out, ran, returned, left, either, list, count⟩

private theorem recovers_of_fits (list : IsList mem bound root elms) {update : IslUpdate}
    (legal : update.Legal bound root elms) (fits : update.Fits elms) :
    update.Recovers mem bound root elms := by
  intro done started unfinished
  cases update with
  | addFront elm =>
      have written : (addFront elm).stores mem root =
          [setNext elm (islHead mem root), setHead root elm] := list.addFrontStores_eq fits legal
      rw [written] at unfinished
      obtain rfl : done = 1 := by simp only [List.length_cons, List.length_nil] at unfinished; omega
      apply repairedAt_of_list (.inl rfl)
      rw [written]
      exact (list.setUnlinked legal _).fixup fits
  | addBack elm =>
      have written : (addBack elm).stores mem root =
          [setNext elm idxNil, setNext (islTail mem root) elm, setTail root elm] :=
        list.addBackStores_eq fits legal
      obtain ⟨cleared, next⟩ := list.cleared legal
      rw [written] at unfinished
      have counted : done = 1 ∨ done = 2 := by
        simp only [List.length_cons, List.length_nil] at unfinished
        omega
      rcases counted with rfl | rfl
      · apply repairedAt_of_list (.inl rfl)
        rw [written]
        exact cleared.fixup fits
      · apply repairedAt_of_list (.inr rfl)
        have kept : islTail (Bytewise.stores mem [setNext elm idxNil]) root = islTail mem root :=
          read_write_of_apart _ (apart_tail legal.clear)
        have repaired := cleared.fixup_lagging fits legal next
        rw [kept] at repaired
        rw [written]
        exact repaired
  | rmFront =>
      cases elms with
      | nil =>
          have none : rmFront.stores mem root = [] := if_pos list.chain
          rw [none] at unfinished
          exact absurd unfinished (Nat.not_lt_zero _)
      | cons elm rest =>
          cases rest with
          | nil => exact (fits rfl).elim
          | cons next later =>
              have written : rmFront.stores mem root = [setHead root next, setNext elm idxNil] :=
                list.rmFrontStores_eq
              rw [written] at unfinished
              obtain rfl : done = 1 := by
                simp only [List.length_cons, List.length_nil] at unfinished; omega
              apply repairedAt_of_list (.inr rfl)
              rw [written]
              exact list.skipFirst.1.fixup (List.cons_ne_nil next later)

private theorem not_repairedAt_of_idxNil {update : IslUpdate} {done : Nat}
    (empty : islHead (Bytewise.stores mem ((update.stores mem root).take done)) root = idxNil) :
    ¬ update.RepairedAt mem bound root elms done := by
  rintro ⟨turns, out, ran, returned, -⟩
  rw [islFixupList_idxNil empty, Option.some.injEq] at ran
  subst ran
  cases returned

/-- After the first store of an update that does not fit, the root holds `IDX_NIL`. -/
theorem idxNil_of_not_fits (list : IsList mem bound root elms) {update : IslUpdate}
    (legal : update.Legal bound root elms) (unfit : ¬ update.Fits elms) :
    1 < (update.stores mem root).length ∧
      islHead (Bytewise.stores mem ((update.stores mem root).take 1)) root = idxNil := by
  cases update with
  | addFront elm =>
      have empty : elms = [] := not_not.mp unfit
      subst empty
      have head : islHead mem root = idxNil := list.chain
      have kept : islHead (Bytewise.stores mem [setNext elm (islHead mem root)]) root = idxNil :=
        (read_write_of_apart _ (apart_head legal.clear)).trans head
      change 1 < (islAddFrontStores mem root elm).length ∧ _
      unfold stores islAddFrontStores
      dsimp only
      split
      · exact ⟨by simp, kept⟩
      · exact ⟨by simp, kept⟩
  | addBack elm =>
      have empty : elms = [] := not_not.mp unfit
      subst empty
      have head : islHead mem root = idxNil := list.chain
      have kept : islHead (Bytewise.stores mem [setNext elm idxNil]) root = idxNil :=
        (read_write_of_apart _ (apart_head legal.clear)).trans head
      change 1 < (islAddBackStores mem root elm).length ∧ _
      unfold stores islAddBackStores
      dsimp only
      split
      · exact ⟨by simp, kept⟩
      · exact ⟨by simp, kept⟩
  | rmFront =>
      obtain ⟨elm, rfl⟩ := List.length_eq_one_iff.mp (not_not.mp unfit)
      have head : islHead mem root = elm := list.chain.1
      have next : ilNext mem elm = idxNil := list.chain.2
      have unlinked :
          islHead (Bytewise.stores mem [setHead root (ilNext mem elm)]) root = idxNil := by
        rw [next, islHead_setHead mem idxNil_fits]
      change 1 < (islRmFrontStores mem root).length ∧ _
      unfold stores islRmFrontStores
      rw [head, if_neg (ne_idxNil (list.inside elm List.mem_cons_self))]
      dsimp only
      split
      · exact ⟨by simp, unlinked⟩
      · exact ⟨by simp, unlinked⟩

/-- **Crashes are repaired exactly away from the empty list.** -/
theorem recovers_iff_fits (list : IsList mem bound root elms) (update : IslUpdate)
    (legal : update.Legal bound root elms) :
    update.Recovers mem bound root elms ↔ update.Fits elms := by
  constructor
  · intro recovers
    by_contra unfit
    obtain ⟨stored, empty⟩ := idxNil_of_not_fits list legal unfit
    exact not_repairedAt_of_idxNil empty (recovers 1 Nat.one_pos stored)
  · exact recovers_of_fits list legal

/-- The first element of a list is not recovered. -/
theorem addFront_emptySegment_not_recovers : IsList emptySegment 16 16 [] ∧
    Legal 16 16 [] (.addFront 0) ∧ ¬ Recovers emptySegment 16 16 [] (.addFront 0) := by
  have list := isList_islInit (fun _ => 0) 16 16
  have unfit : ¬ Fits [] (.addFront 0) := fun some => some rfl
  have legal : Legal 16 16 [] (.addFront 0) := unlinked_emptySegment
  have crashed := idxNil_of_not_fits list legal unfit
  refine ⟨list, legal, ?_⟩
  intro recovers
  exact not_repairedAt_of_idxNil crashed.2 (recovers 1 Nat.one_pos crashed.1)

/-- A second element is. -/
theorem recovers_iff_fits_second : Recovers oneElementSegment 16 16 [0] (.addBack 4) :=
  (recovers_iff_fits oneElementSegment_isList (.addBack 4)
    ⟨by decide, by decide, by decide⟩).mpr (List.cons_ne_nil _ _)

end IslUpdate

end Tvntd
