import Tvntd.Ctype.ShmSlist

/-! # Updates of lists of offsets

Every update checks that the offsets it reads are inside the segment, and
`IDX_NIL` never is. So an update passes its checks exactly when it meets no
`IDX_NIL`: an element cannot be added to the empty list, and the only element of
a list cannot be removed.
-/

namespace Tvntd

open Bytewise

inductive IslUpdate where
  | addFront (elmOff : Nat)
  | addBack (elmOff : Nat)
  | rmFront

namespace IslUpdate

/-- The stores of an update, in program order. -/
def stores (mem : Bytes) (root : Nat) : IslUpdate → List Store
  | addFront elmOff => islAddFrontStores mem root elmOff
  | addBack elmOff => islAddBackStores mem root elmOff
  | rmFront => islRmFrontStores mem root

/-- The element that an update returns, and the memory after it. -/
def run (mem : Bytes) (bound : BitVec 32) (root : Nat) : IslUpdate → Option (Option Nat × Bytes)
  | addFront elmOff => (islAddFront mem bound root elmOff).map fun next => (none, next)
  | addBack elmOff => (islAddBack mem bound root elmOff).map fun next => (none, next)
  | rmFront => islRmFront mem bound root

/-- An element that is added is inside the segment and not linked. -/
def Legal (bound : BitVec 32) (root : Nat) (elms : List Nat) : IslUpdate → Prop
  | addFront elmOff => Unlinked bound root elms elmOff
  | addBack elmOff => Unlinked bound root elms elmOff
  | rmFront => True

def effect (elms : List Nat) : IslUpdate → List Nat
  | addFront elmOff => elmOff :: elms
  | addBack elmOff => elms ++ [elmOff]
  | rmFront => elms.tail

def returned (elms : List Nat) : IslUpdate → Option Nat
  | addFront _ => none
  | addBack _ => none
  | rmFront => elms.head?

/-- The update passes its checks and does to the root what it should do to the sequence. -/
def Correct (mem : Bytes) (bound : BitVec 32) (root : Nat) (elms : List Nat)
    (update : IslUpdate) : Prop :=
  ∃ next, update.run mem bound root = some (update.returned elms, next) ∧
    IsList next bound root (update.effect elms) ∧
      (islEmpty next root = true ↔ update.effect elms = [])

/-- The update neither starts from the empty list with an element to add, nor leads to it. -/
def Fits (elms : List Nat) : IslUpdate → Prop
  | addFront _ => elms ≠ []
  | addBack _ => elms ≠ []
  | rmFront => elms.length ≠ 1

end IslUpdate

variable {mem : Bytes} {bound : BitVec 32} {root elm : Nat} {elms : List Nat}

theorem islHead_setHead (mem : Bytes) {root value : Nat} (fits : value < 256 ^ 4) :
    islHead (stores mem [setHead root value]) root = value := read_write_of_lt mem fits

theorem islTail_setHead (mem : Bytes) (root value : Nat) :
    islTail (stores mem [setHead root value]) root = islTail mem root :=
  read_write_of_apart value (apart_root root)

theorem islTail_setTail (mem : Bytes) {root value : Nat} (fits : value < 256 ^ 4) :
    islTail (stores mem [setTail root value]) root = value := read_write_of_lt mem fits

theorem islHead_setTail (mem : Bytes) (root value : Nat) :
    islHead (stores mem [setTail root value]) root = islHead mem root :=
  read_write_of_apart value (apart_root root).symm

theorem ilNext_setNext (mem : Bytes) {off value : Nat} (fits : value < 256 ^ 4) :
    ilNext (stores mem [setNext off value]) off = value := read_write_of_lt mem fits

theorem ilNext_setHead (mem : Bytes) {off : Nat} (clear : Apart off 4 root 8) (value : Nat) :
    ilNext (stores mem [setHead root value]) off = ilNext mem off :=
  read_write_of_apart value (apart_head clear).symm

theorem ilNext_setTail (mem : Bytes) {off : Nat} (clear : Apart off 4 root 8) (value : Nat) :
    ilNext (stores mem [setTail root value]) off = ilNext mem off :=
  read_write_of_apart value (apart_tail clear).symm

theorem idxNil_fits : idxNil < 256 ^ 4 := by decide

theorem isList_islInit (mem : Bytes) (bound : BitVec 32) (root : Nat) :
    IsList (islInit mem root) bound root [] where
  inside := fun _ none => (List.not_mem_nil none).elim
  clear := fun _ none => (List.not_mem_nil none).elim
  apart := .nil
  chain := by
    change islHead (stores (stores mem [setHead root idxNil]) [setTail root idxNil]) root = idxNil
    rw [islHead_setTail, islHead_setHead mem idxNil_fits]
  tail := islTail_setTail _ idxNil_fits

namespace IsList

/-! ## Adding an element to the front -/

theorem addFrontStores_eq (list : IsList mem bound root elms) (nonempty : elms ≠ [])
    (unlinked : Unlinked bound root elms elm) :
    islAddFrontStores mem root elm = [setNext elm (islHead mem root), setHead root elm] := by
  have kept : islTail (stores mem [setNext elm (islHead mem root), setHead root elm]) root =
      islTail mem root :=
    (islTail_setHead (stores mem [setNext elm (islHead mem root)]) root elm).trans
      (read_write_of_apart _ (apart_tail unlinked.clear))
  unfold islAddFrontStores
  dsimp only
  rw [kept, if_neg (ne_idxNil (list.inside _ (list.tail_inside nonempty)))]

theorem addFront (list : IsList mem bound root elms) (nonempty : elms ≠ [])
    (unlinked : Unlinked bound root elms elm) :
    IsList (stores mem [setNext elm (islHead mem root), setHead root elm]) bound root
      (elm :: elms) := by
  have linked := list.setUnlinked unlinked (islHead mem root)
  have next : ilNext (stores mem [setNext elm (islHead mem root)]) elm = islHead mem root :=
    ilNext_setNext mem (inside_fits (list.inside _ (list.head_inside nonempty)))
  have head : islHead (stores mem [setNext elm (islHead mem root)]) root = islHead mem root :=
    read_write_of_apart _ (apart_head unlinked.clear)
  constructor
  · exact List.forall_mem_cons.mpr ⟨unlinked.inside, list.inside⟩
  · exact List.forall_mem_cons.mpr ⟨unlinked.clear, list.clear⟩
  · exact List.pairwise_cons.mpr ⟨unlinked.apart, list.apart⟩
  · refine ⟨islHead_setHead _ (inside_fits unlinked.inside), ?_⟩
    change Chain _ (ilNext (stores (stores mem [setNext elm _]) [setHead root elm]) elm) elms
    have chain := linked.chain
    rw [head] at chain
    rw [ilNext_setHead _ unlinked.clear, next]
    exact walk_congr (fun other member => ilNext_setHead _ (list.clear other member) elm) chain
  · change islTail (stores (stores mem [setNext elm _]) [setHead root elm]) root = _
    rw [islTail_setHead, linked.tail]
    obtain ⟨first, rest, rfl⟩ := List.exists_cons_of_ne_nil nonempty
    rfl

/-! ## Removing the first element -/

theorem rmFrontStores_eq {next : Nat} {rest : List Nat}
    (list : IsList mem bound root (elm :: next :: rest)) :
    islRmFrontStores mem root = [setHead root next, setNext elm idxNil] := by
  have head : islHead mem root = elm := list.chain.1
  have linked : ilNext mem elm = next := list.chain.2.1
  have nextInside := list.inside next (List.mem_cons_of_mem _ List.mem_cons_self)
  have kept : islHead (stores mem [setHead root next, setNext elm idxNil]) root = next := by
    have other : islHead (stores mem [setHead root next, setNext elm idxNil]) root =
        islHead (stores mem [setHead root next]) root :=
      read_write_of_apart _ (apart_head (list.clear elm List.mem_cons_self))
    rw [other, islHead_setHead mem (inside_fits nextInside)]
  unfold islRmFrontStores
  rw [head, if_neg (ne_idxNil (list.inside elm List.mem_cons_self))]
  dsimp only
  rw [linked, kept, if_neg (ne_idxNil nextInside)]

/-- The removed element is not linked any more as soon as the root leads past it. -/
theorem skipFirst {next : Nat} {rest : List Nat}
    (list : IsList mem bound root (elm :: next :: rest)) :
    IsList (stores mem [setHead root next]) bound root (next :: rest) ∧
      Unlinked bound root (next :: rest) elm := by
  obtain ⟨inside, restInside⟩ := List.forall_mem_cons.mp list.inside
  obtain ⟨clear, restClear⟩ := List.forall_mem_cons.mp list.clear
  obtain ⟨apart, restApart⟩ := List.pairwise_cons.mp list.apart
  have fits := inside_fits (restInside next List.mem_cons_self)
  refine ⟨⟨restInside, restClear, restApart, ?_, ?_⟩, ⟨inside, clear, apart⟩⟩
  · rw [islHead_setHead mem fits]
    have chain := list.chain.2
    rw [list.chain.2.1] at chain
    exact walk_congr (fun other member => ilNext_setHead mem (restClear other member) next) chain
  · rw [islTail_setHead, list.tail]
    rfl

theorem rmFront {next : Nat} {rest : List Nat}
    (list : IsList mem bound root (elm :: next :: rest)) :
    IsList (stores mem [setHead root next, setNext elm idxNil]) bound root (next :: rest) :=
  list.skipFirst.1.setUnlinked list.skipFirst.2 idxNil

/-! ## Adding an element to the back -/

theorem addBackStores_eq (list : IsList mem bound root elms) (nonempty : elms ≠ [])
    (unlinked : Unlinked bound root elms elm) :
    islAddBackStores mem root elm =
      [setNext elm idxNil, setNext (islTail mem root) elm, setTail root elm] := by
  have kept : islTail (stores mem [setNext elm idxNil]) root = islTail mem root :=
    read_write_of_apart _ (apart_tail unlinked.clear)
  unfold islAddBackStores
  dsimp only
  rw [kept, if_neg (ne_idxNil (list.inside _ (list.tail_inside nonempty)))]

/-- A link from the last element to a new end makes the chain longer. -/
theorem chain_append {mem : Bytes} {first last : Nat} (apart : elms.Pairwise (Apart · 4 · 4))
    (ends : elms.getLast? = some last) (fits : elm < 256 ^ 4) (differs : Apart elm 4 last 4)
    (next : ilNext mem elm = idxNil) (chain : Chain mem first elms) :
    Chain (stores mem [setNext last elm]) first (elms ++ [elm]) := by
  induction elms generalizing first with
  | nil => cases ends
  | cons head rest ih =>
      obtain ⟨rfl, linked⟩ := chain
      obtain ⟨headApart, restApart⟩ := List.pairwise_cons.mp apart
      refine ⟨rfl, ?_⟩
      cases rest with
      | nil =>
          rw [List.getLast?_singleton, Option.some.injEq] at ends
          subst ends
          rw [ilNext_setNext mem fits]
          exact ⟨rfl, (read_write_of_apart _ differs.symm).trans next⟩
      | cons second later =>
          rw [List.getLast?_cons_cons] at ends
          have kept : ilNext (stores mem [setNext last elm]) first = ilNext mem first :=
            read_write_of_apart _ (headApart last (List.mem_of_getLast? ends)).symm
          rw [kept]
          exact ih restApart ends linked

/-- The list after the first store of an addition: the new element already ends at `IDX_NIL`. -/
theorem cleared (list : IsList mem bound root elms) (unlinked : Unlinked bound root elms elm) :
    IsList (stores mem [setNext elm idxNil]) bound root elms ∧
      ilNext (stores mem [setNext elm idxNil]) elm = idxNil :=
  ⟨list.setUnlinked unlinked idxNil, ilNext_setNext mem idxNil_fits⟩

/-- The list after the second store: the links lead to the new element and the root's tail to
the one before it. -/
theorem lagging (list : IsList mem bound root elms) (nonempty : elms ≠ [])
    (unlinked : Unlinked bound root elms elm) (next : ilNext mem elm = idxNil) :
    Chain (stores mem [setNext (islTail mem root) elm])
        (islHead (stores mem [setNext (islTail mem root) elm]) root) (elms ++ [elm]) ∧
      islTail (stores mem [setNext (islTail mem root) elm]) root = islTail mem root := by
  have member := list.tail_inside nonempty
  have clear := list.clear _ member
  have ends : elms.getLast? = some (islTail mem root) := by
    rw [list.tail, List.getLast?_eq_getLast_of_ne_nil nonempty]
    rfl
  have head : islHead (stores mem [setNext (islTail mem root) elm]) root = islHead mem root :=
    read_write_of_apart _ (apart_head clear)
  refine ⟨?_, read_write_of_apart _ (apart_tail clear)⟩
  rw [head]
  exact chain_append list.apart ends (inside_fits unlinked.inside) (unlinked.apart _ member) next
    list.chain

/-- A new tail completes an addition to the back. -/
theorem completed (list : IsList mem bound root elms) (unlinked : Unlinked bound root elms elm)
    {after : Bytes} (chain : Chain after (islHead after root) (elms ++ [elm])) :
    IsList (stores after [setTail root elm]) bound root (elms ++ [elm]) := by
  have clear : ∀ other ∈ elms ++ [elm], Apart other 4 root 8 :=
    List.forall_mem_append.mpr ⟨list.clear, List.forall_mem_singleton.mpr unlinked.clear⟩
  constructor
  · exact List.forall_mem_append.mpr
      ⟨list.inside, List.forall_mem_singleton.mpr unlinked.inside⟩
  · exact clear
  · refine List.pairwise_append.mpr ⟨list.apart, List.pairwise_singleton _ _, ?_⟩
    intro other member new last
    rw [List.mem_singleton.mp last]
    exact (unlinked.apart other member).symm
  · rw [islHead_setTail]
    exact walk_congr (fun other member => ilNext_setTail after (clear other member) elm) chain
  · rw [islTail_setTail _ (inside_fits unlinked.inside), List.getLast?_concat]
    rfl

theorem addBack (list : IsList mem bound root elms) (nonempty : elms ≠ [])
    (unlinked : Unlinked bound root elms elm) :
    IsList (stores mem [setNext elm idxNil, setNext (islTail mem root) elm, setTail root elm])
      bound root (elms ++ [elm]) := by
  obtain ⟨still, next⟩ := list.cleared unlinked
  have kept : islTail (stores mem [setNext elm idxNil]) root = islTail mem root :=
    read_write_of_apart _ (apart_tail unlinked.clear)
  have chain := (still.lagging nonempty unlinked next).1
  rw [kept] at chain
  exact list.completed unlinked chain

end IsList

/-! ## The checks -/

namespace IslUpdate

/-- An update that fits does what it should. -/
theorem correct_of_fits (list : IsList mem bound root elms) {update : IslUpdate}
    (legal : update.Legal bound root elms) (fits : update.Fits elms) :
    update.Correct mem bound root elms := by
  cases update with
  | addFront elm =>
      have after := list.addFront fits legal
      refine ⟨_, ?_, after, after.islEmpty_iff⟩
      rw [run, islAddFront, if_pos ⟨legal.inside, list.inside _ (list.head_inside fits),
        list.inside _ (list.tail_inside fits)⟩, list.addFrontStores_eq fits legal]
      rfl
  | addBack elm =>
      have after := list.addBack fits legal
      have still := (list.cleared legal).1
      refine ⟨_, ?_, after, after.islEmpty_iff⟩
      rw [run, islAddBack, if_pos ⟨legal.inside, list.inside _ (list.tail_inside fits),
        list.inside _ (list.head_inside fits)⟩]
      dsimp only
      rw [if_pos (.inr (still.tail_next fits)), list.addBackStores_eq fits legal]
      rfl
  | rmFront =>
      cases elms with
      | nil =>
          refine ⟨mem, ?_, list, list.islEmpty_iff⟩
          have head : islHead mem root = idxNil := list.chain
          rw [run, islRmFront, if_pos head]
          rfl
      | cons elm rest =>
          cases rest with
          | nil => exact (fits rfl).elim
          | cons next later =>
              have after := list.rmFront
              have head : islHead mem root = elm := list.chain.1
              have linked : ilNext mem elm = next := list.chain.2.1
              have inside := list.inside elm List.mem_cons_self
              have nextInside := list.inside next (List.mem_cons_of_mem _ List.mem_cons_self)
              refine ⟨_, ?_, after, after.islEmpty_iff⟩
              rw [run, islRmFront, head, linked, if_neg (ne_idxNil inside),
                if_pos ⟨inside, nextInside⟩, list.rmFrontStores_eq]
              rfl

/-- An update that meets `IDX_NIL` fails one of its checks. -/
theorem run_eq_none (list : IsList mem bound root elms) {update : IslUpdate}
    (unfit : ¬ update.Fits elms) : update.run mem bound root = none := by
  cases update with
  | addFront elm =>
      have empty : elms = [] := not_not.mp unfit
      subst empty
      have head : islHead mem root = idxNil := list.chain
      rw [run, islAddFront, head, if_neg fun checks => not_idxNil_lt bound checks.2.1]
      rfl
  | addBack elm =>
      have empty : elms = [] := not_not.mp unfit
      subst empty
      have head : islHead mem root = idxNil := list.chain
      rw [run, islAddBack, head, if_neg fun checks => not_idxNil_lt bound checks.2.2]
      rfl
  | rmFront =>
      obtain ⟨elm, rfl⟩ := List.length_eq_one_iff.mp (not_not.mp unfit)
      have head : islHead mem root = elm := list.chain.1
      have next : ilNext mem elm = idxNil := list.chain.2
      rw [run, islRmFront, head, next, if_neg (ne_idxNil (list.inside elm List.mem_cons_self)),
        if_neg fun checks => not_idxNil_lt bound checks.2]

/-- **Updates are correct exactly away from the empty list.** -/
theorem correct_iff_fits (mem : Bytes) (bound : BitVec 32) (root : Nat) :
    IsList (islInit mem root) bound root [] ∧
      ∀ elms (update : IslUpdate), IsList mem bound root elms → update.Legal bound root elms →
        (update.Correct mem bound root elms ↔ update.Fits elms) := by
  refine ⟨isList_islInit mem bound root, ?_⟩
  intro elms update list legal
  constructor
  · rintro ⟨next, ran, -⟩
    by_contra unfit
    rw [run_eq_none list unfit] at ran
    cases ran
  · exact correct_of_fits list legal

/-- A segment of 16 bytes, with the root of an empty list right behind it. -/
def emptySegment : Bytes := islInit (fun _ => 0) 16

theorem unlinked_emptySegment : Unlinked 16 16 [] 0 where
  inside := by decide
  clear := by decide
  apart := fun _ none => (List.not_mem_nil none).elim

/-- Nothing can be added to the empty list. -/
theorem addFront_emptySegment_not_correct : IsList emptySegment 16 16 [] ∧
    Legal 16 16 [] (.addFront 0) ∧ ¬ Correct emptySegment 16 16 [] (.addFront 0) := by
  have list := isList_islInit (fun _ => 0) 16 16
  refine ⟨list, unlinked_emptySegment, ?_⟩
  rintro ⟨next, ran, -⟩
  have unfit : ¬ Fits [] (.addFront 0) := fun some => some rfl
  have aborted : run emptySegment 16 16 (.addFront 0) = none := run_eq_none list unfit
  rw [aborted] at ran
  cases ran

/-- The same segment with one element, at its start. -/
def oneElementSegment : Bytes :=
  Bytewise.stores (fun _ => 0) [setNext 0 idxNil, setHead 16 0, setTail 16 0]

theorem oneElementSegment_isList : IsList oneElementSegment 16 16 [0] where
  inside := by decide
  clear := by decide
  apart := List.pairwise_singleton _ _
  chain := ⟨by decide +kernel, show ilNext oneElementSegment 0 = idxNil by decide +kernel⟩
  tail := by decide +kernel

/-- A second element can be added. -/
theorem correct_iff_fits_second : Correct oneElementSegment 16 16 [0] (.addBack 4) :=
  ((correct_iff_fits oneElementSegment 16 16).2 [0] (.addBack 4) oneElementSegment_isList
    ⟨by decide, by decide, by decide⟩).mpr (List.cons_ne_nil _ _)

end IslUpdate

end Tvntd
