import Mathlib.Logic.Function.Basic
import Mathlib.Data.List.Nodup

/-! # Items in places

A family of lists, one for every place, is *exclusive* when every item is in one
place at most, and once there. Items are put into a place, taken out of it and
moved between places; each of the three keeps the family exclusive and changes
where that item is only.

A *ledger* relates such a family to the items accepted and finished so far: an
item is somewhere exactly while it is accepted and not finished.
-/

universe u v

namespace Placement

open Function

variable {Place : Type u} {Item : Type v}

/-- No item is in two places, or twice in one. -/
structure Exclusive (contents : Place → List Item) : Prop where
  unique : ∀ {item first second}, item ∈ contents first → item ∈ contents second → first = second
  nodup : ∀ place, (contents place).Nodup

def Somewhere (contents : Place → List Item) (item : Item) : Prop := ∃ place, item ∈ contents place

variable {contents : Place → List Item} {item : Item} {place source target : Place}

/-- An item that is somewhere is in exactly one place. -/
theorem Exclusive.exists_unique (exclusive : Exclusive contents)
    (somewhere : Somewhere contents item) :
    ∃ place, item ∈ contents place ∧ ∀ other, item ∈ contents other → other = place := by
  obtain ⟨place, here⟩ := somewhere
  exact ⟨place, here, fun _ there => exclusive.unique there here⟩

theorem exclusive_empty : Exclusive fun _ : Place => ([] : List Item) where
  unique := fun none => (List.not_mem_nil none).elim
  nodup := fun _ => List.nodup_nil

/-- Fewer items in every place. -/
theorem Exclusive.mono (exclusive : Exclusive contents) {fewer : Place → List Item}
    (inside : ∀ place, (fewer place).Sublist (contents place)) : Exclusive fewer where
  unique := fun here there =>
    exclusive.unique ((inside _).subset here) ((inside _).subset there)
  nodup := fun place => (inside place).nodup (exclusive.nodup place)

section Update

variable [DecidableEq Place]

theorem mem_update {list : List Item} {other : Place} {x : Item} :
    x ∈ update contents place list other ↔
      (other = place ∧ x ∈ list) ∨ (other ≠ place ∧ x ∈ contents other) := by
  by_cases same : other = place
  · subst same
    simp
  · simp [update_of_ne, same]

/-- Putting an item that is nowhere. -/
theorem Exclusive.put (exclusive : Exclusive contents) (nowhere : ¬ Somewhere contents item)
    {list : List Item} (list_perm : list.Perm (item :: contents place)) :
    Exclusive (update contents place list) where
  unique := by
    intro x first second here there
    have absent : ∀ other, item ∉ contents other := fun other member => nowhere ⟨other, member⟩
    rcases mem_update.mp here with ⟨rfl, inFirst⟩ | ⟨apart, inFirst⟩
    · rcases mem_update.mp there with ⟨rfl, -⟩ | ⟨apart, inSecond⟩
      · rfl
      · rcases List.mem_cons.mp (list_perm.subset inFirst) with rfl | inFirst
        · exact (absent _ inSecond).elim
        · exact exclusive.unique inFirst inSecond
    · rcases mem_update.mp there with ⟨rfl, inSecond⟩ | ⟨-, inSecond⟩
      · rcases List.mem_cons.mp (list_perm.subset inSecond) with rfl | inSecond
        · exact (absent _ inFirst).elim
        · exact exclusive.unique inFirst inSecond
      · exact exclusive.unique inFirst inSecond
  nodup := by
    intro other
    by_cases same : other = place
    · subst same
      rw [update_self]
      exact list_perm.nodup_iff.mpr
        (List.nodup_cons.mpr ⟨fun member => nowhere ⟨other, member⟩, exclusive.nodup other⟩)
    · rw [update_of_ne same]
      exact exclusive.nodup other

private theorem somewhere_put {list : List Item} (list_perm : list.Perm (item :: contents place))
    (x : Item) :
    Somewhere (update contents place list) x ↔ x = item ∨ Somewhere contents x := by
  constructor
  · rintro ⟨other, member⟩
    rcases mem_update.mp member with ⟨rfl, inList⟩ | ⟨-, inside⟩
    · rcases List.mem_cons.mp (list_perm.subset inList) with same | inside
      · exact .inl same
      · exact .inr ⟨other, inside⟩
    · exact .inr ⟨other, inside⟩
  · rintro (rfl | ⟨other, inside⟩)
    · exact ⟨place, mem_update.mpr (.inl ⟨rfl, list_perm.symm.subset List.mem_cons_self⟩)⟩
    · by_cases same : other = place
      · subst same
        exact ⟨other, mem_update.mpr
          (.inl ⟨rfl, list_perm.symm.subset (List.mem_cons_of_mem _ inside)⟩)⟩
      · exact ⟨other, mem_update.mpr (.inr ⟨same, inside⟩)⟩

/-- Emptying a place. -/
theorem Exclusive.clear (exclusive : Exclusive contents) (place : Place) :
    Exclusive (update contents place []) := by
  refine exclusive.mono fun other => ?_
  by_cases same : other = place
  · subst same
    rw [update_self]
    exact List.nil_sublist _
  · rw [update_of_ne same]

/-- Taking an item out of its place. -/
theorem Exclusive.take (exclusive : Exclusive contents) {list : List Item}
    (perm : (contents place).Perm (item :: list)) :
    Exclusive (update contents place list) where
  unique := by
    have inside : ∀ {x other}, x ∈ update contents place list other →
        x ∈ contents other := by
      intro x other member
      rcases mem_update.mp member with ⟨rfl, inList⟩ | ⟨-, inside⟩
      · exact perm.symm.subset (List.mem_cons_of_mem _ inList)
      · exact inside
    intro x first second here there
    exact exclusive.unique (inside here) (inside there)
  nodup := by
    intro other
    by_cases same : other = place
    · subst same
      rw [update_self]
      exact (List.nodup_cons.mp (perm.nodup_iff.mp (exclusive.nodup other))).2
    · rw [update_of_ne same]
      exact exclusive.nodup other

theorem Exclusive.somewhere_take (exclusive : Exclusive contents) {list : List Item}
    (perm : (contents place).Perm (item :: list)) (x : Item) :
    Somewhere (update contents place list) x ↔ x ≠ item ∧ Somewhere contents x := by
  have here : item ∈ contents place := perm.symm.subset List.mem_cons_self
  have absent : item ∉ list := (List.nodup_cons.mp (perm.nodup_iff.mp (exclusive.nodup place))).1
  constructor
  · rintro ⟨other, member⟩
    rcases mem_update.mp member with ⟨rfl, inList⟩ | ⟨apart, inside⟩
    · exact ⟨fun same => absent (same ▸ inList), other,
        perm.symm.subset (List.mem_cons_of_mem _ inList)⟩
    · refine ⟨?_, other, inside⟩
      rintro rfl
      exact apart (exclusive.unique inside here)
  · rintro ⟨differs, other, inside⟩
    by_cases same : other = place
    · subst same
      exact ⟨other, mem_update.mpr
        (.inl ⟨rfl, (List.mem_cons.mp (perm.subset inside)).resolve_left differs⟩)⟩
    · exact ⟨other, mem_update.mpr (.inr ⟨same, inside⟩)⟩

end Update

/-! ## Ledgers -/

/-- What is accepted and not finished, in the order it was accepted. -/
def pending (accepted : List Item) (finished : Item → Bool) : List Item :=
  accepted.filter (!finished ·)

/-- An item is somewhere exactly while it is accepted and not finished. -/
structure Ledger (accepted : List Item) (finished : Item → Bool) (contents : Place → List Item) :
    Prop where
  exclusive : Exclusive contents
  nodup : accepted.Nodup
  somewhere_iff : ∀ item, Somewhere contents item ↔ item ∈ accepted ∧ finished item = false

variable {accepted : List Item} {finished : Item → Bool}

private theorem Ledger.mem_pending (ledger : Ledger accepted finished contents) :
    item ∈ pending accepted finished ↔ Somewhere contents item := by
  rw [pending, List.mem_filter, ledger.somewhere_iff, Bool.not_eq_true']

private theorem Ledger.pending_nodup (ledger : Ledger accepted finished contents) :
    (pending accepted finished).Nodup := ledger.nodup.filter _

/-- The order in a place does not matter. -/
theorem Ledger.rearrange (ledger : Ledger accepted finished contents)
    {other : Place → List Item} (perm : ∀ place, (other place).Perm (contents place)) :
    Ledger accepted finished other where
  exclusive := {
    unique := fun here there =>
      ledger.exclusive.unique ((perm _).subset here) ((perm _).subset there)
    nodup := fun place => (perm place).nodup_iff.mpr (ledger.exclusive.nodup place) }
  nodup := ledger.nodup
  somewhere_iff := by
    intro item
    rw [← ledger.somewhere_iff]
    exact exists_congr fun place => (perm place).mem_iff

theorem ledger_empty (finished : Item → Bool) : Ledger [] finished fun _ :
    Place => ([] : List Item) where
  exclusive := exclusive_empty
  nodup := List.nodup_nil
  somewhere_iff := by
    intro item
    constructor
    · rintro ⟨place, none⟩
      exact (List.not_mem_nil none).elim
    · exact fun none => (List.not_mem_nil none.1).elim

theorem length_pending_accept (unfinished : finished item = false) :
    (pending (accepted ++ [item]) finished).length = (pending accepted finished).length + 1 := by
  rw [pending, List.filter_append, List.length_append, ← pending]
  simp [unfinished]

section Count

variable [DecidableEq Item]

theorem Ledger.length_pending_finish (ledger : Ledger accepted finished contents)
    (somewhere : Somewhere contents item) :
    (pending accepted (update finished item true)).length + 1 =
      (pending accepted finished).length := by
  have erased : pending accepted (update finished item true) =
      (pending accepted finished).erase item := by
    rw [ledger.pending_nodup.erase_eq_filter, pending, pending, List.filter_filter]
    refine List.filter_congr fun x _ => ?_
    by_cases here : x = item
    · subst here
      simp
    · simp [here]
  rw [erased, List.length_erase_of_mem (ledger.mem_pending.mpr somewhere)]
  have some_ := List.length_pos_of_mem (ledger.mem_pending.mpr somewhere)
  omega

/-- The pending items outside a place. -/
theorem Ledger.length_outside (ledger : Ledger accepted finished contents) (place : Place) :
    ((pending accepted finished).filter (· ∉ contents place)).length + (contents place).length =
      (pending accepted finished).length := by
  have inside : ((pending accepted finished).filter (· ∈ contents place)).Perm
    (contents place) := by
    refine (List.perm_ext_iff_of_nodup (ledger.pending_nodup.filter _)
      (ledger.exclusive.nodup place)).mpr fun x => ?_
    rw [List.mem_filter, decide_eq_true_iff]
    exact ⟨fun both => both.2, fun here => ⟨ledger.mem_pending.mpr ⟨place, here⟩, here⟩⟩
  have split := List.length_eq_length_filter_add (l := pending accepted finished)
    (fun x => decide (x ∈ contents place))
  rw [inside.length_eq] at split
  rw [split, Nat.add_comm]
  congr 2
  refine List.filter_congr fun x _ => ?_
  simp

end Count

section Update

variable [DecidableEq Place]

/-- A new item is accepted and put into a place. -/
theorem Ledger.accept (ledger : Ledger accepted finished contents) (fresh : item ∉ accepted)
    (unfinished : finished item = false) {list : List Item}
    (perm : list.Perm (item :: contents place)) :
    Ledger (accepted ++ [item]) finished (update contents place list) where
  exclusive := ledger.exclusive.put
    (fun somewhere => fresh ((ledger.somewhere_iff item).mp somewhere).1) perm
  nodup := List.nodup_append.mpr ⟨ledger.nodup, List.nodup_singleton item, by
    rintro x inside y single rfl
    exact fresh (List.mem_singleton.mp single ▸ inside)⟩
  somewhere_iff := by
    intro x
    rw [somewhere_put perm, ledger.somewhere_iff, List.mem_append, List.mem_singleton]
    constructor
    · rintro (rfl | ⟨inside, unfinished⟩)
      · exact ⟨.inr rfl, unfinished⟩
      · exact ⟨.inl inside, unfinished⟩
    · rintro ⟨inside | rfl, unfinished⟩
      · exact .inr ⟨inside, unfinished⟩
      · exact .inl rfl

/-- An item moves from one place to another. -/
theorem Ledger.move (ledger : Ledger accepted finished contents) (apart : target ≠ source)
    {left list : List Item} (takes : (contents source).Perm (item :: left))
    (puts : list.Perm (item :: contents target)) :
    Ledger accepted finished (update (update contents source left) target list) := by
  have removed := ledger.exclusive.somewhere_take takes
  have same : update contents source left target = contents target :=
    update_of_ne apart _ _
  rw [← same] at puts
  refine ⟨(ledger.exclusive.take takes).put ?_ puts, ledger.nodup, fun x => ?_⟩
  · exact fun somewhere => ((removed item).mp somewhere).1 rfl
  · rw [somewhere_put puts, removed, ← ledger.somewhere_iff]
    constructor
    · rintro (rfl | ⟨-, somewhere⟩)
      · exact ⟨source, takes.symm.subset List.mem_cons_self⟩
      · exact somewhere
    · intro somewhere
      by_cases here : x = item
      · exact .inl here
      · exact .inr ⟨here, somewhere⟩

/-- All items of one place are put into another. -/
theorem Ledger.pour (ledger : Ledger accepted finished contents) (apart : target ≠ source)
    {list : List Item} (perm : list.Perm (contents source ++ contents target)) :
    Ledger accepted finished
      (update (update contents source []) target list) := by
  have emptied := ledger.exclusive.clear source
  have same : update contents source [] target = contents target :=
    update_of_ne apart _ _
  have elsewhere : ∀ {x other}, x ∈ contents source →
      x ∉ update contents source [] other := by
    intro x other poured member
    rcases mem_update.mp member with ⟨-, none⟩ | ⟨away, inside⟩
    · exact List.not_mem_nil none
    · exact away (ledger.exclusive.unique inside poured)
  have split : ∀ {x}, x ∈ list ↔ x ∈ contents source ∨ x ∈ contents target :=
    perm.mem_iff.trans List.mem_append
  refine ⟨⟨?_, ?_⟩, ledger.nodup, fun x => ?_⟩
  · intro x first second here there
    rcases mem_update.mp here with ⟨rfl, inFirst⟩ | ⟨awayFirst, inFirst⟩
    · rcases mem_update.mp there with ⟨rfl, -⟩ | ⟨-, inSecond⟩
      · rfl
      · rcases split.mp inFirst with poured | stayed
        · exact (elsewhere poured inSecond).elim
        · exact emptied.unique (same ▸ stayed) inSecond
    · rcases mem_update.mp there with ⟨rfl, inSecond⟩ | ⟨-, inSecond⟩
      · rcases split.mp inSecond with poured | stayed
        · exact (elsewhere poured inFirst).elim
        · exact emptied.unique inFirst (same ▸ stayed)
      · exact emptied.unique inFirst inSecond
  · intro other
    by_cases here : other = target
    · subst here
      rw [update_self]
      refine perm.nodup_iff.mpr (List.nodup_append.mpr
        ⟨ledger.exclusive.nodup source, ledger.exclusive.nodup other, ?_⟩)
      rintro x poured y stayed rfl
      exact apart (ledger.exclusive.unique stayed poured)
    · rw [update_of_ne here]
      exact emptied.nodup other
  · rw [← ledger.somewhere_iff]
    constructor
    · rintro ⟨other, member⟩
      rcases mem_update.mp member with ⟨rfl, inList⟩ | ⟨-, inside⟩
      · rcases split.mp inList with poured | stayed
        · exact ⟨source, poured⟩
        · exact ⟨other, stayed⟩
      · rcases mem_update.mp inside with ⟨-, none⟩ | ⟨-, inside⟩
        · exact (List.not_mem_nil none).elim
        · exact ⟨other, inside⟩
    · rintro ⟨other, inside⟩
      by_cases poured : other = source
      · subst poured
        exact ⟨target, mem_update.mpr (.inl ⟨rfl, split.mpr (.inl inside)⟩)⟩
      · by_cases here : other = target
        · subst here
          exact ⟨other, mem_update.mpr (.inl ⟨rfl, split.mpr (.inr inside)⟩)⟩
        · exact ⟨other, mem_update.mpr (.inr ⟨here, mem_update.mpr (.inr ⟨poured, inside⟩)⟩)⟩

variable [DecidableEq Item]

/-- An item is finished and taken out of its place. -/
theorem Ledger.finish (ledger : Ledger accepted finished contents) {list : List Item}
    (perm : (contents place).Perm (item :: list)) :
    Ledger accepted (update finished item true) (update contents place list) where
  exclusive := ledger.exclusive.take perm
  nodup := ledger.nodup
  somewhere_iff := by
    intro x
    rw [ledger.exclusive.somewhere_take perm, ledger.somewhere_iff]
    by_cases here : x = item
    · subst here
      simp
    · simp [here]

end Update

/-! ## Order -/

/-- The first item stands before the second one. -/
def Before (list : List Item) (first second : Item) : Prop :=
  ∃ front back, list = front ++ second :: back ∧ first ∈ front

variable {list : List Item} {first second : Item}

theorem Before.mem (before : Before list first second) : first ∈ list := by
  obtain ⟨front, back, rfl, inside⟩ := before
  exact List.mem_append_left _ inside

/-- Before the item at the end there are those in front of it. -/
theorem Before.of_append_self (nodup : (list ++ [item]).Nodup)
    (before : Before (list ++ [item]) first item) :
    first ∈ list := by
  obtain ⟨front, back, split, inside⟩ := before
  rcases List.mem_append.mp (split ▸ List.mem_append_left _ inside : first ∈ list ++ [item]) with here | last
  · exact here
  · obtain rfl := List.mem_singleton.mp last
    rw [split] at nodup
    exact ((List.nodup_append.mp nodup).2.2 _ inside _ List.mem_cons_self rfl).elim

/-- An item at the end is before no other one. -/
theorem Before.of_append (nodup : (list ++ [item]).Nodup) (inside : second ∈ list)
    (before : Before (list ++ [item]) first second) : Before list first second := by
  obtain ⟨front, back, split, infront⟩ := before
  obtain ⟨front', back', same⟩ := List.append_of_mem inside
  have apart : second ≠ item := by
    rintro rfl
    exact (List.nodup_append.mp nodup).2.2 _ inside _ List.mem_cons_self rfl
  rcases List.eq_nil_or_concat back with rfl | ⟨rest, last, rfl⟩
  · have ends := (List.append_inj' split rfl).2
    exact (apart (List.cons.inj ends).1.symm).elim
  · have shorter : list ++ [item] = (front ++ second :: rest) ++ [last] := by
      rw [split]
      simp
    exact ⟨front, rest, (List.append_inj' shorter rfl).1, infront⟩

/-- What stands before the front of a queue is not in it. -/
theorem Before.not_mem_of_sublist (nodup : list.Nodup) {rest : List Item}
    (queue : (second :: rest).Sublist list) (before : Before list first second) :
    first ∉ second :: rest := by
  obtain ⟨front, back, rfl, infront⟩ := before
  have apart := List.nodup_append.mp nodup
  have absent : second ∉ front := fun inside => apart.2.2 _ inside _ List.mem_cons_self rfl
  obtain ⟨left, right, split, leftSub, rightSub⟩ := List.sublist_append_iff.mp queue
  have none : left = [] := by
    cases left with
    | nil => rfl
    | cons head tail =>
        obtain ⟨rfl, -⟩ := List.cons.inj split
        exact (absent (leftSub.subset List.mem_cons_self)).elim
  rw [none, List.nil_append] at split
  intro queued
  exact apart.2.2 _ infront _ (rightSub.subset (split ▸ queued)) rfl

end Placement
