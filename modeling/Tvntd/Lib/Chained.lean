import Mathlib.Data.List.Basic
import Mathlib.Data.List.Nodup
import Mathlib.Data.List.Dedup
import Mathlib.Data.List.Range
import Mathlib.Logic.Function.Basic

/-! # Separate chaining

A table with separate chaining keeps every linked element in the bucket its slot
function selects. `Chained` says that the buckets hold exactly the elements of
one list, each once and in its own slot. When the elements that match a probe
all have one slot, the oldest match in that bucket is the oldest match of the
whole table, provided each bucket keeps the matches of a probe in order
(`Ordered`). Appending, unlinking and moving every element to a larger array
keep both facts.

A stack-like table adds at the front, and its buckets are the slots of one list
on the nose (`bucketOf`); removing the first match of a bucket then removes the
first match of that list.
-/

namespace List

variable {α : Type*}

/-- Erasing an element that a filter drops anyway does not change the filter. -/
theorem filter_eraseP_of_disjoint {p q : α → Bool} (disjoint : ∀ a, p a → q a = false)
    (l : List α) : (l.eraseP p).filter q = l.filter q := by
  induction l with
  | nil => rfl
  | cons a rest ih =>
      by_cases holds : p a
      · rw [eraseP_cons_of_pos holds, filter_cons_of_neg (by simp [disjoint a holds])]
      · rw [eraseP_cons_of_neg holds, filter_cons, filter_cons, ih]

/-- Erasing the first match of a predicate erases the element found. -/
theorem eraseP_eq_erase_of_find? [DecidableEq α] {p : α → Bool} {l : List α} {a : α}
    (found : l.find? p = some a) : l.eraseP p = l.erase a := by
  induction l with
  | nil => cases found
  | cons b rest ih =>
      by_cases holds : p b
      · rw [find?_cons_of_pos holds, Option.some.injEq] at found
        rw [eraseP_cons_of_pos holds, found, erase_cons_head]
      · rw [find?_cons_of_neg holds] at found
        have other : b ≠ a := fun same => holds (same ▸ find?_some found)
        rw [eraseP_cons_of_neg holds, ih found, erase_cons_tail (by simpa using other)]

/-- Erasing what only one element matches. -/
theorem eraseP_eq_erase_of_unique [DecidableEq α] {p : α → Bool} {l : List α} {a : α}
    (hit : a ∈ l → p a) (unique : ∀ b ∈ l, p b → b = a) : l.eraseP p = l.erase a := by
  cases found : l.find? p with
  | none =>
      have misses := find?_eq_none.mp found
      rw [eraseP_of_forall_not misses, erase_of_not_mem fun inside => misses a inside (hit inside)]
  | some b =>
      obtain rfl := unique b (mem_of_find?_eq_some found) (find?_some found)
      exact eraseP_eq_erase_of_find? found

/-- A concatenation over a range in which one index contributes. -/
theorem flatMap_range_eq_of_unique {f : Nat → List α} {n k : Nat} (inside : k < n)
    (others : ∀ i, i ≠ k → f i = []) : (range n).flatMap f = f k := by
  induction n with
  | zero => exact (Nat.not_lt_zero k inside).elim
  | succ n ih =>
      rw [range_succ, flatMap_append, flatMap_singleton]
      by_cases last : k = n
      · subst last
        have before : (range k).flatMap f = [] := by
          rw [flatMap_eq_nil_iff]
          intro i member
          exact others i (Nat.ne_of_lt (mem_range.mp member))
        rw [before, nil_append]
      · rw [ih (by omega), others n (Ne.symm last), append_nil]

end List

namespace Chaining

variable {ε κ : Type*}

/-- The elements of a list whose slot is the given bucket. -/
def bucketOf (slot : ε → Nat) (all : List ε) (i : Nat) : List ε :=
  all.filter fun e => slot e = i

@[simp] theorem bucketOf_nil (slot : ε → Nat) (i : Nat) : bucketOf slot [] i = [] := rfl

/-- Adding at the front of the list adds at the front of one bucket. -/
theorem bucketOf_cons (slot : ε → Nat) (all : List ε) (e : ε) :
    bucketOf slot (e :: all) =
      Function.update (bucketOf slot all) (slot e) (e :: bucketOf slot all (slot e)) := by
  funext i
  by_cases own : i = slot e
  · subst own
    simp [bucketOf]
  · simp [bucketOf, Function.update_of_ne own, Ne.symm own]

/-- Adding at the back of the list adds at the back of one bucket. -/
theorem bucketOf_append_singleton (slot : ε → Nat) (all : List ε) (e : ε) :
    bucketOf slot (all ++ [e]) =
      Function.update (bucketOf slot all) (slot e) (bucketOf slot all (slot e) ++ [e]) := by
  funext i
  by_cases own : i = slot e
  · subst own
    simp [bucketOf]
  · simp [bucketOf, Function.update_of_ne own, Ne.symm own]

/-- The first element of a bucket that satisfies `p` is the first element of the
list that satisfies `p` in that slot. -/
theorem find?_bucketOf (slot : ε → Nat) (p : ε → Bool) (all : List ε) (i : Nat) :
    (bucketOf slot all i).find? p = all.find? fun e => slot e = i && p e := by
  unfold bucketOf
  rw [List.find?_filter]
  congr 1
  funext e
  simp only [Bool.decide_and, Bool.decide_eq_true]

/-- Erasing the first such element of the list erases it from its bucket and
leaves the other buckets alone. -/
theorem bucketOf_eraseP (slot : ε → Nat) (p : ε → Bool) (all : List ε) (i : Nat) :
    bucketOf slot (all.eraseP fun e => slot e = i && p e) =
      Function.update (bucketOf slot all) i ((bucketOf slot all i).eraseP p) := by
  funext j
  by_cases own : j = i
  · subst own
    rw [Function.update_self]
    unfold bucketOf
    rw [List.eraseP_filter]
    congr 2
    funext e
    rw [Bool.and_comm]
  · rw [Function.update_of_ne own]
    apply List.filter_eraseP_of_disjoint
    intro e matched
    have here : slot e = i := by
      have both := Bool.and_eq_true_iff.mp matched
      exact of_decide_eq_true both.1
    simp only [here, Ne.symm own, decide_false]

/-- The buckets hold exactly the elements of `all`, each once and in its slot. -/
structure Chained (bucket : Nat → List ε) (slot : ε → Nat) (all : List ε) : Prop where
  mem : ∀ i e, e ∈ bucket i ↔ e ∈ all ∧ slot e = i
  nodup : ∀ i, (bucket i).Nodup
  nodup_all : all.Nodup

/-- In the bucket a probe selects, the matches of the probe stand in the order
of `all`. -/
def Ordered (bucket : Nat → List ε) (home : κ → Nat) (same : κ → ε → Bool) (all : List ε) : Prop :=
  ∀ k, (bucket (home k)).filter (same k) = all.filter (same k)

section Fifo

variable {bucket : Nat → List ε} {slot : ε → Nat} {all : List ε} {home : κ → Nat}
  {same : κ → ε → Bool}

theorem chained_empty (slot : ε → Nat) : Chained (fun _ => []) slot ([] : List ε) where
  mem := by simp
  nodup := by simp
  nodup_all := List.nodup_nil

theorem ordered_empty (home : κ → Nat) (same : κ → ε → Bool) :
    Ordered (fun _ => []) home same ([] : List ε) := fun _ => rfl

/-- The elements of a list in the buckets of their slots. -/
theorem chained_bucketOf (slot : ε → Nat) (nodup : all.Nodup) :
    Chained (bucketOf slot all) slot all where
  mem := by simp [bucketOf]
  nodup := fun i => nodup.filter _
  nodup_all := nodup

/-- An element sits in the bucket of its slot. -/
theorem Chained.mem_slot (chained : Chained bucket slot all) {e : ε} (member : e ∈ all) :
    e ∈ bucket (slot e) := (chained.mem _ _).mpr ⟨member, rfl⟩

/-- A probe finds in its bucket the oldest element of the table that matches. -/
theorem Ordered.find? (ordered : Ordered bucket home same all) (k : κ) :
    (bucket (home k)).find? (same k) = all.find? (same k) := by
  rw [← List.head?_filter, ordered k, List.head?_filter]

/-- Slot functions that agree on the elements chain them the same way. -/
theorem Chained.congr (chained : Chained bucket slot all) {other : ε → Nat}
    (agrees : ∀ e ∈ all, other e = slot e) : Chained bucket other all where
  mem := by
    intro i e
    rw [chained.mem]
    constructor
    · exact fun held => ⟨held.1, (agrees e held.1).trans held.2⟩
    · exact fun held => ⟨held.1, (agrees e held.1).symm.trans held.2⟩
  nodup := chained.nodup
  nodup_all := chained.nodup_all

/-- The order of the list does not matter. -/
theorem Chained.perm (chained : Chained bucket slot all) {other : List ε} (perm : all.Perm other) :
    Chained bucket slot other where
  mem := fun i e => (chained.mem i e).trans (and_congr_left fun _ => perm.mem_iff)
  nodup := chained.nodup
  nodup_all := perm.nodup_iff.mp chained.nodup_all

theorem Chained.append (chained : Chained bucket slot all) {e : ε} (fresh : e ∉ all) :
    Chained (Function.update bucket (slot e) (bucket (slot e) ++ [e])) slot (all ++ [e]) where
  mem := by
    intro i other
    by_cases own : i = slot e
    · subst own
      rw [Function.update_self, List.mem_append, chained.mem, List.mem_append, List.mem_singleton]
      constructor
      · rintro (⟨member, placed⟩ | rfl)
        · exact ⟨Or.inl member, placed⟩
        · exact ⟨Or.inr rfl, rfl⟩
      · rintro ⟨member | rfl, placed⟩
        · exact Or.inl ⟨member, placed⟩
        · exact Or.inr rfl
    · rw [Function.update_of_ne own, chained.mem, List.mem_append, List.mem_singleton]
      constructor
      · exact fun held => ⟨Or.inl held.1, held.2⟩
      · rintro ⟨member | rfl, placed⟩
        · exact ⟨member, placed⟩
        · exact (own placed.symm).elim
  nodup := by
    intro i
    by_cases own : i = slot e
    · subst own
      rw [Function.update_self]
      refine List.nodup_append.mpr ⟨chained.nodup _, List.nodup_singleton e, ?_⟩
      intro first inside second last
      rw [List.mem_singleton] at last
      subst last
      exact fun equal => fresh (equal ▸ ((chained.mem _ _).mp inside).1)
    · rw [Function.update_of_ne own]
      exact chained.nodup i
  nodup_all := by
    refine List.nodup_append.mpr ⟨chained.nodup_all, List.nodup_singleton e, ?_⟩
    intro first inside second last
    rw [List.mem_singleton] at last
    subst last
    exact fun equal => fresh (equal ▸ inside)

theorem Ordered.append (ordered : Ordered bucket home same all) {e : ε}
    (selects : ∀ k, same k e → slot e = home k) :
    Ordered (Function.update bucket (slot e) (bucket (slot e) ++ [e])) home same (all ++ [e]) := by
  intro k
  by_cases own : home k = slot e
  · rw [own, Function.update_self, List.filter_append, List.filter_append, ← own, ordered k]
  · rw [Function.update_of_ne own, ordered k, List.filter_append]
    have other : ¬ same k e := fun matched => own (selects k matched).symm
    rw [List.filter_cons_of_neg other, List.filter_nil, List.append_nil]

variable [DecidableEq ε]

theorem Chained.erase (chained : Chained bucket slot all) (e : ε) :
    Chained (fun i => (bucket i).erase e) slot (all.erase e) where
  mem := by
    intro i other
    rw [(chained.nodup i).mem_erase_iff, chained.nodup_all.mem_erase_iff, chained.mem]
    tauto
  nodup := fun i => (chained.nodup i).erase e
  nodup_all := chained.nodup_all.erase e

theorem Ordered.erase (ordered : Ordered bucket home same all)
    (chained : Chained bucket slot all) (e : ε) :
    Ordered (fun i => (bucket i).erase e) home same (all.erase e) := by
  intro k
  change ((bucket (home k)).erase e).filter (same k) = _
  rw [(chained.nodup _).erase_eq_filter, chained.nodup_all.erase_eq_filter,
    List.filter_comm, ordered k, List.filter_comm]

omit [DecidableEq ε] in
/-- The elements of the first `size` buckets, bucket by bucket. -/
theorem Chained.mem_flatMap (chained : Chained bucket slot all) {size : Nat}
    (fits : ∀ e ∈ all, slot e < size) (e : ε) :
    e ∈ (List.range size).flatMap bucket ↔ e ∈ all := by
  rw [List.mem_flatMap]
  constructor
  · rintro ⟨i, -, inside⟩
    exact ((chained.mem _ _).mp inside).1
  · intro member
    exact ⟨slot e, List.mem_range.mpr (fits e member), chained.mem_slot member⟩

omit [DecidableEq ε] in
theorem Chained.nodup_flatMap (chained : Chained bucket slot all) (size : Nat) :
    ((List.range size).flatMap bucket).Nodup := by
  rw [List.nodup_flatMap]
  refine ⟨fun i _ => chained.nodup i, ?_⟩
  apply List.Nodup.pairwise_of_forall_ne List.nodup_range
  intro first _ second _ different e left right
  exact different (((chained.mem _ _).mp left).2.symm.trans ((chained.mem _ _).mp right).2)

omit [DecidableEq ε] in
theorem Chained.length_flatMap (chained : Chained bucket slot all) {size : Nat}
    (fits : ∀ e ∈ all, slot e < size) :
    ((List.range size).flatMap bucket).length = all.length :=
  ((List.perm_ext_iff_of_nodup (chained.nodup_flatMap size) chained.nodup_all).mpr
    (chained.mem_flatMap fits)).length_eq

omit [DecidableEq ε] in
/-- Draining the buckets in order and chaining every element again by another
slot function. -/
theorem Chained.rechain (chained : Chained bucket slot all) {size : Nat}
    (fits : ∀ e ∈ all, slot e < size) (next : ε → Nat) :
    Chained (bucketOf next ((List.range size).flatMap bucket)) next all where
  mem := by
    intro i e
    unfold bucketOf
    rw [List.mem_filter, chained.mem_flatMap fits, decide_eq_true_eq]
  nodup := fun i => (chained.nodup_flatMap size).filter _
  nodup_all := chained.nodup_all

omit [DecidableEq ε] in
/-- Rechaining keeps the matches of a probe in order: they all come from the one
bucket the probe selected before. -/
theorem Ordered.rechain (ordered : Ordered bucket home same all)
    (chained : Chained bucket slot all) {size : Nat} {next : ε → Nat} {moved : κ → Nat}
    (homes : ∀ k, home k < size) (selects : ∀ k e, same k e → slot e = home k)
    (follows : ∀ k e, same k e → next e = moved k) :
    Ordered (bucketOf next ((List.range size).flatMap bucket)) moved same all := by
  intro k
  have placed : ∀ e, same k e → decide (next e = moved k) = true :=
    fun e matched => decide_eq_true (follows k e matched)
  have collapse : (bucketOf next ((List.range size).flatMap bucket) (moved k)).filter (same k) =
      ((List.range size).flatMap bucket).filter (same k) := by
    unfold bucketOf
    rw [List.filter_filter]
    apply List.filter_congr
    intro e _
    cases matched : same k e with
    | false => rfl
    | true => simp only [placed e matched, Bool.and_true]
  rw [collapse, List.filter_flatMap, ← ordered k]
  apply List.flatMap_range_eq_of_unique (homes k)
  intro i other
  rw [List.filter_eq_nil_iff]
  intro e inside matched
  exact other (((chained.mem _ _).mp inside).2.symm.trans (selects k e matched))

end Fifo

end Chaining
