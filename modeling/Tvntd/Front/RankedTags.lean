import Tvntd.Front.SortedArray
import Tvntd.Lib.Sorting
import Mathlib.Data.List.Pairwise

/-! # Ranks of tags

A tag has the number of its own rank, and a hundred more for each tag above it. A
rank need not be a number: two tags then compare like equal ones, so that nothing
can be said about the order of a list with such a tag.
-/

namespace Tvntd.RankedTags

open SortedArray

/-- A rank as it is given; numbers are whole. -/
inductive Rank
  | number (value : Int)
  | text (value : String)
deriving DecidableEq

/-! ## Reading a rank -/

def isSpace (char : Char) : Bool :=
  char.toNat ∈ [9, 10, 11, 12, 13, 32, 0xa0, 0x1680, 0x2028, 0x2029, 0x202f, 0x205f, 0x3000, 0xfeff]
    ∨ 0x2000 ≤ char.toNat ∧ char.toNat ≤ 0x200a

def digitOf (char : Char) : Option Nat :=
  if '0' ≤ char ∧ char ≤ '9' then some (char.toNat - '0'.toNat)
  else if 'a' ≤ char ∧ char ≤ 'z' then some (char.toNat - 'a'.toNat + 10)
  else if 'A' ≤ char ∧ char ≤ 'Z' then some (char.toNat - 'A'.toNat + 10)
  else none

/-- The number that the digits in front make, if there are any. -/
def leadingNumber (radix : Nat) (chars : List Char) : Option Nat :=
  match ((chars.map digitOf).takeWhile fun digit => digit.any (· < radix)).reduceOption with
  | [] => none
  | digits => some (digits.foldl (fun number digit => number * radix + digit) 0)

def unsignedNumber : List Char → Option Nat
  | '0' :: 'x' :: chars => leadingNumber 16 chars
  | '0' :: 'X' :: chars => leadingNumber 16 chars
  | chars => leadingNumber 10 chars

def signedNumber : List Char → Option Int
  | '-' :: chars => (unsignedNumber chars).map fun number => -number
  | '+' :: chars => (unsignedNumber chars).map fun number => number
  | chars => (unsignedNumber chars).map fun number => number

/-- `parseInt`; no rank is what is not a number. -/
def parseInt : Option Rank → Option Int
  | none => none
  | some (.number value) => some value
  | some (.text value) => signedNumber (value.toList.dropWhile isSpace)

example : parseInt (some (.text " -12px")) = some (-12) := by decide

/-- `rank || other` -/
def either (rank other : Option Rank) : Option Rank :=
  match rank with
  | none => other
  | some (.number value) => if value = 0 then other else rank
  | some (.text value) => if value = "" then other else rank

/-! ## Ranks of a chain of tags -/

variable {Tag : Type}

/-- The loop of `_computeRank`, with the number of turns that are left. -/
def climb (parentTag : Tag → Option String) (tagIndex : String → Option Tag) :
    Nat → Tag → Option Int → Option Int
  | 0, _, rank => rank
  | turns + 1, tag, rank =>
      match parentTag tag with
      | none => rank
      | some parent =>
          match tagIndex parent with
          | none => rank.map (· + 100)
          | some above => climb parentTag tagIndex turns above (rank.map (· + 100))

/-- `_computeRank` -/
def computeRank (rankScore : Tag → Option Rank) (parentTag : Tag → Option String)
    (tagIndex : String → Option Tag) (tag : Tag) : Option Int :=
  climb parentTag tagIndex 20 tag (parseInt (rankScore tag))

/-- `_compareTags`, with zero for what is not a number: that is neither `cmp <= -1` nor
`cmp >= 1`, and sorting takes it for zero. -/
def compareTags (rank : Tag → Option Int) (a b : Tag) : Int :=
  match rank a, rank b with
  | some aRank, some bRank => aRank - bRank
  | _, _ => 0

def compareFn (rank : Tag → Option Int) : Option Tag → Tag → Int
  | none, _ => 0
  | some a, b => compareTags rank a b

def insertTag (rank : Tag → Option Int) (tag : Tag) (array : List Tag) : Option (List Tag) :=
  insertSorted (compareFn rank) tag array

def sortTags (rank : Tag → Option Int) (array : List Tag) : List Tag :=
  array.mergeSort fun a b => decide (compareTags rank a b ≤ 0)

/-- Both ranks are numbers, and the first one is not greater. -/
def RankLe (a b : Option Int) : Prop := ∃ x y, a = some x ∧ b = some y ∧ x ≤ y

/-- No tag has a greater rank than one behind it. -/
def Ranked (rank : Tag → Option Int) (array : List Tag) : Prop :=
  array.Pairwise fun a b => RankLe (rank a) (rank b)

/-! ## What ranks depend on -/

variable {parentTag other : Tag → Option String} {tagIndex otherIndex : String → Option Tag}

private theorem isSome_climb (turns : Nat) (tag : Tag) (rank : Option Int) :
    (climb parentTag tagIndex turns tag rank).isSome = rank.isSome := by
  induction turns generalizing tag rank with
  | zero => rfl
  | succ turns ih =>
      rw [climb]
      cases parentTag tag with
      | none => rfl
      | some parent =>
          cases found : tagIndex parent with
          | none =>
              simp only [found]
              exact Option.isSome_map
          | some above =>
              simp only [found]
              exact (ih above _).trans Option.isSome_map

theorem isSome_computeRank {rankScore : Tag → Option Rank} (tag : Tag) :
    (computeRank rankScore parentTag tagIndex tag).isSome = (parseInt (rankScore tag)).isSome :=
  isSome_climb 20 tag _

/-- Tags whose parents are among them have the ranks that these parents give them. -/
theorem climb_congr {inside : Tag → Prop} (parents : ∀ tag, inside tag → other tag = parentTag tag)
    (names : ∀ tag parent, inside tag → parentTag tag = some parent →
      otherIndex parent = tagIndex parent)
    (closed : ∀ name tag, tagIndex name = some tag → inside tag) (turns : Nat) {tag : Tag}
    (within : inside tag) (rank : Option Int) :
    climb other otherIndex turns tag rank = climb parentTag tagIndex turns tag rank := by
  induction turns generalizing tag rank with
  | zero => rfl
  | succ turns ih =>
      rw [climb, climb, parents tag within]
      cases up : parentTag tag with
      | none => rfl
      | some parent =>
          simp only [names tag parent within up]
          cases found : tagIndex parent with
          | none => rfl
          | some above => exact ih (closed parent above found) _

/-! ## Ranked lists -/

variable {rank : Tag → Option Int} {array after : List Tag} {tag : Tag}

private theorem rankLe_iff {a b : Option Int} (left : a.isSome) (right : b.isSome) :
    RankLe a b ↔ a.getD 0 ≤ b.getD 0 := by
  obtain ⟨x, rfl⟩ := Option.isSome_iff_exists.mp left
  obtain ⟨y, rfl⟩ := Option.isSome_iff_exists.mp right
  constructor
  · rintro ⟨_, _, ⟨⟩, ⟨⟩, le⟩
    exact le
  · exact fun le => ⟨x, y, rfl, rfl, le⟩

/-- Two tags of a ranked list have numbers for ranks. -/
theorem Ranked.numbers (ranked : Ranked rank array) {first second : Tag} (left : first ∈ array)
    (right : second ∈ array) (apart : first ≠ second) :
    (rank first).isSome ∧ (rank second).isSome := by
  have both : array.Pairwise fun a b => (rank a).isSome ∧ (rank b).isSome := by
    refine ranked.imp ?_
    rintro a b ⟨x, y, first, second, -⟩
    rw [first, second]
    exact ⟨rfl, rfl⟩
  have symm : Std.Symm fun a b => (rank a).isSome = true ∧ (rank b).isSome = true :=
    ⟨fun _ _ => And.symm⟩
  exact both.forall left right apart

private theorem compareTags_of_numbers {first second : Tag} (left : (rank first).isSome)
    (right : (rank second).isSome) :
    compareTags rank first second = (rank first).getD 0 - (rank second).getD 0 := by
  obtain ⟨x, first⟩ := Option.isSome_iff_exists.mp left
  obtain ⟨y, second⟩ := Option.isSome_iff_exists.mp right
  rw [compareTags, first, second]
  rfl

theorem threeWay_difference (value : Tag → Int) : ThreeWay fun a b => value a - value b where
  turned := by
    intro a b
    omega
  trans := by
    intro a b c
    omega

/-- Where all ranks are numbers, inserting a tag keeps the order. -/
theorem Ranked.insertTag (ranked : Ranked rank array)
    (numbers : ∀ other ∈ array, (rank other).isSome ∧ (rank tag).isSome)
    (inserted : insertTag rank tag array = some after) : Ranked rank after := by
  have perm := insertSorted_perm inserted
  cases array with
  | nil =>
      rw [List.perm_singleton.mp perm]
      exact List.pairwise_singleton _ _
  | cons first rest =>
      have number := (numbers first List.mem_cons_self).2
      let value : Tag → Int := fun tag => (rank tag).getD 0
      let difference : Option Tag → Tag → Int := fun pivot tag =>
        pivot.elim 0 fun pivot => value pivot - value tag
      have all : ∀ other ∈ after, (rank other).isSome := by
        intro other inside
        rcases List.mem_cons.mp (perm.mem_iff.mp inside) with rfl | inside
        · exact number
        · exact (numbers other inside).1
      have three : ThreeWay (SortedArray.order difference) := threeWay_difference value
      have ascending : Ascending (SortedArray.order difference) (first :: rest) := by
        refine List.Pairwise.imp_of_mem (fun {a b} left right le => ?_) ranked
        have le := (rankLe_iff (numbers a left).1 (numbers b right).1).mp le
        exact Int.sub_nonpos_of_le le
      have same : insertSorted difference tag (first :: rest) = some after := by
        rw [← inserted]
        refine insertSorted_congr rfl fun pivot inside => ?_
        exact (compareTags_of_numbers (numbers pivot inside).1 number).symm
      refine List.Pairwise.imp_of_mem (fun {a b} left right le => ?_)
        (insertSorted_ascending three ascending same)
      exact (rankLe_iff (all a left) (all b right)).mpr (Int.le_of_sub_nonpos le)

theorem sortTags_perm (rank : Tag → Option Int) (array : List Tag) :
    (sortTags rank array).Perm array := List.mergeSort_perm _ _

/-- Where all ranks are numbers, sorting gives a ranked list. -/
theorem ranked_sortTags (numbers : ∀ tag ∈ array, (rank tag).isSome) :
    Ranked rank (sortTags rank array) := by
  let value : Tag → Int := fun tag => (rank tag).getD 0
  have three : ThreeWayOn (compareTags rank) array := by
    have plain : ThreeWayOn (fun a b => value a - value b) array :=
      ⟨fun a b => (threeWay_difference value).turned a b, (threeWay_difference value).trans⟩
    exact plain.congr fun a left b right =>
      compareTags_of_numbers (numbers a left) (numbers b right)
  have sort := stableSort_mergeSort three
  refine List.Pairwise.imp_of_mem (fun {a b} left right le => ?_) sort.ascending
  have first := numbers a (sort.perm.mem_iff.mp left)
  have second := numbers b (sort.perm.mem_iff.mp right)
  rw [compareTags_of_numbers first second] at le
  exact (rankLe_iff first second).mpr (Int.le_of_sub_nonpos le)

end Tvntd.RankedTags
