import Tvntd.Java.Text
import Tvntd.Lib.HashMap
import Tvntd.Lib.Sorting
import Mathlib.Data.List.Induction
import Mathlib.Data.List.Perm.Basic
import Mathlib.Algebra.Group.Nat.Defs
import Mathlib.Algebra.Group.Int.Defs

/-! # Ranks of submitted tags

The tags of a form come with ranks. Those with the same parent are sorted by
their ranks and numbered. The tags without a parent are kept in the map of the
other groups, under a name that a parent may have.
-/

namespace Tvntd.TagForm

open Function

structure TagRank where
  tagName : Option Text
  parent : Option Text
  rank : Option Int64
  pubTag : Bool
  favorite : Bool
  article : Bool
  imgOid : Option Text
  routeLink : Option Text
deriving DecidableEq

/-- The difference of the ranks, cut down to an int. -/
def TagRank.compareTo (tag t2 : TagRank) : Except Exception Int :=
  match tag.rank, t2.rank with
  | some rank, some other => .ok (rank - other).toInt32.toInt
  | _, _ => .error .nullPointer

/-- The objects of `TagRank`. -/
abbrev RankHeap (Ref : Type) := Ref → TagRank

variable {Ref : Type}

/-- `Collections.sort`, with the comparison that it calls. -/
abbrev SortOf (Ref : Type) :=
  (Ref → Ref → Except Exception Int) → List Ref → Except Exception (List Ref)

/-- What is documented of sorting: where the comparison keeps its contract, the list is sorted and
equal elements stay in their order. -/
def Documented (sort : SortOf Ref) : Prop :=
  ∀ compare cmp list, (∀ a ∈ list, ∀ b ∈ list, compare a b = .ok (cmp a b)) →
    ThreeWayOn cmp list → ∃ sorted, sort compare list = .ok sorted ∧ StableSort cmp list sorted

/-- The maps of `fixupTagList`. -/
structure TagLevels (Ref : Type) where
  dict : HashMap (Option Text) Ref
  top : List Ref
  levels : HashMap Text (List Ref)

namespace RankHeap

/-- A tag enters the maps. -/
def register (heap : RankHeap Ref) (maps : TagLevels Ref) :
    Option Ref → Except Exception (TagLevels Ref)
  | none => .error .nullPointer
  | some r =>
      let dict := AList.insert (heap r).tagName r maps.dict
      match (heap r).parent with
      | none => .ok { maps with dict := dict, top := maps.top ++ [r] }
      | some parent =>
          let siblings := (maps.levels.lookup parent).getD [] ++ [r]
          .ok { maps with dict := dict, levels := AList.insert parent siblings maps.levels }

variable [DecidableEq Ref]

def setRank (heap : RankHeap Ref) (r : Ref) (rank : Int64) : RankHeap Ref :=
  update heap r { heap r with rank := some rank }

/-- Numbers the tags from the next one on. -/
def setRanks (heap : RankHeap Ref) (order : Int64) : List Ref → RankHeap Ref
  | [] => heap
  | r :: rest => (heap.setRank r (order + 1)).setRanks (order + 1) rest

variable (sort : SortOf Ref)

def fixLevel (heap : RankHeap Ref) (siblings : List Ref) : Except Exception (RankHeap Ref) :=
  match sort (fun tag t2 => (heap tag).compareTo (heap t2)) siblings with
  | .error error => .error error
  | .ok siblings => .ok (heap.setRanks 0 siblings)

/-- The name of the group without a parent. -/
def root : Text := Text.ofString "_root"

/-- The tags with their new ranks, and the tags by their names. -/
def fixupTagList (heap : RankHeap Ref) :
    Option (List (Option Ref)) → Except Exception (RankHeap Ref × HashMap (Option Text) Ref)
  | none => .ok (heap, ∅)
  | some tags => do
      let maps ← tags.foldlM heap.register ⟨∅, [], ∅⟩
      let levels : HashMap Text (List Ref) := AList.insert root maps.top maps.levels
      let heap ← levels.values.foldlM (fixLevel sort) heap
      .ok (heap, maps.dict)

end RankHeap

open RankHeap (root)

/-! ## What is asked of the ranks -/

/-- The tags with a parent. -/
def group (heap : RankHeap Ref) (tags : List Ref) (parent : Option Text) : List Ref :=
  tags.filter fun r => decide ((heap r).parent = parent)

def numbers (order : Int64) (count : Nat) : List (Option Int64) :=
  (List.range count).map fun k => some (order + Int64.ofNat (k + 1))

/-- A rank as a number. -/
def submitted (heap : RankHeap Ref) (r : Ref) : Int := ((heap r).rank.getD 0).toInt

/-- The tags have the ranks from one on, in an order that ascends in their old ranks. -/
def Numbered (before after : RankHeap Ref) (siblings : List Ref) : Prop :=
  ∃ arranged : List Ref, arranged.Perm siblings ∧
    (arranged.map fun r => (after r).rank) = numbers 0 siblings.length ∧
      arranged.Pairwise fun first second => submitted before first ≤ submitted before second

/-- The groups are numbered. -/
def Right [DecidableEq Ref] (sort : SortOf Ref) (heap : RankHeap Ref) (tags : List Ref) : Prop :=
  ∃ after dict, heap.fixupTagList sort (some (tags.map some)) = .ok (after, dict) ∧
    ∀ parent, Numbered heap after (group heap tags parent)

/-- How two tags are compared. -/
def order (heap : RankHeap Ref) (tag t2 : Ref) : Int :=
  ((heap tag).rank.getD 0 - (heap t2).rank.getD 0).toInt32.toInt

/-- No tag is there twice. In every group but that of the parent with the name of the group without
a parent, the comparison keeps its contract and does not put a greater rank in front of a smaller
one. The tags of that parent are numbered already. -/
structure Careful (heap : RankHeap Ref) (tags : List Ref) : Prop where
  distinct : tags.Nodup
  contract : ∀ parent ≠ some root, ThreeWayOn (order heap) (group heap tags parent)
  agrees : ∀ parent ≠ some root, (group heap tags parent).Pairwise
    (Agrees (order heap) fun first second => submitted heap first ≤ submitted heap second)
  reserved : ((group heap tags (some root)).map fun r => (heap r).rank).Perm
    (numbers 0 (group heap tags (some root)).length)

/-! ## The groups -/

variable {sort : SortOf Ref} {heap before : RankHeap Ref} {tags siblings sorted : List Ref}

/-- The maps behind some tags. -/
structure Registered (heap : RankHeap Ref) (tags : List Ref) (maps : TagLevels Ref) : Prop where
  top : maps.top = group heap tags none
  levels : ∀ parent, maps.levels.lookup parent =
    if group heap tags (some parent) = [] then none else some (group heap tags (some parent))

private theorem group_snoc_self {r : Ref} {parent : Option Text} (own : (heap r).parent = parent)
    (tags : List Ref) : group heap (tags ++ [r]) parent = group heap tags parent ++ [r] := by
  rw [group, List.filter_append, List.filter_singleton, decide_eq_true own]
  rfl

private theorem group_snoc_of_ne {r : Ref} {parent : Option Text} (other : (heap r).parent ≠ parent)
    (tags : List Ref) : group heap (tags ++ [r]) parent = group heap tags parent := by
  rw [group, List.filter_append, List.filter_singleton, decide_eq_false other]
  exact List.append_nil _

theorem Registered.snoc {maps : TagLevels Ref} (registered : Registered heap tags maps) (r : Ref) :
    ∃ next, heap.register maps (some r) = .ok next ∧ Registered heap (tags ++ [r]) next := by
  obtain ⟨top, levels⟩ := registered
  cases parent : (heap r).parent with
  | none =>
      refine ⟨{ maps with
        dict := AList.insert (heap r).tagName r maps.dict
        top := maps.top ++ [r] }, by simp only [RankHeap.register, parent], ?_, ?_⟩
      · rw [group_snoc_self parent, top]
      · intro other
        rw [group_snoc_of_ne (by simp [parent])]
        exact levels other
  | some name =>
      refine ⟨{ maps with
        dict := AList.insert (heap r).tagName r maps.dict
        levels := AList.insert name ((maps.levels.lookup name).getD [] ++ [r]) maps.levels },
        by simp only [RankHeap.register, parent], ?_, ?_⟩
      · rw [group_snoc_of_ne (by simp [parent])]
        exact top
      · intro other
        by_cases same : other = name
        · subst same
          rw [AList.lookup_insert, group_snoc_self parent, if_neg (by simp), levels]
          by_cases empty : group heap tags (some other) = []
          · rw [if_pos empty, empty]
            rfl
          · rw [if_neg empty]
            rfl
        · rw [AList.lookup_insert_ne same,
            group_snoc_of_ne (by simpa [parent] using Ne.symm same)]
          exact levels other

theorem registered_foldlM (heap : RankHeap Ref) (tags : List Ref) :
    ∃ maps, (tags.map some).foldlM heap.register ⟨∅, [], ∅⟩ = .ok maps ∧
      Registered heap tags maps := by
  induction tags using List.reverseRecOn with
  | nil => exact ⟨_, rfl, rfl, fun _ => rfl⟩
  | append_singleton tags r ih =>
      obtain ⟨maps, done, registered⟩ := ih
      obtain ⟨next, went, still⟩ := registered.snoc r
      refine ⟨next, ?_, still⟩
      rw [List.map_append, List.foldlM_append, done]
      change (heap.register maps (some r) >>= pure) = .ok next
      rw [went]
      rfl

/-- The groups that are sorted. -/
structure Groups (heap : RankHeap Ref) (tags : List Ref) (groups : List (List Ref)) : Prop where
  member : ∀ siblings ∈ groups, ∃ parent ≠ some root, siblings = group heap tags parent
  complete : ∀ parent ≠ some root, group heap tags parent ≠ [] → group heap tags parent ∈ groups
  apart : groups.Pairwise List.Disjoint

private theorem mem_group {r : Ref} {parent : Option Text} :
    r ∈ group heap tags parent ↔ r ∈ tags ∧ (heap r).parent = parent := by
  rw [group, List.mem_filter, decide_eq_true_iff]

theorem Registered.groups {maps : TagLevels Ref} (registered : Registered heap tags maps) :
    Groups heap tags (HashMap.values (AList.insert root maps.top maps.levels)) := by
  obtain ⟨top, levels⟩ := registered
  -- What is found under a name, and whose parent it is.
  have found : ∀ name siblings, (AList.insert root maps.top maps.levels).lookup name =
      some siblings → siblings = group heap tags (if name = root then none else some name) := by
    intro name siblings here
    by_cases reserved : name = root
    · rw [reserved, AList.lookup_insert] at here
      rw [if_pos reserved, ← top, Option.some.inj here]
    · rw [AList.lookup_insert_ne reserved, levels] at here
      rw [if_neg reserved]
      split at here
      · cases here
      · exact (Option.some.inj here).symm
  refine ⟨?_, ?_, ?_⟩
  · intro siblings inside
    obtain ⟨name, here⟩ := HashMap.mem_values_iff.mp inside
    refine ⟨_, ?_, found name siblings here⟩
    split
    · simp
    · simpa
  · intro parent other nonempty
    apply HashMap.mem_values_iff.mpr
    cases parent with
    | none => exact ⟨root, by rw [AList.lookup_insert, top]⟩
    | some name =>
        have apart : name ≠ root := by simpa using other
        exact ⟨name, by rw [AList.lookup_insert_ne apart, levels, if_neg nonempty]⟩
  · rw [HashMap.values, List.pairwise_map]
    refine (List.nodupKeys_iff_pairwise.mp (AList.nodupKeys _)).imp_of_mem ?_
    intro first second left right apart r inside within
    have one := found first.1 first.2 (AList.mem_lookup_iff.mpr left)
    have two := found second.1 second.2 (AList.mem_lookup_iff.mpr right)
    rw [one, mem_group] at inside
    rw [two, mem_group] at within
    have same := inside.2.symm.trans within.2
    grind

/-! ## Numbers -/

private theorem numbers_succ (order : Int64) (count : Nat) :
    numbers order (count + 1) = some (order + 1) :: numbers (order + 1) count := by
  rw [numbers, List.range_succ_eq_map, List.map_cons, List.map_map]
  congr 1
  apply List.map_congr_left
  intro k _
  have next : order + 1 + Int64.ofNat (k + 1) = order + Int64.ofNat (k + 1 + 1) := by
    rw [Int64.ofNat_add (k + 1) 1, Int64.add_comm (Int64.ofNat (k + 1)), ← Int64.add_assoc]
    rfl
  exact congrArg some next.symm

private theorem nodup_numbers {count : Nat} (short : count < 2 ^ 31) : (numbers 0 count).Nodup := by
  apply List.Nodup.map_on _ List.nodup_range
  intro first inside second within same
  have one := List.mem_range.mp inside
  have two := List.mem_range.mp within
  have equal := congrArg Int64.toInt (Option.some.inj same)
  rw [Int64.zero_add, Int64.zero_add, Int64.toInt_ofNat_of_lt (by omega),
    Int64.toInt_ofNat_of_lt (by omega)] at equal
  omega

private theorem ascending_numbers {count : Nat} (short : count < 2 ^ 31) :
    (numbers 0 count).Pairwise fun first second =>
      (first.getD 0).toInt ≤ (second.getD 0).toInt := by
  rw [numbers, List.pairwise_map]
  refine List.Pairwise.imp_of_mem (fun {first second} inside within less => ?_)
    (List.pairwise_lt_range (n := count))
  have one := List.mem_range.mp inside
  have two := List.mem_range.mp within
  rw [Option.getD_some, Option.getD_some, Int64.zero_add, Int64.zero_add,
    Int64.toInt_ofNat_of_lt (by omega), Int64.toInt_ofNat_of_lt (by omega)]
  omega

private theorem nodup_of_numbered {after : RankHeap Ref} (short : siblings.length < 2 ^ 31)
    (numbered : Numbered heap after siblings) : siblings.Nodup := by
  obtain ⟨arranged, perm, ranks, -⟩ := numbered
  exact perm.nodup_iff.mp (List.Nodup.of_map _ (ranks ▸ nodup_numbers short))

private theorem nodup_of_groups (each : ∀ parent, (group heap tags parent).Nodup) : tags.Nodup := by
  classical
  rw [List.nodup_iff_count_le_one]
  intro r
  have once := List.nodup_iff_count_le_one.mp (each (heap r).parent) r
  rw [group, List.count_filter (p := fun other => decide ((heap other).parent = (heap r).parent))
    (decide_eq_true rfl)] at once
  exact once

/-! ## Sorting a group -/

private theorem compareTo_eq {r other : Ref} (ranked : (heap r).rank ≠ none)
    (second : (heap other).rank ≠ none) :
    (heap r).compareTo (heap other) = .ok (order heap r other) := by
  obtain ⟨rank, here⟩ := Option.ne_none_iff_exists'.mp ranked
  obtain ⟨rank', there⟩ := Option.ne_none_iff_exists'.mp second
  rw [TagRank.compareTo, order, here, there]
  rfl

theorem order_eq {r other : Ref} (first : heap r = before r) (second : heap other = before other) :
    order heap r other = order before r other := by
  rw [order, order, first, second]

/-- A group is sorted, as far as sorting it does not fail. -/
def Sorts (sort : SortOf Ref) (before : RankHeap Ref) (siblings : List Ref) : Prop :=
  ∀ heap : RankHeap Ref, (∀ r ∈ siblings, heap r = before r) →
    ∀ sorted, sort (fun tag t2 => (heap tag).compareTo (heap t2)) siblings = .ok sorted →
      ThreeWayOn (order before) siblings ∧ StableSort (order before) siblings sorted

/-- What is documented sorts a group whose comparison keeps its contract. -/
theorem Documented.stable (documented : Documented sort)
    (contract : ThreeWayOn (order before) siblings)
    (ranked : ∀ r ∈ siblings, (before r).rank ≠ none) (same : ∀ r ∈ siblings, heap r = before r) :
    ∃ sorted, sort (fun tag t2 => (heap tag).compareTo (heap t2)) siblings = .ok sorted ∧
      StableSort (order before) siblings sorted := by
  refine documented _ _ _ (fun first inside second within => ?_) contract
  rw [← order_eq (same first inside) (same second within)]
  exact compareTo_eq (by rw [same first inside]; exact ranked first inside)
    (by rw [same second within]; exact ranked second within)

theorem Documented.sorts (documented : Documented sort)
    (contract : ThreeWayOn (order before) siblings)
    (ranked : ∀ r ∈ siblings, (before r).rank ≠ none) : Sorts sort before siblings := by
  intro heap same sorted ran
  obtain ⟨other, done, stable⟩ := documented.stable contract ranked same
  cases ran.symm.trans done
  exact ⟨contract, stable⟩

/-- A group that was sorted is numbered right exactly if its pairs are compared like their ranks. -/
theorem numbered_iff_agrees {after : RankHeap Ref} (short : siblings.length < 2 ^ 31)
    (distinct : siblings.Nodup) (contract : ThreeWayOn (order heap) siblings)
    (stable : StableSort (order heap) siblings sorted)
    (ranks : (sorted.map fun r => (after r).rank) = numbers 0 siblings.length) :
    Numbered heap after siblings ↔ siblings.Pairwise
      (Agrees (order heap) fun first second => submitted heap first ≤ submitted heap second) := by
  rw [← stable.pairwise_iff contract distinct]
  constructor
  · rintro ⟨arranged, perm, same, ascending⟩
    have images : (sorted.map fun r => (after r).rank).Nodup := ranks ▸ nodup_numbers short
    have equal := eq_of_map_eq images (perm.trans stable.perm.symm) (same.trans ranks.symm)
    exact equal ▸ ascending
  · exact fun ascending => ⟨sorted, stable.perm, ranks, ascending⟩

/-- A group that is left alone is numbered right exactly if it was numbered before. -/
theorem numbered_iff_perm {after : RankHeap Ref} (short : siblings.length < 2 ^ 31)
    (same : ∀ r ∈ siblings, after r = heap r) :
    Numbered heap after siblings ↔
      (siblings.map fun r => (heap r).rank).Perm (numbers 0 siblings.length) := by
  constructor
  · rintro ⟨arranged, perm, ranks, -⟩
    rw [List.map_congr_left fun r inside =>
      congrArg TagRank.rank (same r (perm.mem_iff.mp inside))] at ranks
    exact ranks ▸ (perm.symm.map _)
  · intro perm
    have arrange : (fun left right => left.Perm (right.map fun r => (heap r).rank))
        (numbers 0 siblings.length) siblings := perm.symm
    rw [← List.eq_map_comp_perm] at arrange
    obtain ⟨arranged, ranks, perm⟩ := arrange
    refine ⟨arranged, perm, ?_, ?_⟩
    · rw [ranks]
      exact List.map_congr_left fun r inside =>
        congrArg TagRank.rank (same r (perm.mem_iff.mp inside))
    · have ascending := ascending_numbers short
      rw [ranks, List.pairwise_map] at ascending
      exact ascending

/-- The int that a comparison gives. -/
def valueOf (compare : Ref → Ref → Except Exception Int) (tag t2 : Ref) : Int :=
  match compare tag t2 with
  | .ok cmp => cmp
  | .error _ => 0

open Classical in
/-- What sorts where the comparison keeps its contract, and fails elsewhere. -/
noncomputable def strictly : SortOf Ref := fun compare list =>
  if (∀ a ∈ list, ∀ b ∈ list, compare a b = .ok (valueOf compare a b)) ∧
      ThreeWayOn (valueOf compare) list then
    .ok (list.mergeSort fun a b => decide (valueOf compare a b ≤ 0))
  else .error .illegalArgument

private theorem documented_strictly : Documented (@strictly Ref) := by
  intro compare cmp list compared contract
  have value : ∀ a ∈ list, ∀ b ∈ list, valueOf compare a b = cmp a b := by
    intro a inside b within
    rw [valueOf, compared a inside b within]
  have kept : ThreeWayOn (valueOf compare) list := contract.congr value
  have same : ∀ a ∈ list, ∀ b ∈ list, compare a b = .ok (valueOf compare a b) := by
    intro a inside b within
    rw [value a inside b within]
    exact compared a inside b within
  refine ⟨_, if_pos ⟨same, kept⟩, ?_⟩
  exact (stableSort_mergeSort kept).congr fun a inside b within => (value a inside b within).symm

private theorem sorts_strictly (ranked : ∀ r ∈ siblings, (before r).rank ≠ none) :
    Sorts strictly before siblings := by
  intro heap same sorted ran
  have value : ∀ a ∈ siblings, ∀ b ∈ siblings, order before a b =
      valueOf (fun tag t2 => (heap tag).compareTo (heap t2)) a b := by
    intro a inside b within
    rw [valueOf, compareTo_eq (by rw [same a inside]; exact ranked a inside)
      (by rw [same b within]; exact ranked b within)]
    exact (order_eq (same a inside) (same b within)).symm
  rw [strictly] at ran
  split at ran
  case isTrue kept =>
    cases ran
    exact ⟨kept.2.congr value, (stableSort_mergeSort kept.2).congr value⟩
  case isFalse => cases ran

/-! ## Ranks that are close -/

/-! ## Sorting all groups -/

variable [DecidableEq Ref] {groups : List (List Ref)}

/-- The tags of these groups are as they were. -/
def Untouched (before heap : RankHeap Ref) (groups : List (List Ref)) : Prop :=
  ∀ siblings ∈ groups, ∀ r ∈ siblings, heap r = before r

private theorem setRanks_of_not_mem {order : Int64} {r : Ref} (other : r ∉ sorted) :
    heap.setRanks order sorted r = heap r := by
  induction sorted generalizing heap order with
  | nil => rfl
  | cons first rest ih =>
      have apart : r ≠ first := List.ne_of_not_mem_cons other
      rw [RankHeap.setRanks, ih (List.not_mem_of_not_mem_cons other), RankHeap.setRank,
        update_of_ne apart]

private theorem map_setRanks {order : Int64} (distinct : sorted.Nodup) :
    (sorted.map fun r => (heap.setRanks order sorted r).rank) = numbers order sorted.length := by
  induction sorted generalizing heap order with
  | nil => rfl
  | cons first rest ih =>
      obtain ⟨fresh, later⟩ := List.nodup_cons.mp distinct
      rw [List.map_cons, List.length_cons, numbers_succ]
      congr 1
      · rw [RankHeap.setRanks, setRanks_of_not_mem fresh, RankHeap.setRank, update_self]
      · exact ih later

theorem fixLevel_ok {after : RankHeap Ref} (done : heap.fixLevel sort siblings = .ok after) :
    ∃ sorted, sort (fun tag t2 => (heap tag).compareTo (heap t2)) siblings = .ok sorted ∧
      after = heap.setRanks 0 sorted := by
  rw [RankHeap.fixLevel] at done
  split at done
  · cases done
  case h_2 sorted ran => exact ⟨sorted, ran, (Except.ok.inj done).symm⟩

private theorem fixed_of_foldlM (apart : groups.Pairwise List.Disjoint)
    (distinct : ∀ siblings ∈ groups, siblings.Nodup)
    (sorts : ∀ siblings ∈ groups, Sorts sort before siblings)
    (untouched : Untouched before heap groups) {after : RankHeap Ref}
    (done : groups.foldlM (RankHeap.fixLevel sort) heap = .ok after) :
    (∀ siblings ∈ groups, ThreeWayOn (order before) siblings ∧
      ∃ sorted, StableSort (order before) siblings sorted ∧
        (sorted.map fun r => (after r).rank) = numbers 0 siblings.length) ∧
    ∀ r, (∀ siblings ∈ groups, r ∉ siblings) → after r = heap r := by
  induction groups generalizing heap with
  | nil =>
      cases done
      exact ⟨fun siblings inside => absurd inside List.not_mem_nil, fun _ _ => rfl⟩
  | cons first rest ih =>
      obtain ⟨disjoint, apart⟩ := List.pairwise_cons.mp apart
      rw [List.foldlM_cons] at done
      cases level : heap.fixLevel sort first with
      | error error =>
          rw [level] at done
          cases done
      | ok next =>
          rw [level] at done
          obtain ⟨sorted, ran, rfl⟩ := fixLevel_ok level
          obtain ⟨contract, stable⟩ := sorts first List.mem_cons_self heap
            (untouched first List.mem_cons_self) sorted ran
          have kept : ∀ r, r ∉ first → heap.setRanks 0 sorted r = heap r := fun r other =>
            setRanks_of_not_mem fun inside => other (stable.perm.mem_iff.mp inside)
          have still : Untouched before (heap.setRanks 0 sorted) rest := by
            intro siblings inside r member
            rw [kept r fun here => disjoint siblings inside here member]
            exact untouched siblings (List.mem_cons_of_mem _ inside) r member
          obtain ⟨numbered, others⟩ := ih apart
            (fun siblings inside => distinct siblings (List.mem_cons_of_mem _ inside))
            (fun siblings inside => sorts siblings (List.mem_cons_of_mem _ inside)) still done
          refine ⟨?_, ?_⟩
          · intro siblings inside
            rcases List.mem_cons.mp inside with rfl | later
            · refine ⟨contract, sorted, stable, ?_⟩
              have same : ∀ r ∈ sorted, after r = heap.setRanks 0 sorted r := fun r member =>
                others r fun other within here =>
                  disjoint other within (stable.perm.mem_iff.mp member) here
              rw [List.map_congr_left fun r member => congrArg TagRank.rank (same r member),
                map_setRanks (stable.perm.nodup_iff.mpr (distinct siblings inside)),
                stable.perm.length_eq]
            · exact numbered siblings later
          · intro r outside
            rw [others r fun siblings inside => outside siblings (List.mem_cons_of_mem _ inside)]
            exact kept r (outside first List.mem_cons_self)

/-- The tags differ in their ranks at most. -/
def SameButRanks (before after : RankHeap Ref) : Prop :=
  ∀ r, ∃ rank, after r = { before r with rank := rank }

private theorem sameButRanks_setRanks {order : Int64} (same : SameButRanks before heap) :
    SameButRanks before (heap.setRanks order sorted) := by
  induction sorted generalizing heap order with
  | nil => exact same
  | cons first rest ih =>
      refine ih fun r => ?_
      obtain ⟨rank, here⟩ := same r
      by_cases own : r = first
      · subst own
        exact ⟨some (order + 1), by rw [RankHeap.setRank, update_self, here]⟩
      · exact ⟨rank, by rw [RankHeap.setRank, update_of_ne own, here]⟩

private theorem sameButRanks_foldlM {after : RankHeap Ref} (same : SameButRanks before heap)
    (done : groups.foldlM (RankHeap.fixLevel sort) heap = .ok after) :
    SameButRanks before after := by
  induction groups generalizing heap with
  | nil =>
      cases done
      exact same
  | cons first rest ih =>
      rw [List.foldlM_cons] at done
      cases level : heap.fixLevel sort first with
      | error error =>
          rw [level] at done
          cases done
      | ok next =>
          rw [level] at done
          obtain ⟨sorted, -, rfl⟩ := fixLevel_ok level
          exact ih (sameButRanks_setRanks same) done

/-- Whatever sorts, only ranks are changed. -/
theorem sameButRanks_fixup {ranks : Option (List (Option Ref))} {after : RankHeap Ref}
    {dict : HashMap (Option Text) Ref} (done : heap.fixupTagList sort ranks = .ok (after, dict)) :
    SameButRanks heap after := by
  have refl : SameButRanks heap heap := fun r => ⟨(heap r).rank, rfl⟩
  cases ranks with
  | none =>
      cases done
      exact refl
  | some ranks =>
      rw [RankHeap.fixupTagList] at done
      cases loaded : ranks.foldlM heap.register ⟨∅, [], ∅⟩ with
      | error error =>
          rw [loaded] at done
          cases done
      | ok maps =>
          rw [loaded] at done
          change (_ >>= fun heap => Except.ok (heap, maps.dict)) = _ at done
          cases ran : (HashMap.values (AList.insert root maps.top maps.levels)).foldlM
              (RankHeap.fixLevel sort) heap with
          | error error =>
              rw [ran] at done
              cases done
          | ok last =>
              rw [ran] at done
              cases done
              exact sameButRanks_foldlM refl ran

/-- Where the comparison keeps its contract in every group, nothing fails. -/
theorem Documented.foldlM_ok (documented : Documented sort)
    (apart : groups.Pairwise List.Disjoint)
    (contract : ∀ siblings ∈ groups, ThreeWayOn (order before) siblings)
    (ranked : ∀ siblings ∈ groups, ∀ r ∈ siblings, (before r).rank ≠ none)
    (untouched : Untouched before heap groups) :
    ∃ after, groups.foldlM (RankHeap.fixLevel sort) heap = .ok after := by
  induction groups generalizing heap with
  | nil => exact ⟨heap, rfl⟩
  | cons first rest ih =>
      obtain ⟨disjoint, apart⟩ := List.pairwise_cons.mp apart
      obtain ⟨sorted, ran, stable⟩ := documented.stable (contract first List.mem_cons_self)
        (ranked first List.mem_cons_self) (untouched first List.mem_cons_self)
      have level : heap.fixLevel sort first = .ok (heap.setRanks 0 sorted) := by
        rw [RankHeap.fixLevel, ran]
      have still : Untouched before (heap.setRanks 0 sorted) rest := by
        intro siblings inside r member
        rw [setRanks_of_not_mem fun here =>
          disjoint siblings inside (stable.perm.mem_iff.mp here) member]
        exact untouched siblings (List.mem_cons_of_mem _ inside) r member
      obtain ⟨after, done⟩ := ih apart
        (fun siblings inside => contract siblings (List.mem_cons_of_mem _ inside))
        (fun siblings inside => ranked siblings (List.mem_cons_of_mem _ inside)) still
      refine ⟨after, ?_⟩
      rw [List.foldlM_cons, level]
      exact done

/-! ## Right groups -/

/-- What became of the groups. -/
structure Outcome (heap after : RankHeap Ref) (tags : List Ref) : Prop where
  contract : ∀ parent ≠ some root, ThreeWayOn (order heap) (group heap tags parent)
  sorted : ∀ parent ≠ some root, ∃ sorted,
    StableSort (order heap) (group heap tags parent) sorted ∧
      (sorted.map fun r => (after r).rank) = numbers 0 (group heap tags parent).length
  reserved : ∀ r ∈ group heap tags (some root), after r = heap r

private theorem outcome_of_fixup {after : RankHeap Ref} {dict : HashMap (Option Text) Ref}
    (distinct : tags.Nodup)
    (sorts : ∀ parent ≠ some root, Sorts sort heap (group heap tags parent))
    (done : heap.fixupTagList sort (some (tags.map some)) = .ok (after, dict)) :
    Outcome heap after tags := by
  obtain ⟨maps, loaded, registered⟩ := registered_foldlM heap tags
  have groups := registered.groups
  rw [RankHeap.fixupTagList, loaded] at done
  change (_ >>= fun heap => Except.ok (heap, maps.dict)) = _ at done
  cases ran : (HashMap.values (AList.insert root maps.top maps.levels)).foldlM
      (RankHeap.fixLevel sort) heap with
  | error error =>
      rw [ran] at done
      cases done
  | ok last =>
      rw [ran] at done
      cases done
      obtain ⟨numbered, others⟩ := fixed_of_foldlM groups.apart
        (by
          intro siblings inside
          obtain ⟨parent, -, rfl⟩ := groups.member siblings inside
          exact distinct.filter _)
        (by
          intro siblings inside
          obtain ⟨parent, other, rfl⟩ := groups.member siblings inside
          exact sorts parent other) (fun _ _ _ _ => rfl) ran
      refine ⟨?_, ?_, ?_⟩
      · intro parent other
        by_cases empty : group heap tags parent = []
        · rw [empty]
          exact threeWayOn_nil _
        · exact (numbered _ (groups.complete parent other empty)).1
      · intro parent other
        by_cases empty : group heap tags parent = []
        · rw [empty]
          exact ⟨_, stableSort_mergeSort (threeWayOn_nil _), by rw [List.mergeSort_nil]; rfl⟩
        · exact (numbered _ (groups.complete parent other empty)).2
      · intro r inside
        refine others r fun siblings within here => ?_
        obtain ⟨parent, other, rfl⟩ := groups.member siblings within
        exact other ((mem_group.mp here).2.symm.trans (mem_group.mp inside).2)

private theorem fixup_ok (documented : Documented sort) (ranked : ∀ r ∈ tags, (heap r).rank ≠ none)
    (contract : ∀ parent ≠ some root, ThreeWayOn (order heap) (group heap tags parent)) :
    ∃ after dict, heap.fixupTagList sort (some (tags.map some)) = .ok (after, dict) := by
  obtain ⟨maps, loaded, registered⟩ := registered_foldlM heap tags
  have groups := registered.groups
  have unchanged : Untouched heap heap
      (HashMap.values (AList.insert root maps.top maps.levels)) := fun _ _ _ _ => rfl
  obtain ⟨after, done⟩ := documented.foldlM_ok groups.apart
    (by
      intro siblings inside
      obtain ⟨parent, other, rfl⟩ := groups.member siblings inside
      exact contract parent other)
    (by
      intro siblings inside r member
      obtain ⟨parent, -, rfl⟩ := groups.member siblings inside
      exact ranked r (mem_group.mp member).1) unchanged
  refine ⟨after, maps.dict, ?_⟩
  rw [RankHeap.fixupTagList, loaded]
  change (_ >>= fun heap => Except.ok (heap, maps.dict)) = _
  rw [done]
  rfl

omit [DecidableEq Ref] in
private theorem Outcome.right_iff {after : RankHeap Ref} (outcome : Outcome heap after tags)
    (short : tags.length < 2 ^ 31) (distinct : tags.Nodup) :
    (∀ parent, Numbered heap after (group heap tags parent)) ↔
      (∀ parent ≠ some root, (group heap tags parent).Pairwise (Agrees (order heap)
        fun first second => submitted heap first ≤ submitted heap second)) ∧
      ((group heap tags (some root)).map fun r => (heap r).rank).Perm
        (numbers 0 (group heap tags (some root)).length) := by
  have less : ∀ parent, (group heap tags parent).length < 2 ^ 31 := fun parent =>
    Nat.lt_of_le_of_lt (List.length_filter_le _ _) short
  have reserved := numbered_iff_perm (less (some root)) outcome.reserved
  have other : ∀ parent ≠ some root, Numbered heap after (group heap tags parent) ↔
      (group heap tags parent).Pairwise (Agrees (order heap)
        fun first second => submitted heap first ≤ submitted heap second) := by
    intro parent other
    obtain ⟨sorted, stable, ranks⟩ := outcome.sorted parent other
    exact numbered_iff_agrees (less parent) (distinct.filter _) (outcome.contract parent other)
      stable ranks
  constructor
  · intro numbered
    exact ⟨fun parent here => (other parent here).mp (numbered parent),
      reserved.mp (numbered (some root))⟩
  · rintro ⟨agrees, perm⟩ parent
    by_cases here : parent = some root
    · exact here ▸ reserved.mpr perm
    · exact (other parent here).mpr (agrees parent here)

theorem Careful.right (careful : Careful heap tags) (short : tags.length < 2 ^ 31)
    (ranked : ∀ r ∈ tags, (heap r).rank ≠ none) (documented : Documented sort) :
    Right sort heap tags := by
  obtain ⟨after, dict, done⟩ := fixup_ok documented ranked careful.contract
  have outcome := outcome_of_fixup careful.distinct
    (fun parent other => documented.sorts (careful.contract parent other)
      fun r member => ranked r (mem_group.mp member).1) done
  exact ⟨after, dict, done,
    (outcome.right_iff short careful.distinct).mpr ⟨careful.agrees, careful.reserved⟩⟩

theorem Right.distinct (right : Right sort heap tags) (short : tags.length < 2 ^ 31) :
    tags.Nodup := by
  obtain ⟨after, dict, -, numbered⟩ := right
  exact nodup_of_groups fun parent => nodup_of_numbered
    (Nat.lt_of_le_of_lt (List.length_filter_le _ _) short) (numbered parent)

/-- Where the groups are right, and sorting fails for every comparison without its contract. -/
theorem Right.careful (right : Right sort heap tags) (short : tags.length < 2 ^ 31)
    (sorts : ∀ parent ≠ some root, Sorts sort heap (group heap tags parent)) :
    Careful heap tags := by
  have distinct := right.distinct short
  obtain ⟨after, dict, done, numbered⟩ := right
  have outcome := outcome_of_fixup distinct sorts done
  obtain ⟨agrees, reserved⟩ := (outcome.right_iff short distinct).mp numbered
  exact ⟨distinct, outcome.contract, agrees, reserved⟩

def plainTag (rank : Int64) : TagRank where
  tagName := none
  parent := none
  rank := some rank
  pubTag := false
  favorite := false
  article := false
  imgOid := none
  routeLink := none

/-- For tags with ranks, and whatever sorts as documented, `fixupTagList` does not fail and numbers
every group in the order of its ranks exactly if no tag is there twice, the comparison keeps its
contract and agrees with the ranks in every group, and no tag has the reserved parent but those
that are numbered already. -/
theorem fixesUp_iff_careful {heap : RankHeap Ref} {tags : List Ref} (short : tags.length < 2 ^ 31)
    (ranked : ∀ r ∈ tags, (heap r).rank ≠ none) :
    (∀ sort, Documented sort → Right sort heap tags) ↔ Careful heap tags := by
  constructor
  · intro right
    exact (right strictly documented_strictly).careful short fun parent _ =>
      sorts_strictly fun r member => ranked r (mem_group.mp member).1
  · exact fun careful sort documented => careful.right short ranked documented

theorem fixesUp_iff_careful_near : [true, false].length < 2 ^ 31 ∧
    (∀ r ∈ [true, false], (plainTag (if r then 2 else 1)).rank ≠ none) ∧
      ((∀ sort, Documented sort → Right sort (fun r => plainTag (if r then 2 else 1))
        [true, false]) ↔ Careful (fun r => plainTag (if r then 2 else 1)) [true, false]) :=
  ⟨by decide, by decide, fixesUp_iff_careful (by decide) (by decide)⟩

/-! ## Ranks that are far apart -/

/-- The first tag has the greater rank, and a difference that is negative as an int. -/
def farApart (first : Bool) : TagRank := plainTag (if first then 3000000000 else 0)

private theorem farApart_contract (parent : Option Text) :
    ThreeWayOn (order farApart) (group farApart [true, false] parent) where
  turned := by
    have all : ∀ a b, order farApart a b ≤ 0 ↔ 0 ≤ order farApart b a := by decide
    exact fun a b => all a b
  trans := by
    have all : ∀ a b c, order farApart a b ≤ 0 → order farApart b c ≤ 0 →
        order farApart a c ≤ 0 := by decide
    exact fun {a b c} => all a b c

/-- Whatever sorts as documented numbers the greater rank first. -/
theorem farApart_not_right : (∀ r ∈ [true, false], (farApart r).rank ≠ none) ∧
    ∀ sort, Documented sort → ¬ Right sort farApart [true, false] := by
  have ranked : ∀ r, (farApart r).rank ≠ none := by decide
  refine ⟨fun r _ => ranked r, fun sort documented right => ?_⟩
  have careful := right.careful (by decide) fun parent _ =>
    documented.sorts (farApart_contract parent) fun r _ => ranked r
  exact absurd (careful.agrees none (by simp)) (by decide)

end Tvntd.TagForm
