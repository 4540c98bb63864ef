import Tvntd.Java.ArtTagService
import Tvntd.Java.RawByte
import Tvntd.Lib.Forest
import Tvntd.Lib.HashMap

/-! # The tags under a tag

`makeSubTags` links tags to the tags that their parents name. Three passes share
one map from names to tags: all tags are put in it, each tag is looked up as a
parent, and a tag whose parent is still in the map is taken out, so that those
left in it are the roots.
-/

namespace Tvntd.SubTags

open Function

open Forest (Place IsForest Linked Reaches)

/-- The objects of `ArtTagDTO`; no list of tags is the empty list. -/
structure TagHeap (Ref : Type) where
  artTag : Ref → ArtTag
  subTags : Ref → List Ref

variable {Ref : Type} (sha1 : Sha1) (malformed : Octets → Nat)

namespace TagHeap

def getTagName (heap : TagHeap Ref) (tag : Ref) : Text :=
  fromRawByte malformed (some (heap.artTag tag).tagName)

def getParentTag (heap : TagHeap Ref) (tag : Ref) : Text :=
  fromRawByte malformed (heap.artTag tag).parentTag

end TagHeap

/-- The tags have the same names and parents in both. -/
structure SameNames (first second : TagHeap Ref) : Prop where
  name : first.getTagName malformed = second.getTagName malformed
  parent : first.getParentTag malformed = second.getParentTag malformed

theorem SameNames.trans {malformed : Octets → Nat} {first second third : TagHeap Ref}
    (left : SameNames malformed first second) (right : SameNames malformed second third) :
    SameNames malformed first third :=
  ⟨left.name.trans right.name, left.parent.trans right.parent⟩

variable [DecidableEq Ref]

namespace TagHeap

def change (heap : TagHeap Ref) (tag : Ref) (set : ArtTag → ArtTag) : TagHeap Ref :=
  { heap with artTag := update heap.artTag tag (set (heap.artTag tag)) }

def setParentTag (heap : TagHeap Ref) (tag : Ref) (parent : Option Text) : TagHeap Ref :=
  heap.change tag fun artTag => { artTag with parentTag := toRawByte parent 128 }

/-- The key of a tag changes with its user. -/
def setUserUuid (heap : TagHeap Ref) (tag : Ref) (userUuid : UserUuid) : TagHeap Ref :=
  heap.change tag fun artTag =>
    { artTag with userUuid := userUuid, tagOid := toSha1Key sha1 artTag.tagName userUuid }

def addSubTag (heap : TagHeap Ref) (tag sub : Ref) : TagHeap Ref :=
  { heap with subTags := update heap.subTags tag (heap.subTags tag ++ [sub]) }

end TagHeap

/-- The first loop. The name of a parent is never null. -/
def registerTag (userUuid : Option UserUuid) (state : TagHeap Ref × HashMap Text Ref) (tag : Ref) :
    TagHeap Ref × HashMap Text Ref :=
  let (heap, map) := state
  let map := AList.insert (heap.getTagName malformed tag) tag map
  let heap := if (heap.getParentTag malformed tag).isEmpty then heap.setParentTag tag none else heap
  let heap := match userUuid with
    | some userUuid => heap.setUserUuid sha1 tag userUuid
    | none => heap
  (heap, map)

/-- The second loop. -/
def linkTag (map : HashMap Text Ref) (heap : TagHeap Ref) (tag : Ref) : TagHeap Ref :=
  match map.lookup (heap.getParentTag malformed tag) with
  | some parent => heap.addSubTag parent tag
  | none => heap

/-- The third loop. -/
def dropTag (heap : TagHeap Ref) (map : HashMap Text Ref) (tag : Ref) : HashMap Text Ref :=
  if (map.lookup (heap.getParentTag malformed tag)).isSome then
    AList.erase (heap.getTagName malformed tag) map
  else map

/-- The tags that are returned, with the links. -/
def makeSubTags (heap : TagHeap Ref) (children : List Ref) (userUuid : Option UserUuid) :
    TagHeap Ref × List Ref :=
  let (heap, map) := children.foldl (registerTag sha1 malformed userUuid) (heap, ∅)
  let heap := children.foldl (linkTag malformed map) heap
  let map := children.foldl (dropTag malformed heap) map
  (heap, map.values)

/-! ## Where a tag belongs -/

/-- Under the tag of the list that its parent names, and to the roots without one. -/
def place (heap : TagHeap Ref) (children : List Ref) (tag : Ref) : Place Ref :=
  if tag ∈ children then
    if heap.getParentTag malformed tag = [] then .root
    else
      match children.find? fun other =>
        decide (heap.getTagName malformed other = heap.getParentTag malformed tag) with
      | some parent => .under parent
      | none => .root
  else .nowhere

/-- What comes back is the forest of the tags. -/
def Right (heap : TagHeap Ref) (children : List Ref) (userUuid : Option UserUuid) : Prop :=
  let result := makeSubTags sha1 malformed heap children userUuid
  IsForest (place malformed heap children) children result.2 result.1.subTags

/-- No tag without a parent meets a tag without a name. -/
def NoEmptyName (heap : TagHeap Ref) (children : List Ref) : Prop :=
  ∀ tag ∈ children, heap.getParentTag malformed tag = [] →
    ∀ other ∈ children, heap.getTagName malformed other ≠ []

/-- A tag that comes behind its parent has a parent that is a root of the list. -/
def ParentsFirst (heap : TagHeap Ref) (children : List Ref) : Prop :=
  children.Pairwise fun parent tag =>
    heap.getParentTag malformed tag = heap.getTagName malformed parent →
      ∀ other ∈ children, heap.getTagName malformed other ≠ heap.getParentTag malformed parent

/-! ## The first loop -/

variable {sha1 malformed}

private theorem sameNames_change {heap : TagHeap Ref} {tag : Ref} {set : ArtTag → ArtTag}
    (name : (set (heap.artTag tag)).tagName = (heap.artTag tag).tagName)
    (parent : fromRawByte malformed (set (heap.artTag tag)).parentTag =
      fromRawByte malformed (heap.artTag tag).parentTag) :
    SameNames malformed (heap.change tag set) heap := by
  constructor
  · funext other
    by_cases own : other = tag
    · rw [own]
      simp only [TagHeap.getTagName, TagHeap.change, update_self, name]
    · simp only [TagHeap.getTagName, TagHeap.change, update_of_ne own]
  · funext other
    by_cases own : other = tag
    · rw [own]
      simp only [TagHeap.getParentTag, TagHeap.change, update_self, parent]
    · simp only [TagHeap.getParentTag, TagHeap.change, update_of_ne own]

/-- An empty name of a parent is as good as none. -/
theorem registerTag_eq (sha1 : Sha1) (userUuid : Option UserUuid) (heap : TagHeap Ref)
    (map : HashMap Text Ref) (tag : Ref) : ∃ after : TagHeap Ref,
      registerTag sha1 malformed userUuid (heap, map) tag =
        (after, AList.insert (heap.getTagName malformed tag) tag map) ∧
      SameNames malformed after heap ∧ after.subTags = heap.subTags := by
  have cleared : ∃ middle : TagHeap Ref,
      (if (heap.getParentTag malformed tag).isEmpty then heap.setParentTag tag none else heap) =
        middle ∧ SameNames malformed middle heap ∧ middle.subTags = heap.subTags := by
    refine ⟨_, rfl, ?_⟩
    split
    · rename_i empty
      exact ⟨sameNames_change rfl (List.isEmpty_iff.mp empty).symm, rfl⟩
    · exact ⟨⟨rfl, rfl⟩, rfl⟩
  obtain ⟨middle, eq, same, links⟩ := cleared
  cases userUuid with
  | none => exact ⟨middle, by rw [registerTag, eq], same, links⟩
  | some userUuid =>
      exact ⟨middle.setUserUuid sha1 tag userUuid, by rw [registerTag, eq],
        (sameNames_change rfl rfl).trans same, links⟩

private theorem registerTags_eq (sha1 : Sha1) (malformed : Octets → Nat)
    (userUuid : Option UserUuid) (children : List Ref) (heap : TagHeap Ref)
    (map : HashMap Text Ref) : ∃ after : TagHeap Ref,
      children.foldl (registerTag sha1 malformed userUuid) (heap, map) =
        (after, HashMap.puts (heap.getTagName malformed) map children) ∧
      SameNames malformed after heap ∧ after.subTags = heap.subTags := by
  induction children generalizing heap map with
  | nil => exact ⟨heap, rfl, ⟨rfl, rfl⟩, rfl⟩
  | cons tag rest ih =>
      obtain ⟨middle, one, same, links⟩ := registerTag_eq sha1 userUuid heap map tag
      obtain ⟨after, later, others, kept⟩ :=
        ih middle (AList.insert (heap.getTagName malformed tag) tag map)
      refine ⟨after, ?_, others.trans same, kept.trans links⟩
      rw [List.foldl_cons, one, later, same.name]
      rfl

/-! ## The second loop -/

/-- The tags that are linked below a tag, in the order of the list. -/
theorem linkTags_eq (malformed : Octets → Nat) (map : HashMap Text Ref) (children : List Ref)
    (heap : TagHeap Ref) :
    SameNames malformed (children.foldl (linkTag malformed map) heap) heap ∧
      (children.foldl (linkTag malformed map) heap).subTags = children.foldl
        (fun below tag => Forest.attach below (map.lookup (heap.getParentTag malformed tag)) tag)
        heap.subTags := by
  induction children generalizing heap with
  | nil => exact ⟨⟨rfl, rfl⟩, rfl⟩
  | cons tag rest ih =>
      have one : SameNames malformed (linkTag malformed map heap tag) heap ∧
          (linkTag malformed map heap tag).subTags =
            Forest.attach heap.subTags (map.lookup (heap.getParentTag malformed tag)) tag := by
        unfold linkTag
        cases map.lookup (heap.getParentTag malformed tag) with
        | none => exact ⟨⟨rfl, rfl⟩, rfl⟩
        | some own => exact ⟨⟨rfl, rfl⟩, rfl⟩
      obtain ⟨same, links⟩ := ih (linkTag malformed map heap tag)
      refine ⟨same.trans one.1, ?_⟩
      rw [List.foldl_cons, List.foldl_cons, links, one.2, one.1.parent]

/-! ## The third loop -/

section Third

omit [DecidableEq Ref]

theorem dropTag_congr {first second : TagHeap Ref} (same : SameNames malformed first second) :
    dropTag malformed first = dropTag malformed second := by
  funext map tag
  rw [dropTag, dropTag, same.name, same.parent]

variable {heap : TagHeap Ref} {children : List Ref} {map : HashMap Text Ref}

private theorem lookup_dropTag_of_ne {tag : Ref} {name : Text}
    (other : heap.getTagName malformed tag ≠ name) :
    (dropTag malformed heap map tag).lookup name = map.lookup name := by
  unfold dropTag
  split
  · exact AList.lookup_erase_ne (Ne.symm other)
  · rfl

private theorem lookup_dropTag_self (tag : Ref) :
    (dropTag malformed heap map tag).lookup (heap.getTagName malformed tag) =
      if (map.lookup (heap.getParentTag malformed tag)).isSome then none
      else map.lookup (heap.getTagName malformed tag) := by
  unfold dropTag
  split
  · exact AList.lookup_erase _ _
  · rfl

private theorem lookup_dropTags_of_not_mem {name : Text} (list : List Ref)
    (others : ∀ tag ∈ list, heap.getTagName malformed tag ≠ name) (map : HashMap Text Ref) :
    (list.foldl (dropTag malformed heap) map).lookup name = map.lookup name := by
  induction list generalizing map with
  | nil => rfl
  | cons tag rest ih =>
      rw [List.foldl_cons, ih (fun later inside => others later (List.mem_cons_of_mem _ inside)),
        lookup_dropTag_of_ne (others tag List.mem_cons_self)]

/-- Nothing comes into the map. -/
theorem lookup_of_dropTags {name : Text} {found : Ref} (list : List Ref) (map : HashMap Text Ref)
    (left : (list.foldl (dropTag malformed heap) map).lookup name = some found) :
    map.lookup name = some found := by
  induction list generalizing map with
  | nil => exact left
  | cons tag rest ih =>
      have here := ih _ left
      unfold dropTag at here
      split at here
      · by_cases own : name = heap.getTagName malformed tag
        · rw [own, AList.lookup_erase] at here
          cases here
        · rwa [AList.lookup_erase_ne own] at here
      · exact here

/-- A tag is taken out when its turn comes, if its parent is still there. -/
theorem lookup_dropTags {before after : List Ref} {tag : Ref}
    (distinct : ((before ++ tag :: after).map (heap.getTagName malformed)).Nodup)
    (map : HashMap Text Ref) :
    ((before ++ tag :: after).foldl (dropTag malformed heap) map).lookup
        (heap.getTagName malformed tag) =
      if ((before.foldl (dropTag malformed heap) map).lookup
          (heap.getParentTag malformed tag)).isSome then none
      else map.lookup (heap.getTagName malformed tag) := by
  rw [List.map_append, List.map_cons, List.nodup_append] at distinct
  obtain ⟨-, behind, apart⟩ := distinct
  have later : ∀ other ∈ after,
      heap.getTagName malformed other ≠ heap.getTagName malformed tag := by
    intro other inside same
    exact (List.nodup_cons.mp behind).1 (same ▸ List.mem_map_of_mem inside)
  have earlier : ∀ other ∈ before,
      heap.getTagName malformed other ≠ heap.getTagName malformed tag :=
    fun other inside => apart _ (List.mem_map_of_mem inside) _ List.mem_cons_self
  rw [List.foldl_append, List.foldl_cons, lookup_dropTags_of_not_mem after later,
    lookup_dropTag_self, lookup_dropTags_of_not_mem before earlier map]

/-- The map behind the first loop. -/
def named (malformed : Octets → Nat) (heap : TagHeap Ref) (children : List Ref) :
    HashMap Text Ref :=
  HashMap.puts (heap.getTagName malformed) ∅ children

/-- The roots that are returned. -/
def left (malformed : Octets → Nat) (heap : TagHeap Ref) (children list : List Ref) :
    HashMap Text Ref :=
  list.foldl (dropTag malformed heap) (named malformed heap children)

section Distinct

variable (distinct : (children.map (heap.getTagName malformed)).Nodup)
include distinct

private theorem lookup_named_iff {name : Text} {tag : Ref} :
    (named malformed heap children).lookup name = some tag ↔
      tag ∈ children ∧ heap.getTagName malformed tag = name :=
  HashMap.lookup_puts_iff distinct

private theorem lookup_left_eq_none {name : Text}
    (alone : ∀ other ∈ children, heap.getTagName malformed other ≠ name) (list : List Ref) :
    (left malformed heap children list).lookup name = none := by
  rw [Option.eq_none_iff_forall_ne_some]
  intro found here
  have listed := (lookup_named_iff distinct).mp (lookup_of_dropTags _ _ here)
  exact alone found listed.1 listed.2

/-- The map in which the parent of a tag is looked up, when its turn comes. -/
theorem lookup_left {before after : List Ref} {tag : Ref}
    (split : children = before ++ tag :: after) :
    (left malformed heap children children).lookup (heap.getTagName malformed tag) =
      if ((left malformed heap children before).lookup
          (heap.getParentTag malformed tag)).isSome then none else some tag := by
  have own : (named malformed heap children).lookup (heap.getTagName malformed tag) = some tag :=
    (lookup_named_iff distinct).mpr ⟨by simp [split], rfl⟩
  unfold left
  conv_lhs => rw [split, lookup_dropTags (split ▸ distinct), ← split]
  rw [own]

/-- A tag whose turn has come is in the map exactly if it stays there. -/
theorem lookup_left_before {before rest : List Ref} (split : children = before ++ rest)
    {tag : Ref} (inside : tag ∈ before) :
    (left malformed heap children before).lookup (heap.getTagName malformed tag) =
      (left malformed heap children children).lookup (heap.getTagName malformed tag) := by
  have later : ∀ other ∈ rest, heap.getTagName malformed other ≠ heap.getTagName malformed tag := by
    rw [split, List.map_append, List.nodup_append] at distinct
    intro other behind same
    exact distinct.2.2 _ (List.mem_map_of_mem inside) _ (List.mem_map_of_mem behind) same.symm
  unfold left
  conv_rhs => rw [split, List.foldl_append, ← split]
  exact (lookup_dropTags_of_not_mem rest later _).symm

theorem mem_values_left_iff {tag : Ref} : tag ∈ (left malformed heap children children).values ↔
    (left malformed heap children children).lookup (heap.getTagName malformed tag) = some tag := by
  rw [HashMap.mem_values_iff]
  constructor
  · rintro ⟨name, found⟩
    rwa [((lookup_named_iff distinct).mp (lookup_of_dropTags _ _ found)).2]
  · exact fun found => ⟨_, found⟩

private theorem nodup_values_left : (left malformed heap children children).values.Nodup :=
  HashMap.nodup_values fun _ _ found =>
    ((lookup_named_iff distinct).mp (lookup_of_dropTags _ _ found)).2

end Distinct

end Third

/-! ## The result -/

variable {heap : TagHeap Ref} {children : List Ref}

private theorem makeSubTags_eq (userUuid : Option UserUuid) :
    (makeSubTags sha1 malformed heap children userUuid).2 =
        (left malformed heap children children).values ∧
      ∀ parent, (makeSubTags sha1 malformed heap children userUuid).1.subTags parent =
        heap.subTags parent ++ children.filter fun tag =>
          decide ((named malformed heap children).lookup (heap.getParentTag malformed tag) =
            some parent) := by
  obtain ⟨middle, registered, same, links⟩ :=
    registerTags_eq sha1 malformed userUuid children heap ∅
  obtain ⟨names, linked⟩ := linkTags_eq malformed
    (HashMap.puts (heap.getTagName malformed) ∅ children) children middle
  constructor
  · rw [makeSubTags, registered]
    simp only [dropTag_congr (names.trans same)]
    rfl
  · intro parent
    rw [makeSubTags, registered]
    simp only [linked, links, Forest.foldl_attach]
    rw [same.parent]
    rfl

section Places

variable (distinct : (children.map (heap.getTagName malformed)).Nodup)
include distinct

theorem place_eq_under_iff {tag parent : Ref} :
    place malformed heap children tag = .under parent ↔
      tag ∈ children ∧ heap.getParentTag malformed tag ≠ [] ∧ parent ∈ children ∧
        heap.getTagName malformed parent = heap.getParentTag malformed tag := by
  rw [← HashMap.find?_iff distinct]
  unfold place
  by_cases inside : tag ∈ children
  · rw [if_pos inside]
    by_cases empty : heap.getParentTag malformed tag = []
    · simp [empty]
    · rw [if_neg empty]
      cases found : children.find? fun other =>
          decide (heap.getTagName malformed other = heap.getParentTag malformed tag) with
      | none => simp [inside, empty]
      | some other => simp [inside, empty]
  · simp [inside]

theorem place_eq_root_iff {tag : Ref} : place malformed heap children tag = .root ↔
    tag ∈ children ∧ (heap.getParentTag malformed tag = [] ∨
      ∀ other ∈ children, heap.getTagName malformed other ≠ heap.getParentTag malformed tag) := by
  unfold place
  by_cases inside : tag ∈ children
  · rw [if_pos inside]
    by_cases empty : heap.getParentTag malformed tag = []
    · simp [inside, empty]
    · rw [if_neg empty]
      cases found : children.find? fun other =>
          decide (heap.getTagName malformed other = heap.getParentTag malformed tag) with
      | none => simpa [inside, empty] using found
      | some other =>
          have here := (HashMap.find?_iff distinct).mp found
          simpa [inside, empty] using ⟨other, here.1, here.2⟩
  · simp [inside]

variable {userUuid : Option UserUuid}

/-- A tag whose name is empty gets the tags without a parent. -/
theorem Right.noEmptyName (right : Right sha1 malformed heap children userUuid) :
    NoEmptyName malformed heap children := by
  intro tag inside top other member empty
  have found : (named malformed heap children).lookup (heap.getParentTag malformed tag) =
      some other := (lookup_named_iff distinct).mpr ⟨member, empty.trans top.symm⟩
  have linked : tag ∈ (makeSubTags sha1 malformed heap children userUuid).1.subTags other := by
    rw [(makeSubTags_eq userUuid).2, List.mem_append, List.mem_filter]
    exact Or.inr ⟨inside, decide_eq_true found⟩
  have below := (place_eq_under_iff distinct).mp (right.under other member tag linked)
  exact below.2.1 top

/-- A tag whose parent has been taken out stays among the roots. -/
theorem Right.parentsFirst (right : Right sha1 malformed heap children userUuid) :
    ParentsFirst malformed heap children := by
  have noEmptyName := right.noEmptyName distinct
  have top : ∀ tag, (left malformed heap children children).lookup
      (heap.getTagName malformed tag) = some tag → place malformed heap children tag = .root := by
    intro tag found
    apply right.root
    rw [(makeSubTags_eq userUuid).1]
    exact (mem_values_left_iff distinct).mpr found
  rw [ParentsFirst, List.pairwise_iff_forall_sublist]
  intro parent tag behind link other member named
  obtain ⟨front, rest, split, early, later⟩ := List.cons_sublist_iff.mp behind
  obtain ⟨middle, after, rfl⟩ := List.append_of_mem (List.singleton_sublist.mp later)
  rw [← List.append_assoc] at split
  have parentInside : parent ∈ children := by simp [split, early]
  have tagInside : tag ∈ children := by simp [split]
  -- The parent has been taken out before the turn of the tag.
  have parentGone : (left malformed heap children children).lookup
      (heap.getTagName malformed parent) = none := by
    rw [Option.eq_none_iff_forall_ne_some]
    intro found here
    obtain ⟨inside, same⟩ := (lookup_named_iff distinct).mp (lookup_of_dropTags _ _ here)
    cases List.inj_on_of_nodup_map distinct inside parentInside same
    rcases ((place_eq_root_iff distinct).mp (top parent here)).2 with empty | alone
    · exact noEmptyName parent inside empty other member (named.trans empty)
    · exact alone other member named
  have absent : (left malformed heap children (front ++ middle)).lookup
      (heap.getParentTag malformed tag) = none := by
    rw [link, lookup_left_before distinct split (List.mem_append_left middle early), parentGone]
  have found := lookup_left distinct split
  rw [absent] at found
  rcases ((place_eq_root_iff distinct).mp (top tag found)).2 with empty | alone
  · exact noEmptyName tag tagInside empty parent parentInside (link.symm.trans empty)
  · exact alone parent parentInside link.symm

/-- The roots, where no name is empty and parents come first. -/
theorem lookup_left_iff (noEmptyName : NoEmptyName malformed heap children)
    (parentsFirst : ParentsFirst malformed heap children) (tag : Ref) :
    (left malformed heap children children).lookup (heap.getTagName malformed tag) = some tag ↔
      place malformed heap children tag = .root := by
  have inside_of_found : ∀ {found : Ref}, (left malformed heap children children).lookup
      (heap.getTagName malformed found) = some found → found ∈ children :=
    fun found => ((lookup_named_iff distinct).mp (lookup_of_dropTags _ _ found)).1
  rw [place_eq_root_iff distinct]
  by_cases inside : tag ∈ children
  · obtain ⟨before, after, split⟩ := List.append_of_mem inside
    have ordered : ∀ parent ∈ before, heap.getParentTag malformed tag =
        heap.getTagName malformed parent → ∀ other ∈ children,
          heap.getTagName malformed other ≠ heap.getParentTag malformed parent := by
      rw [ParentsFirst] at parentsFirst
      intro parent early
      have pairs := parentsFirst
      nth_rewrite 2 [split] at pairs
      exact (List.pairwise_append.mp pairs).2.2 parent early tag List.mem_cons_self
    rw [lookup_left distinct split]
    by_cases parented : ∃ other ∈ children,
        heap.getTagName malformed other = heap.getParentTag malformed tag
    · obtain ⟨other, member, link⟩ := parented
      have there : (left malformed heap children before).lookup
          (heap.getParentTag malformed tag) = some other := by
        have start := (lookup_named_iff distinct).mpr ⟨member, link⟩
        by_cases early : other ∈ before
        · have alone := ordered other early link.symm
          obtain ⟨front, rest, parts⟩ := List.append_of_mem early
          have whole : children = front ++ other :: (rest ++ tag :: after) := by
            rw [split, parts, List.append_assoc, List.cons_append]
          have gone := lookup_left_eq_none distinct alone front
          rw [← link, lookup_left_before distinct split early, lookup_left distinct whole, gone]
          rfl
        · rw [← start]
          apply lookup_dropTags_of_not_mem
          intro earlier present same
          have equal := List.inj_on_of_nodup_map distinct
            (split ▸ List.mem_append_left _ present) member (same.trans link.symm)
          exact early (equal ▸ present)
      rw [there]
      simp only [Option.isSome_some, if_true, reduceCtorEq, false_iff, not_and, not_or]
      intro _
      refine ⟨?_, fun alone => alone other member link⟩
      intro empty
      exact noEmptyName tag inside empty other member (link.trans empty)
    · have alone : ∀ other ∈ children,
          heap.getTagName malformed other ≠ heap.getParentTag malformed tag :=
        fun other member link => parented ⟨other, member, link⟩
      rw [lookup_left_eq_none distinct alone]
      exact iff_of_true rfl ⟨inside, Or.inr alone⟩
  · exact iff_of_false (fun found => inside (inside_of_found found)) fun top => inside top.1

end Places

/-- **The tags come back as their forest exactly if no parent that comes first has been taken out,
and no name is empty.** -/
theorem right_iff_parentsFirst (sha1 : Sha1) (malformed : Octets → Nat) (heap : TagHeap Ref)
    (children : List Ref) (userUuid : Option UserUuid)
    (flat : ∀ tag ∈ children, heap.subTags tag = [])
    (distinct : (children.map (heap.getTagName malformed)).Nodup)
    (acyclic : ∀ tag ∈ children, ∃ depth, Reaches (place malformed heap children) depth tag) :
    Right sha1 malformed heap children userUuid ↔
      NoEmptyName malformed heap children ∧ ParentsFirst malformed heap children := by
  constructor
  · exact fun right => ⟨right.noEmptyName distinct, right.parentsFirst distinct⟩
  · rintro ⟨noEmptyName, parentsFirst⟩
    have listed : ∀ {depth : Nat} {tag : Ref},
        Reaches (place malformed heap children) depth tag → tag ∈ children := by
      intro depth tag reaches
      cases reaches with
      | root top => exact ((place_eq_root_iff distinct).mp top).1
      | under link => exact ((place_eq_under_iff distinct).mp link).1
    have linked : Forest.Linked (place malformed heap children)
        (makeSubTags sha1 malformed heap children userUuid).2
        (makeSubTags sha1 malformed heap children userUuid).1.subTags := by
      constructor
      · rw [(makeSubTags_eq userUuid).1]
        exact nodup_values_left distinct
      · intro tag
        rw [(makeSubTags_eq userUuid).1, mem_values_left_iff distinct,
          lookup_left_iff distinct noEmptyName parentsFirst]
      · intro parent depth reaches
        rw [(makeSubTags_eq userUuid).2, flat parent (listed reaches), List.nil_append]
        exact (List.Nodup.of_map _ distinct).filter _
      · intro parent depth reaches tag
        rw [(makeSubTags_eq userUuid).2, flat parent (listed reaches), List.nil_append,
          List.mem_filter, decide_eq_true_eq, lookup_named_iff distinct,
          place_eq_under_iff distinct]
        constructor
        · rintro ⟨inside, member, name⟩
          refine ⟨inside, ?_, member, name⟩
          intro empty
          exact noEmptyName tag inside empty parent member (name.trans empty)
        · rintro ⟨inside, -, member, name⟩
          exact ⟨inside, member, name⟩
    apply linked.isForest (List.Nodup.of_map _ distinct)
    exact fun tag => ⟨acyclic tag, fun ⟨_, reaches⟩ => listed reaches⟩

section Chain

def letter (tag : Nat) : Text := [UInt16.ofNat (97 + tag)]

/-- Tags each under the one before. -/
def chain : TagHeap Nat where
  artTag := fun tag =>
    { tagOid := "", userUuid := publicUuid, tagName := Text.getBytes (letter tag)
      rankScore := none, tagArtRanks := none, tagKind := none, imgOid := none, routeLink := none
      parentTag := if tag = 0 then none else some (Text.getBytes (letter (tag - 1))) }
  subTags := fun _ => []

private theorem repaired_letter {tag : Nat} (small : tag < 3) :
    Text.repaired (letter tag) = letter tag := by
  decide +revert

private theorem chain_name {tag : Nat} (small : tag < 3) :
    chain.getTagName malformed tag = letter tag :=
  (Text.getBytes_read malformed (letter tag)).2.trans (repaired_letter small)

private theorem chain_parent {tag : Nat} (small : tag < 3) :
    chain.getParentTag malformed (tag + 1) = letter tag :=
  (Text.getBytes_read malformed (letter tag)).2.trans (repaired_letter small)

private theorem letter_inj {tag other : Nat} (small : tag < 3) (few : other < 3) :
    letter tag = letter other ↔ tag = other := by
  have all : ∀ tag < 3, ∀ other < 3, (letter tag = letter other ↔ tag = other) := by decide
  exact all tag small other few

/-- Three tags in any order. -/
theorem chain_acyclic {children : List Nat} (members : ∀ tag, tag ∈ children ↔ tag < 3)
    (distinct : (children.map (chain.getTagName malformed)).Nodup) :
    ∀ tag ∈ children, ∃ depth, Reaches (place malformed chain children) depth tag := by
  intro tag inside
  refine ⟨tag, ?_⟩
  induction tag with
  | zero => exact .root ((place_eq_root_iff distinct).mpr ⟨inside, Or.inl rfl⟩)
  | succ tag ih =>
      have small := (members _).mp inside
      have member := (members tag).mpr (Nat.lt_of_succ_lt small)
      have name : chain.getTagName malformed tag = chain.getParentTag malformed (tag + 1) := by
        rw [chain_name (by omega), chain_parent (by omega)]
      refine .under ((place_eq_under_iff distinct).mpr ⟨inside, ?_, member, name⟩) (ih member)
      rw [chain_parent (by omega)]
      exact List.cons_ne_nil _ _

private theorem chain_distinct (malformed : Octets → Nat) {children : List Nat}
    (small : ∀ tag ∈ children, tag < 3) (distinct : children.Nodup) : (children.map (chain.getTagName malformed)).Nodup := by
  apply distinct.map_on
  intro tag inside other member same
  rwa [chain_name (small tag inside), chain_name (small other member),
    letter_inj (small tag inside) (small other member)] at same

theorem right_iff_parentsFirst_chain :
    Right ArtTagService.plainSha1 (fun _ => 1) chain [2, 1, 0] none := by
  have small : ∀ tag ∈ [2, 1, 0], tag < 3 := by decide
  have distinct := chain_distinct (fun _ => 1) small (by decide)
  refine (right_iff_parentsFirst ArtTagService.plainSha1 (fun _ => 1) chain [2, 1, 0] none
    (fun _ _ => rfl) distinct (chain_acyclic (by simp; omega) distinct)).mpr ⟨?_, ?_⟩
  · intro tag _ _ other member
    rw [chain_name (small other member)]
    exact List.cons_ne_nil _ _
  · have backwards : [2, 1, 0].Pairwise fun parent tag => tag < parent := by decide
    refine backwards.imp_of_mem ?_
    intro parent tag first _ behind link
    rw [chain_name (small parent first)] at link
    cases tag with
    | zero => exact absurd link.symm (List.cons_ne_nil _ _)
    | succ tag =>
        have few := small parent first
        rw [chain_parent (by omega), letter_inj (by omega) few] at link
        omega

/-- The last tag of a chain is a root once the one above it has been taken out. -/
theorem chain_not_right :
    (∀ tag ∈ [0, 1, 2], chain.subTags tag = []) ∧
      ([0, 1, 2].map (chain.getTagName fun _ => 1)).Nodup ∧
      (∀ tag ∈ [0, 1, 2], ∃ depth, Reaches (place (fun _ => 1) chain [0, 1, 2]) depth tag) ∧
      ¬ Right ArtTagService.plainSha1 (fun _ => 1) chain [0, 1, 2] none := by
  have small : ∀ tag ∈ [0, 1, 2], tag < 3 := by decide
  have distinct := chain_distinct (fun _ => 1) small (by decide)
  refine ⟨fun _ _ => rfl, distinct, chain_acyclic (by simp; omega) distinct, ?_⟩
  intro right
  have behind : [1, 2].Sublist [0, 1, 2] := by decide
  have ordered := List.pairwise_iff_forall_sublist.mp (right.parentsFirst distinct) behind
  have link : chain.getParentTag (fun _ => 1) 2 = chain.getTagName (fun _ => 1) 1 := by
    rw [chain_parent (by decide), chain_name (by decide)]
  have up : chain.getTagName (fun _ => 1) 0 = chain.getParentTag (fun _ => 1) 1 := by
    rw [chain_parent (by decide), chain_name (by decide)]
  exact ordered link 0 (by decide) up

end Chain

end Tvntd.SubTags
