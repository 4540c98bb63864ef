import Tvntd.Front.ArticleTagStore
import Tvntd.Lib.Chained

/-! # Runs of the public tags

What the store keeps from call to call is more than what is asked of it: the tags
below a tag of the index are in the index as well, so that their names tell them
apart, and each is there once.
-/

namespace Tvntd.ArticleTagStore

open RankedTags

/-! ## The parts of the invariant -/

/-- The lists of tags below others. A tag that is due is below its parent, and only tags that are
known are below others, each once. -/
structure SubTagsRight (due known : Tag → Prop) (parentTag : Tag → Option String)
    (pubTagIndex : String → Option Tag) (subTags : Tag → List Tag) : Prop where
  listed : ∀ tag name parent, due tag → Indexed pubTagIndex tag → parentTag tag = some name →
    pubTagIndex name = some parent → tag ∈ subTags parent
  inside : ∀ tag sub, Indexed pubTagIndex tag → sub ∈ subTags tag → known sub
  once : ∀ tag, Indexed pubTagIndex tag → (subTags tag).Nodup

/-- The public tags hold the tags that they should, each once and under its name. -/
structure PublicRight (tagName : Tag → String) (top : Tag → Prop)
    (publicTags : String → Option Tag) (sortedPubTags : List Tag) : Prop where
  named : ∀ name tag, publicTags name = some tag → tagName tag = name
  listed : ∀ tag, (∃ name, publicTags name = some tag) ↔ top tag
  sorted : ∀ tag, tag ∈ sortedPubTags ↔ top tag
  once : sortedPubTags.Nodup

/-- The invariant. -/
structure Kept (store : Store) : Prop where
  index : IndexRight store.tagName store.rank store.pubTagIndex store.sortedIdxTags
  kinds : KindsRight store.tagKind store.pubTagIndex store.sortedTagKind
  publicTags : PublicRight store.tagName
    (TopPublic store.userUuid store.parentTag store.pubTagIndex) store.publicTags
    store.sortedPubTags
  subTags : SubTagsRight (fun _ => True) (Indexed store.pubTagIndex) store.parentTag
    store.pubTagIndex store.subTags
  made : ∀ tag, Indexed store.pubTagIndex tag → tag < store.made

theorem Kept.holds {store : Store} (kept : Kept store) : Holds store where
  index := kept.index
  kinds := kept.kinds
  publicTags := kept.publicTags.listed
  sortedPubTags := kept.publicTags.sorted
  subTags := by
    intro tag name parent indexed up found
    exact List.count_eq_one_of_mem (kept.subTags.once parent ⟨name, found⟩)
      (kept.subTags.listed tag name parent trivial indexed up found)

theorem kept_init : Kept init where
  index := by
    refine ⟨nofun, fun tag => ⟨nofun, ?_⟩, List.nodup_nil, List.Pairwise.nil⟩
    rintro ⟨name, found⟩
    cases found
  kinds := by
    refine fun kind tag => ⟨nofun, ?_⟩
    rintro ⟨⟨name, found⟩, -⟩
    cases found
  publicTags := by
    have none : ∀ tag, ¬ TopPublic init.userUuid init.parentTag init.pubTagIndex tag := by
      rintro tag ⟨⟨name, found⟩, -, -⟩
      cases found
    refine ⟨nofun, fun tag => ⟨?_, fun top => absurd top (none tag)⟩,
      fun tag => ⟨nofun, fun top => absurd top (none tag)⟩, List.nodup_nil⟩
    rintro ⟨name, found⟩
    cases found
  subTags := by
    refine ⟨?_, ?_, fun _ _ => List.nodup_nil⟩
    · rintro tag name parent - ⟨other, found⟩
      cases found
    · rintro tag sub ⟨name, found⟩
      cases found
  made := by
    rintro tag ⟨name, found⟩
    cases found

section Names

variable {tagName : Tag → String} {rank : Tag → Option Int} {pubTagIndex : String → Option Tag}
  {sortedIdxTags : List Tag}

theorem IndexRight.found (right : IndexRight tagName rank pubTagIndex sortedIdxTags) {tag : Tag}
    (indexed : Indexed pubTagIndex tag) : pubTagIndex (tagName tag) = some tag := by
  obtain ⟨name, found⟩ := indexed
  rw [right.named name tag found]
  exact found

/-- Tags of the index have different names. -/
theorem IndexRight.distinct (right : IndexRight tagName rank pubTagIndex sortedIdxTags)
    {tag other : Tag} (left : Indexed pubTagIndex tag) (indexed : Indexed pubTagIndex other)
    (same : tagName tag = tagName other) : tag = other := by
  have found := right.found left
  rw [same, right.found indexed] at found
  exact (Option.some.inj found).symm

end Names

/-- Among tags that have other names, one is removed itself. -/
theorem removeArray_eq_erase {tagName : Tag → String} {array : List Tag} {tag : Tag}
    (distinct : ∀ other ∈ array, tagName other = tagName tag → other = tag) :
    removeArray tagName array tag = array.erase tag :=
  List.eraseP_eq_erase_of_unique (fun _ => decide_eq_true rfl)
    fun other inside same => distinct other inside (of_decide_eq_true same)

/-! ## Tags below others -/

section SubTags

variable {due known : Tag → Prop} {tagName : Tag → String} {parentTag : Tag → Option String}
  {pubTagIndex : String → Option Tag} {subTags : Tag → List Tag} {self parent : Tag}

theorem mem_update_iff {subs : List Tag} {tag sub : Tag} :
    sub ∈ Function.update subTags parent subs tag ↔
      tag = parent ∧ sub ∈ subs ∨ tag ≠ parent ∧ sub ∈ subTags tag := by
  by_cases here : tag = parent
  · subst here
    simp
  · simp [here]

theorem sublist_remove (parent self tag : Tag) :
    (Function.update subTags parent (removeArray tagName (subTags parent) self) tag).Sublist
      (subTags tag) := by
  by_cases here : tag = parent
  · rw [here, Function.update_self]
    exact List.eraseP_sublist
  · rw [Function.update_of_ne here]

/-- Without the tag below one of the others, all others are still below their parents. -/
theorem SubTagsRight.remove (right : SubTagsRight due known parentTag pubTagIndex subTags)
    (distinct : ∀ tag, known tag → tagName tag = tagName self → tag = self)
    (indexed : Indexed pubTagIndex parent) :
    SubTagsRight (fun tag => due tag ∧ tag ≠ self) known parentTag pubTagIndex
      (Function.update subTags parent (removeArray tagName (subTags parent) self)) := by
  rw [removeArray_eq_erase fun other inside =>
    distinct other (right.inside parent other indexed inside)]
  refine ⟨?_, ?_, ?_⟩
  · rintro tag name other ⟨wanted, apart⟩ within up found
    have inside := right.listed tag name other wanted within up found
    rw [mem_update_iff]
    by_cases here : other = parent
    · exact Or.inl ⟨here, (List.mem_erase_of_ne apart).mpr (here ▸ inside)⟩
    · exact Or.inr ⟨here, inside⟩
  · intro tag sub within inside
    rcases mem_update_iff.mp inside with ⟨rfl, erased⟩ | ⟨-, inside⟩
    · exact right.inside tag sub within (List.mem_of_mem_erase erased)
    · exact right.inside tag sub within inside
  · intro tag within
    by_cases here : tag = parent
    · rw [here, Function.update_self]
      exact (right.once parent indexed).erase self
    · rw [Function.update_of_ne here]
      exact right.once tag within

/-- With the tag below its parent, all tags are below their parents. -/
theorem SubTagsRight.add (right : SubTagsRight (· ≠ self) known parentTag pubTagIndex subTags)
    (distinct : ∀ tag, known tag → tagName tag = tagName self → tag = self)
    (self_known : known self) {name : String} (found : pubTagIndex name = some parent)
    (up : parentTag self = some name) :
    SubTagsRight (fun _ => True) known parentTag pubTagIndex
      (Function.update subTags parent (removeArray tagName (subTags parent) self ++ [self])) := by
  have indexed : Indexed pubTagIndex parent := ⟨name, found⟩
  rw [removeArray_eq_erase fun other inside =>
    distinct other (right.inside parent other indexed inside)]
  refine ⟨?_, ?_, ?_⟩
  · intro tag called other _ within above there
    rw [mem_update_iff]
    by_cases same : tag = self
    · subst same
      cases up.symm.trans above
      cases found.symm.trans there
      exact Or.inl ⟨rfl, List.mem_append_right _ (List.mem_singleton_self _)⟩
    · have inside := right.listed tag called other same within above there
      by_cases here : other = parent
      · have left := (List.mem_erase_of_ne same).mpr (here ▸ inside)
        exact Or.inl ⟨here, List.mem_append_left _ left⟩
      · exact Or.inr ⟨here, inside⟩
  · intro tag sub within inside
    rcases mem_update_iff.mp inside with ⟨rfl, added⟩ | ⟨-, inside⟩
    · rcases List.mem_append.mp added with erased | now
      · exact right.inside tag sub within (List.mem_of_mem_erase erased)
      · rw [List.mem_singleton.mp now]
        exact self_known
    · exact right.inside tag sub within inside
  · intro tag within
    by_cases here : tag = parent
    · rw [here, Function.update_self]
      have once := right.once parent indexed
      refine List.nodup_append.mpr ⟨once.erase self, List.nodup_singleton _, ?_⟩
      intro sub erased other now same
      rw [same, List.mem_singleton.mp now] at erased
      exact once.not_mem_erase erased
    · rw [Function.update_of_ne here]
      exact right.once tag within

/-- Which parent a tag has does not matter to the others. -/
theorem SubTagsRight.reparent (right : SubTagsRight due known parentTag pubTagIndex subTags)
    (name : Option String) :
    SubTagsRight (fun tag => due tag ∧ tag ≠ self) known (Function.update parentTag self name)
      pubTagIndex subTags := by
  refine ⟨?_, right.inside, right.once⟩
  rintro tag called other ⟨wanted, apart⟩ within up found
  rw [Function.update_of_ne apart] at up
  exact right.listed tag called other wanted within up found

/-- A tag whose parent is not there need not be below it. -/
theorem SubTagsRight.all (right : SubTagsRight (· ≠ self) known parentTag pubTagIndex subTags)
    (gone : ∀ name, parentTag self = some name → pubTagIndex name = none) :
    SubTagsRight (fun _ => True) known parentTag pubTagIndex subTags := by
  refine ⟨?_, right.inside, right.once⟩
  intro tag name parent _ within up found
  by_cases same : tag = self
  · subst same
    rw [gone name up] at found
    cases found
  · exact right.listed tag name parent same within up found

theorem SubTagsRight.imp {other : Tag → Prop}
    (right : SubTagsRight due known parentTag pubTagIndex subTags)
    (wanted : ∀ tag, other tag → due tag) :
    SubTagsRight other known parentTag pubTagIndex subTags :=
  ⟨fun tag name parent due => right.listed tag name parent (wanted tag due), right.inside,
    right.once⟩

/-- Fewer tags in the index, which are all due. -/
theorem SubTagsRight.restrict {fewer : String → Option Tag}
    (right : SubTagsRight due known parentTag pubTagIndex subTags)
    (found : ∀ name tag, fewer name = some tag → pubTagIndex name = some tag)
    (wanted : ∀ tag, Indexed fewer tag → due tag) :
    SubTagsRight (fun _ => True) known parentTag fewer subTags := by
  have indexed : ∀ tag, Indexed fewer tag → Indexed pubTagIndex tag :=
    fun tag ⟨name, there⟩ => ⟨name, found name tag there⟩
  refine ⟨?_, fun tag sub within => right.inside tag sub (indexed tag within),
    fun tag within => right.once tag (indexed tag within)⟩
  intro tag name parent _ within up there
  exact right.listed tag name parent (wanted tag within) (indexed tag within) up
    (found name parent there)

end SubTags

/-! ## Parents -/

variable {store next : Store} {self : Tag}

theorem addSubTag_eq (store : Store) (parent sub : Tag) :
    store.addSubTag parent sub = { store with
      subTags := Function.update store.subTags parent
        (removeArray store.tagName (store.subTags parent) sub ++ [sub]) } := by
  simp only [Store.addSubTag, Store.removeSubTag, Function.update_idem, Function.update_self]

private theorem leftParent_gone {name : String} (left : store.leftParent self = some name) :
    store.pubTagIndex name = none :=
  Option.isNone_iff_eq_none.mp (Option.filter_eq_some_iff.mp left).2

/-- What a tag leaves behind that leaves its parent. -/
theorem leaveParent_spec (store : Store) (self : Tag) {known : Tag → Prop}
    (right : SubTagsRight (fun _ => True) known store.parentTag store.pubTagIndex store.subTags)
    (distinct : ∀ tag, known tag → store.tagName tag = store.tagName self → tag = self) :
    ∃ subTags, store.leaveParent self = { store with
        parentTag := Function.update store.parentTag self (store.leftParent self)
        subTags := subTags } ∧
      SubTagsRight (· ≠ self) known store.parentTag store.pubTagIndex subTags ∧
        ∀ tag, (subTags tag).Sublist (store.subTags tag) := by
  have same : store.leftParent self = store.parentTag self → store = { store with
      parentTag := Function.update store.parentTag self (store.leftParent self) } := by
    intro same
    rw [same, Function.update_eq_self]
  unfold Store.leaveParent
  cases up : store.parentTag self with
  | none =>
      refine ⟨store.subTags, same ?_, right.imp fun _ _ => trivial, fun _ => .refl _⟩
      rw [Store.leftParent, up]
      rfl
  | some name =>
      cases found : store.pubTagIndex name with
      | none =>
          simp only [found]
          refine ⟨store.subTags, same ?_, right.imp fun _ _ => trivial, fun _ => .refl _⟩
          rw [Store.leftParent, up, Option.filter_some, found]
          rfl
      | some parent =>
          have indexed : Indexed store.pubTagIndex parent := ⟨name, found⟩
          have left : store.leftParent self = none := by
            rw [Store.leftParent, up, Option.filter_some, found]
            rfl
          simp only [found]
          rw [left]
          refine ⟨_, rfl, (right.remove distinct indexed).imp fun tag apart => ⟨trivial, apart⟩,
            ?_⟩
          exact sublist_remove parent self

/-- A tag that is attached to a parent. -/
theorem attachParent_spec (store : Store)
    (right : SubTagsRight (· ≠ self) (Indexed store.pubTagIndex) store.parentTag store.pubTagIndex
      store.subTags)
    (distinct : ∀ tag, Indexed store.pubTagIndex tag →
      store.tagName tag = store.tagName self → tag = self)
    (indexed : Indexed store.pubTagIndex self) {name : String} {parent : Tag}
    (found : store.pubTagIndex name = some parent) (named : store.tagName parent = name) :
    ∃ subTags, store.attachParent self (some parent) = { store with
        parentTag := Function.update store.parentTag self (some name)
        subTags := subTags } ∧
      SubTagsRight (fun _ => True) (Indexed store.pubTagIndex)
        (Function.update store.parentTag self (some name)) store.pubTagIndex subTags := by
  have apart := (right.reparent (some name)).imp fun tag apart => ⟨apart, apart⟩
  refine ⟨_, ?_, apart.add distinct indexed found (Function.update_self _ _ _)⟩
  simp only [Store.attachParent, addSubTag_eq, named]

/-- The tag has another parent, and all tags are below their parents. -/
def Moved (store next : Store) (self : Tag) (parent : Option String) : Prop :=
  ∃ subTags, next = { store with
      parentTag := Function.update store.parentTag self parent
      subTags := subTags } ∧
    SubTagsRight (fun _ => True) (Indexed store.pubTagIndex)
      (Function.update store.parentTag self parent) store.pubTagIndex subTags

theorem Kept.distinct (kept : Kept store) (indexed : Indexed store.pubTagIndex self) (tag : Tag)
    (known : Indexed store.pubTagIndex tag) (same : store.tagName tag = store.tagName self) :
    tag = self :=
  kept.index.distinct known indexed same

private theorem Kept.changeParent_moved (kept : Kept store) {tagName : String}
    (found : store.pubTagIndex tagName = some self) (parentName : Option String) :
    Moved store (store.changeParent tagName parentName) self (nonEmpty parentName) := by
  have indexed : Indexed store.pubTagIndex self := ⟨tagName, found⟩
  obtain ⟨subTags, left, right, -⟩ :=
    leaveParent_spec store self kept.subTags (kept.distinct indexed)
  have apart := (right.reparent (nonEmpty parentName)).imp fun tag apart => ⟨apart, apart⟩
  simp only [Store.changeParent, found, left, Function.update_idem]
  cases given : nonEmpty parentName with
  | none =>
      rw [given] at apart
      refine ⟨subTags, rfl, apart.all fun name up => ?_⟩
      rw [Function.update_self] at up
      cases up
  | some name =>
      rw [given] at apart
      cases there : store.pubTagIndex name with
      | none =>
          refine ⟨subTags, by simp only [there, Store.attachParent], apart.all fun other up => ?_⟩
          rw [Function.update_self] at up
          cases up
          exact there
      | some parent =>
          obtain ⟨attached, eq, full⟩ := attachParent_spec { store with
              parentTag := Function.update store.parentTag self (some name)
              subTags := subTags } apart (kept.distinct indexed) indexed there
            (kept.index.named name parent there)
          simp only [Function.update_idem] at eq full
          exact ⟨attached, by simp only [there, eq], full⟩

private theorem Kept.moveTag_moved (kept : Kept store) (indexed : Indexed store.pubTagIndex self)
    {parent : Option String} {name : String} (given : nonEmpty parent = some name) :
    Moved store (store.moveTag self parent) self (store.movedParent self name) := by
  obtain ⟨subTags, left, right, -⟩ :=
    leaveParent_spec store self kept.subTags (kept.distinct indexed)
  have apart := (right.reparent (store.leftParent self)).imp fun tag apart => ⟨apart, apart⟩
  simp only [Store.moveTag, given, left]
  unfold Store.movedParent
  cases there : store.pubTagIndex name with
  | none =>
      refine ⟨subTags, by simp only [Store.attachParent], apart.all fun other up => ?_⟩
      rw [Function.update_self] at up
      exact leftParent_gone up
  | some parent =>
      obtain ⟨attached, eq, full⟩ := attachParent_spec { store with
          parentTag := Function.update store.parentTag self (store.leftParent self)
          subTags := subTags } apart (kept.distinct indexed) indexed there
        (kept.index.named name parent there)
      simp only [Function.update_idem] at eq full
      exact ⟨attached, by simp only [eq], full⟩

/-- The public tags do not depend on which tags are listed by them. -/
theorem PublicRight.congr {tagName : Tag → String} {top other : Tag → Prop}
    {publicTags : String → Option Tag} {sortedPubTags : List Tag}
    (right : PublicRight tagName top publicTags sortedPubTags)
    (same : ∀ tag, other tag ↔ top tag) :
    PublicRight tagName other publicTags sortedPubTags :=
  ⟨right.named, fun tag => (right.listed tag).trans (same tag).symm,
    fun tag => (right.sorted tag).trans (same tag).symm, right.once⟩

private theorem topPublic_update {userUuid parentTag : Tag → Option String}
    {pubTagIndex : String → Option Tag} {parent : Option String}
    (top : userUuid self = some publicUuid → (parent = none ↔ parentTag self = none)) (tag : Tag) :
    TopPublic userUuid (Function.update parentTag self parent) pubTagIndex tag ↔
      TopPublic userUuid parentTag pubTagIndex tag := by
  by_cases here : tag = self
  · subst here
    constructor
    · rintro ⟨indexed, up, owner⟩
      rw [Function.update_self] at up
      exact ⟨indexed, (top owner).mp up, owner⟩
    · rintro ⟨indexed, up, owner⟩
      refine ⟨indexed, ?_, owner⟩
      rw [Function.update_self]
      exact (top owner).mpr up
  · constructor
    · rintro ⟨indexed, up, owner⟩
      rw [Function.update_of_ne here] at up
      exact ⟨indexed, up, owner⟩
    · rintro ⟨indexed, up, owner⟩
      refine ⟨indexed, ?_, owner⟩
      rw [Function.update_of_ne here]
      exact up

theorem Kept.moved (kept : Kept store) {parent : Option String} (can : CanMove store self parent)
    (moved : Moved store next self parent) : Kept next := by
  obtain ⟨subTags, rfl, right⟩ := moved
  exact ⟨⟨kept.index.named, kept.index.same, kept.index.once, can.ranked⟩, kept.kinds,
    kept.publicTags.congr (topPublic_update can.top), right, kept.made⟩

/-! ## Other fields -/

theorem KindsRight.update {tagKind : Tag → Option String} {pubTagIndex : String → Option Tag}
    {sortedTagKind : String → List Tag} (right : KindsRight tagKind pubTagIndex sortedTagKind)
    {kind : Option String} (same : kindOf kind = kindOf (tagKind self)) :
    KindsRight (Function.update tagKind self kind) pubTagIndex sortedTagKind := by
  intro called tag
  rw [right called tag]
  by_cases here : tag = self
  · rw [here, Function.update_self, same]
  · rw [Function.update_of_ne here]

private theorem Kept.updateKind (kept : Kept store) {kind : Option String}
    (same : kindOf kind = kindOf (store.tagKind self)) :
    Kept { store with tagKind := Function.update store.tagKind self kind } :=
  ⟨kept.index, kept.kinds.update same, kept.publicTags, kept.subTags, kept.made⟩

private theorem isSome_rank (store : Store) (tag : Tag) :
    (store.rank tag).isSome = (parseInt (store.rankScore tag)).isSome := isSome_computeRank tag

/-- Sorting again puts the tags in order, if the new rank is a number. -/
theorem Kept.resort (kept : Kept store) (indexed : Indexed store.pubTagIndex self) (value : Int) :
    Kept (Store.resortTags { store with
      rankScore := Function.update store.rankScore self (some (.number value)) }) := by
  obtain ⟨⟨named, same, once, ranked⟩, kinds, publicTags, subTags, made⟩ := kept
  have numbers : ∀ tag ∈ store.sortedIdxTags, (parseInt
      (Function.update store.rankScore self (some (.number value)) tag)).isSome := by
    intro tag inside
    by_cases here : tag = self
    · rw [here, Function.update_self]
      rfl
    · rw [Function.update_of_ne here, ← isSome_rank]
      exact (ranked.numbers inside ((same self).mpr indexed) here).1
  have perm := sortTags_perm (computeRank (Function.update store.rankScore self
    (some (.number value))) store.parentTag store.pubTagIndex)
  exact ⟨⟨named, fun tag => (perm _).mem_iff.trans (same tag), (perm _).nodup_iff.mpr once,
      ranked_sortTags fun tag inside => (isSome_computeRank tag).trans (numbers tag inside)⟩,
    kinds, ⟨publicTags.named, publicTags.listed, fun tag =>
      (perm _).mem_iff.trans (publicTags.sorted tag), (perm _).nodup_iff.mpr publicTags.once⟩,
    subTags, made⟩

theorem Kept.changeRank (kept : Kept store) (indexed : Indexed store.pubTagIndex self)
    (rank : Option Rank) : Kept (store.changeRank self rank) := by
  unfold Store.changeRank
  split
  · split
    · exact kept
    · exact kept
    · exact kept.resort indexed _
  · exact kept

theorem Kept.update (kept : Kept store) {artRank : RawTag}
    (found : store.pubTagIndex artRank.tagName = some self)
    (can : CanUpdate store self artRank) : Kept (store.update self artRank) := by
  obtain ⟨kind, top, listed, ranked⟩ := can
  have names : Function.update store.tagName self artRank.tagName = store.tagName := by
    rw [← kept.index.named _ _ found, Function.update_eq_self]
  have parents : SubTagsRight (fun _ => True) (Indexed store.pubTagIndex)
      (Function.update store.parentTag self (artRank.parentTag.or (store.parentTag self)))
      store.pubTagIndex store.subTags := by
    refine ⟨?_, kept.subTags.inside, kept.subTags.once⟩
    intro tag name parent _ indexed up there
    by_cases here : tag = self
    · subst here
      rw [Function.update_self] at up
      cases given : artRank.parentTag with
      | none =>
          rw [given, Option.none_or] at up
          exact kept.subTags.listed tag name parent trivial indexed up there
      | some other =>
          rw [given, Option.some_or] at up
          exact listed name parent (given.trans up) there
    · rw [Function.update_of_ne here] at up
      exact kept.subTags.listed tag name parent trivial indexed up there
  have kinds : KindsRight
      (Function.update store.tagKind self (artRank.tagKind.or (store.tagKind self)))
      store.pubTagIndex store.sortedTagKind := by
    refine kept.kinds.update ?_
    cases given : artRank.tagKind with
    | none => rw [Option.none_or]
    | some other => exact (kind other given).symm
  have tops : store.userUuid self = some publicUuid →
      (artRank.parentTag.or (store.parentTag self) = none ↔ store.parentTag self = none) := by
    intro owner
    rw [Option.or_eq_none_iff]
    exact ⟨And.right, fun up => ⟨top owner up, up⟩⟩
  unfold Store.update
  rw [names]
  exact ⟨⟨kept.index.named, kept.index.same, kept.index.once, ranked⟩, kinds,
    kept.publicTags.congr (topPublic_update tops), parents, kept.made⟩

/-! ## Adding a tag -/

/-- A store to which a tag can be added that is in no index, but may be in the list of its kind,
and below other tags. -/
structure Ready (store : Store) (tag : Tag) : Prop where
  free : store.pubTagIndex (store.tagName tag) = none
  outside : ¬ Indexed store.pubTagIndex tag
  index : IndexRight store.tagName store.rank store.pubTagIndex store.sortedIdxTags
  numbers : ∀ other ∈ store.sortedIdxTags,
    (parseInt (store.rankScore other)).isSome ∧ (parseInt (store.rankScore tag)).isSome
  kinds : ∀ kind other, other ≠ tag → (other ∈ store.sortedTagKind kind ↔
    Indexed store.pubTagIndex other ∧ kindOf (store.tagKind other) = kind)
  kind : ∀ kind, tag ∈ store.sortedTagKind kind → kindOf (store.tagKind tag) = kind
  publicTags : PublicRight store.tagName
    (TopPublic store.userUuid store.parentTag store.pubTagIndex) store.publicTags
    store.sortedPubTags
  subTags : SubTagsRight (fun _ => True) (fun sub => Indexed store.pubTagIndex sub ∨ sub = tag)
    store.parentTag store.pubTagIndex store.subTags
  alone : ∀ sub ∈ store.subTags tag, sub = tag
  once : (store.subTags tag).Nodup
  orphans : ∀ other, Indexed store.pubTagIndex other →
    store.parentTag other ≠ some (store.tagName tag)
  made : ∀ other, Indexed store.pubTagIndex other ∨ other = tag → other < store.made

section Index

variable {pubTagIndex : String → Option Tag} {name : String} {tag : Tag}

private theorem indexed_update (free : pubTagIndex name = none) (other : Tag) :
    Indexed (Function.update pubTagIndex name (some tag)) other ↔
      Indexed pubTagIndex other ∨ other = tag := by
  constructor
  · rintro ⟨called, found⟩
    by_cases here : called = name
    · rw [here, Function.update_self] at found
      exact Or.inr (Option.some.inj found).symm
    · rw [Function.update_of_ne here] at found
      exact Or.inl ⟨called, found⟩
  · rintro (⟨called, found⟩ | rfl)
    · refine ⟨called, ?_⟩
      rw [Function.update_of_ne]
      · exact found
      · rintro rfl
        rw [free] at found
        cases found
    · exact ⟨name, Function.update_self _ _ _⟩

end Index

/-- The index with the tag. -/
def Store.indexWith (store : Store) (tag : Tag) : String → Option Tag :=
  Function.update store.pubTagIndex (store.tagName tag) (some tag)

section Add

variable {tag : Tag} (ready : Ready store tag)
include ready

private theorem Ready.indexed_iff (other : Tag) :
    Indexed (store.indexWith tag) other ↔ Indexed store.pubTagIndex other ∨ other = tag :=
  indexed_update ready.free other

/-- Parents of the tags that were there are found as before. -/
theorem Ready.found {name : String} {other : Tag} (indexed : Indexed store.pubTagIndex other)
    (up : store.parentTag other = some name) :
    store.indexWith tag name = store.pubTagIndex name := by
  refine Function.update_of_ne ?_ _ _
  rintro rfl
  exact ready.orphans other indexed up

/-- The tags that were there keep their ranks: none of them has a parent of the new name. -/
theorem Ready.ranked : Ranked (computeRank store.rankScore store.parentTag (store.indexWith tag))
    store.sortedIdxTags := by
  have kept : ∀ other ∈ store.sortedIdxTags,
      computeRank store.rankScore store.parentTag (store.indexWith tag) other =
        store.rank other := by
    intro other inside
    exact climb_congr (fun _ _ => rfl) (fun other name indexed up => ready.found indexed up)
      (fun name other found => ⟨name, found⟩) 20 ((ready.index.same other).mp inside) _
  refine List.Pairwise.imp_of_mem (fun {a b} left right le => ?_) ready.index.ranked
  rw [kept a left, kept b right]
  exact le

theorem Ready.addIndex (added : store.addIndex tag = some next) :
    ∃ tags, next = { store with pubTagIndex := store.indexWith tag, sortedIdxTags := tags } ∧
      IndexRight store.tagName (computeRank store.rankScore store.parentTag (store.indexWith tag))
        (store.indexWith tag) tags := by
  simp only [Store.addIndex, ready.free] at added
  obtain ⟨tags, inserted, rfl⟩ := Option.map_eq_some_iff.mp added
  have perm := SortedArray.insertSorted_perm inserted
  refine ⟨tags, rfl, ?_, ?_, ?_, ?_⟩
  · intro name other found
    by_cases here : name = store.tagName tag
    · rw [here, Store.indexWith, Function.update_self] at found
      rw [here, Option.some.inj found]
    · rw [Store.indexWith, Function.update_of_ne here] at found
      exact ready.index.named name other found
  · intro other
    rw [perm.mem_iff, List.mem_cons, ready.indexed_iff, ready.index.same other, or_comm]
  · exact perm.nodup_iff.mpr (List.nodup_cons.mpr
      ⟨fun inside => ready.outside ((ready.index.same tag).mp inside), ready.index.once⟩)
  · refine ready.ranked.insertTag (fun other inside => ?_) inserted
    have numbers := ready.numbers other inside
    exact ⟨(isSome_computeRank other).trans numbers.1, (isSome_computeRank tag).trans numbers.2⟩

/-- In the new index the tags are below their parents, but for the new one. -/
theorem Ready.subTags_with : SubTagsRight (· ≠ tag) (Indexed (store.indexWith tag))
    store.parentTag (store.indexWith tag) store.subTags := by
  refine ⟨?_, ?_, ?_⟩
  · intro other name parent apart indexed up found
    have before := ((ready.indexed_iff other).mp indexed).resolve_right apart
    rw [ready.found before up] at found
    exact ready.subTags.listed other name parent trivial before up found
  · intro other sub indexed inside
    rcases (ready.indexed_iff other).mp indexed with before | rfl
    · exact (ready.indexed_iff sub).mpr (ready.subTags.inside other sub before inside)
    · exact (ready.indexed_iff sub).mpr (Or.inr (ready.alone sub inside))
  · intro other indexed
    rcases (ready.indexed_iff other).mp indexed with before | rfl
    · exact ready.subTags.once other before
    · exact ready.once

private theorem Ready.topPublic_iff (other : Tag) :
    TopPublic store.userUuid store.parentTag (store.indexWith tag) other ↔
      TopPublic store.userUuid store.parentTag store.pubTagIndex other ∨
        other = tag ∧ store.parentTag tag = none ∧ store.userUuid tag = some publicUuid := by
  constructor
  · rintro ⟨indexed, top, owner⟩
    rcases (ready.indexed_iff other).mp indexed with before | rfl
    · exact Or.inl ⟨before, top, owner⟩
    · exact Or.inr ⟨rfl, top, owner⟩
  · rintro (⟨indexed, top, owner⟩ | ⟨rfl, top, owner⟩)
    · exact ⟨(ready.indexed_iff other).mpr (Or.inl indexed), top, owner⟩
    · exact ⟨(ready.indexed_iff other).mpr (Or.inr rfl), top, owner⟩

/-- A tag that is not a public one without a parent leaves the public tags as they are. -/
theorem Ready.publicTags_same
    (other : ¬ (store.parentTag tag = none ∧ store.userUuid tag = some publicUuid)) :
    PublicRight store.tagName (TopPublic store.userUuid store.parentTag (store.indexWith tag))
      store.publicTags store.sortedPubTags := by
  refine ready.publicTags.congr fun top => ?_
  rw [ready.topPublic_iff]
  exact or_iff_left fun now => other now.2

private theorem Ready.publicTags_add (top : store.parentTag tag = none)
    (owner : store.userUuid tag = some publicUuid) {tags : List Tag}
    (perm : tags.Perm (tag :: store.sortedPubTags)) :
    PublicRight store.tagName (TopPublic store.userUuid store.parentTag (store.indexWith tag))
      (Function.update store.publicTags (store.tagName tag) (some tag)) tags := by
  have same : ∀ other, TopPublic store.userUuid store.parentTag (store.indexWith tag) other ↔
      TopPublic store.userUuid store.parentTag store.pubTagIndex other ∨ other = tag := by
    intro other
    rw [ready.topPublic_iff]
    exact or_congr_right (and_iff_left ⟨top, owner⟩)
  have free : store.publicTags (store.tagName tag) = none := by
    cases there : store.publicTags (store.tagName tag) with
    | none => rfl
    | some other =>
        have indexed := ((ready.publicTags.listed other).mp ⟨_, there⟩).indexed
        have found := ready.index.found indexed
        rw [ready.publicTags.named _ other there, ready.free] at found
        cases found
  refine ⟨?_, ?_, ?_, ?_⟩
  · intro name other found
    by_cases here : name = store.tagName tag
    · rw [here, Function.update_self] at found
      rw [here, Option.some.inj found]
    · rw [Function.update_of_ne here] at found
      exact ready.publicTags.named name other found
  · intro other
    have listed : (∃ name, Function.update store.publicTags (store.tagName tag) (some tag) name =
        some other) ↔ (∃ name, store.publicTags name = some other) ∨ other = tag :=
      indexed_update free other
    rw [listed, ready.publicTags.listed, same]
  · intro other
    rw [perm.mem_iff, List.mem_cons, ready.publicTags.sorted, same, or_comm]
  · refine perm.nodup_iff.mpr (List.nodup_cons.mpr ⟨fun inside => ?_, ready.publicTags.once⟩)
    exact ready.outside ((ready.publicTags.sorted tag).mp inside).indexed

theorem Ready.addPlace {tags : List Tag}
    (right : IndexRight store.tagName
      (computeRank store.rankScore store.parentTag (store.indexWith tag)) (store.indexWith tag)
      tags)
    (placed : Store.addPlace
      { store with pubTagIndex := store.indexWith tag, sortedIdxTags := tags } tag = some next) :
    ∃ subTags publicTags sortedPubTags sortedByOwner,
      next = { store with
        pubTagIndex := store.indexWith tag
        sortedIdxTags := tags
        subTags := subTags
        publicTags := publicTags
        sortedPubTags := sortedPubTags
        sortedByOwner := sortedByOwner } ∧
      SubTagsRight (fun _ => True) (Indexed (store.indexWith tag)) store.parentTag
        (store.indexWith tag) subTags ∧
      PublicRight store.tagName (TopPublic store.userUuid store.parentTag (store.indexWith tag))
        publicTags sortedPubTags := by
  have indexed : Indexed (store.indexWith tag) tag := (ready.indexed_iff tag).mpr (Or.inr rfl)
  cases up : store.parentTag tag with
  | some name =>
      have publicTags := ready.publicTags_same fun top => absurd (up.symm.trans top.1) nofun
      cases found : store.indexWith tag name with
      | none =>
          simp only [Store.addPlace, up, found, Option.some.injEq] at placed
          subst placed
          refine ⟨_, _, _, _, rfl, ready.subTags_with.all fun other above => ?_, publicTags⟩
          cases up.symm.trans above
          exact found
      | some parent =>
          simp only [Store.addPlace, up, found, addSubTag_eq, Option.some.injEq] at placed
          subst placed
          refine ⟨_, _, _, _, rfl, ?_, publicTags⟩
          exact ready.subTags_with.add (fun other known => right.distinct known indexed) indexed
            found up
  | none =>
      have subTags := ready.subTags_with.all fun name above => absurd (up.symm.trans above) nofun
      by_cases owner : store.userUuid tag = some publicUuid
      · simp only [Store.addPlace, up, owner, if_true] at placed
        obtain ⟨public_, inserted, rfl⟩ := Option.map_eq_some_iff.mp placed
        exact ⟨_, _, _, _, rfl, subTags,
          ready.publicTags_add up owner (SortedArray.insertSorted_perm inserted)⟩
      · simp only [Store.addPlace, up, if_neg owner] at placed
        obtain ⟨owned, -, rfl⟩ := Option.map_eq_some_iff.mp placed
        exact ⟨_, _, _, _, rfl, subTags, ready.publicTags_same fun top => owner top.2⟩

theorem Ready.addKind {tags : List Tag} {kind : String} (same : kindOf (store.tagKind tag) = kind)
    (perm : tags.Perm (tag :: store.sortedTagKind kind)) :
    KindsRight store.tagKind (store.indexWith tag)
      (Function.update store.sortedTagKind kind tags) := by
  intro called other
  rw [ready.indexed_iff]
  by_cases now : other = tag
  · subst now
    by_cases here : called = kind
    · subst here
      rw [Function.update_self, perm.mem_iff]
      exact iff_of_true List.mem_cons_self ⟨Or.inr rfl, same⟩
    · rw [Function.update_of_ne here]
      refine iff_of_false (fun inside => ?_) fun both => here (both.2.symm.trans same)
      exact here ((ready.kind called inside).symm.trans same)
  · rw [or_iff_left now, ← ready.kinds called other now]
    by_cases here : called = kind
    · subst here
      rw [Function.update_self, perm.mem_iff, List.mem_cons, or_iff_right now]
    · rw [Function.update_of_ne here]

theorem Ready.addTag (added : store.addTag tag = some next) :
    Kept next ∧ next.tagKind = store.tagKind ∧ next.pubTagIndex = store.indexWith tag := by
  obtain ⟨first, indexed, later⟩ := Option.bind_eq_some_iff.mp added
  obtain ⟨second, placed, later⟩ := Option.bind_eq_some_iff.mp later
  obtain ⟨third, listed, routed⟩ := Option.bind_eq_some_iff.mp later
  obtain ⟨tags, rfl, right⟩ := ready.addIndex indexed
  obtain ⟨subTags, publicTags, sortedPubTags, sortedByOwner, rfl, below, public_⟩ :=
    ready.addPlace right placed
  obtain ⟨ofKind, inserted, rfl⟩ := Option.map_eq_some_iff.mp listed
  have kinds := ready.addKind rfl (SortedArray.insertSorted_perm inserted)
  have made : ∀ other, Indexed (store.indexWith tag) other → other < store.made :=
    fun other known => ready.made other ((ready.indexed_iff other).mp known)
  unfold Store.addRoute at routed
  split at routed
  · cases routed
    exact ⟨⟨right, kinds, public_, below, made⟩, rfl, rfl⟩
  · obtain ⟨top, -, rfl⟩ := Option.map_eq_some_iff.mp routed
    exact ⟨⟨right, kinds, public_, below, made⟩, rfl, rfl⟩

end Add

/-! ## A new tag -/

theorem IndexRight.congr {tagName other : Tag → String} {rank otherRank : Tag → Option Int}
    {pubTagIndex : String → Option Tag} {sortedIdxTags : List Tag}
    (right : IndexRight tagName rank pubTagIndex sortedIdxTags)
    (names : ∀ tag, Indexed pubTagIndex tag → other tag = tagName tag)
    (ranks : ∀ tag, Indexed pubTagIndex tag → otherRank tag = rank tag) :
    IndexRight other otherRank pubTagIndex sortedIdxTags := by
  refine ⟨?_, right.same, right.once, ?_⟩
  · intro name tag found
    rw [names tag ⟨name, found⟩]
    exact right.named name tag found
  · refine List.Pairwise.imp_of_mem (fun {a b} left inside le => ?_) right.ranked
    rw [ranks a ((right.same a).mp left), ranks b ((right.same b).mp inside)]
    exact le

theorem PublicRight.rename {tagName other : Tag → String} {top : Tag → Prop}
    {publicTags : String → Option Tag} {sortedPubTags : List Tag}
    (right : PublicRight tagName top publicTags sortedPubTags)
    (names : ∀ tag, top tag → other tag = tagName tag) :
    PublicRight other top publicTags sortedPubTags := by
  refine ⟨fun name tag found => ?_, right.listed, right.sorted, right.once⟩
  rw [names tag ((right.listed tag).mp ⟨name, found⟩)]
  exact right.named name tag found

private theorem topPublic_congr {userUuid owner parentTag parent : Tag → Option String}
    {pubTagIndex : String → Option Tag}
    (owners : ∀ tag, Indexed pubTagIndex tag → owner tag = userUuid tag)
    (parents : ∀ tag, Indexed pubTagIndex tag → parent tag = parentTag tag) (tag : Tag) :
    TopPublic owner parent pubTagIndex tag ↔ TopPublic userUuid parentTag pubTagIndex tag := by
  constructor
  · rintro ⟨indexed, top, public_⟩
    exact ⟨indexed, (parents tag indexed).symm.trans top, (owners tag indexed).symm.trans public_⟩
  · rintro ⟨indexed, top, public_⟩
    exact ⟨indexed, (parents tag indexed).trans top, (owners tag indexed).trans public_⟩

theorem SubTagsRight.congr {due known other : Tag → Prop} {parentTag parent : Tag → Option String}
    {pubTagIndex : String → Option Tag} {subTags subs : Tag → List Tag}
    (right : SubTagsRight due known parentTag pubTagIndex subTags)
    (parents : ∀ tag, Indexed pubTagIndex tag → parent tag = parentTag tag)
    (below : ∀ tag, Indexed pubTagIndex tag → subs tag = subTags tag)
    (more : ∀ tag, known tag → other tag) :
    SubTagsRight due other parent pubTagIndex subs := by
  refine ⟨?_, ?_, ?_⟩
  · intro tag name above wanted indexed up found
    rw [parents tag indexed] at up
    rw [below above ⟨name, found⟩]
    exact right.listed tag name above wanted indexed up found
  · intro tag sub indexed inside
    rw [below tag indexed] at inside
    exact more sub (right.inside tag sub indexed inside)
  · intro tag indexed
    rw [below tag indexed]
    exact right.once tag indexed

private theorem Kept.ready_newArtTag (kept : Kept store) {data : TagInput}
    (can : CanAdd store data.tagName data.rankScore) :
    Ready (store.newArtTag data).1 (store.newArtTag data).2 := by
  obtain ⟨free, orphans, numbers⟩ := can
  have older : ∀ tag, Indexed store.pubTagIndex tag → tag ≠ store.made :=
    fun tag indexed => Nat.ne_of_lt (kept.made tag indexed)
  have outside : ¬ Indexed store.pubTagIndex store.made := fun indexed => older _ indexed rfl
  have same : ∀ {α : Type} (field : Tag → α) (value : α) (tag : Tag),
      Indexed store.pubTagIndex tag → Function.update field store.made value tag = field tag :=
    fun field value tag indexed => Function.update_of_ne (older tag indexed) _ _
  unfold Store.newArtTag
  refine ⟨?_, outside, ?_, ?_, ?_, ?_, ?_, ?_, ?_, ?_, ?_, ?_⟩
  · dsimp only
    rw [Function.update_self]
    exact free
  · refine kept.index.congr (same _ _) fun tag indexed => ?_
    unfold Store.rank computeRank
    dsimp only
    rw [same _ _ tag indexed]
    exact climb_congr (same _ _) (fun _ _ _ _ => rfl) (fun name tag found => ⟨name, found⟩) 20
      indexed _
  · intro other inside
    have indexed := (kept.index.same other).mp inside
    dsimp only
    rw [same _ _ other indexed, Function.update_self]
    exact numbers other indexed
  · intro kind other apart
    dsimp only
    rw [Function.update_of_ne apart]
    exact kept.kinds kind other
  · intro kind inside
    exact absurd ((kept.kinds kind store.made).mp inside).1 outside
  · exact (kept.publicTags.rename fun tag top => same _ _ tag top.indexed).congr
      (topPublic_congr (same _ _) (same _ _))
  · exact kept.subTags.congr (same _ _) (same _ _) fun tag known => Or.inl known
  · intro sub inside
    dsimp only at inside
    rw [Function.update_self] at inside
    cases inside
  · dsimp only
    rw [Function.update_self]
    exact List.nodup_nil
  · intro other indexed
    dsimp only
    rw [same _ _ other indexed, Function.update_self]
    exact orphans other indexed
  · rintro other (indexed | rfl)
    · exact Nat.lt_succ_of_lt (kept.made other indexed)
    · exact Nat.lt_succ_self _

/-! ## Another name -/

/-- The index without the tag. -/
def Store.indexWithout (store : Store) (tag : Tag) : String → Option Tag :=
  Function.update store.pubTagIndex (store.tagName tag) none

theorem PublicRight.remove (store : Store) (self : Tag) {top : Tag → Prop}
    (right : PublicRight store.tagName top store.publicTags store.sortedPubTags)
    (distinct : ∀ tag, top tag → store.tagName tag = store.tagName self → tag = self) :
    ∃ publicTags sortedPubTags, store.removePublic self = { store with
        publicTags := publicTags
        sortedPubTags := sortedPubTags } ∧
      PublicRight store.tagName (fun tag => top tag ∧ tag ≠ self) publicTags sortedPubTags := by
  unfold Store.removePublic
  cases found : store.publicTags (store.tagName self) with
  | none =>
      have below : ∀ tag, top tag → tag ≠ self := by
        rintro tag listed rfl
        obtain ⟨name, there⟩ := (right.listed tag).mpr listed
        rw [right.named name tag there, there] at found
        cases found
      exact ⟨_, _, rfl, right.congr fun tag => and_iff_left_of_imp (below tag)⟩
  | some other =>
      have listed : top other := (right.listed other).mp ⟨_, found⟩
      obtain rfl := distinct other listed (right.named _ other found)
      have erased := removeArray_eq_erase fun tag inside =>
        distinct tag ((right.sorted tag).mp inside)
      refine ⟨_, _, rfl, ?_, ?_, ?_, ?_⟩
      · intro name tag there
        by_cases here : name = store.tagName other
        · rw [here, Function.update_self] at there
          cases there
        · rw [Function.update_of_ne here] at there
          exact right.named name tag there
      · intro tag
        rw [← right.listed tag]
        constructor
        · rintro ⟨name, there⟩
          by_cases here : name = store.tagName other
          · rw [here, Function.update_self] at there
            cases there
          · rw [Function.update_of_ne here] at there
            refine ⟨⟨name, there⟩, ?_⟩
            rintro rfl
            exact here (right.named name tag there).symm
        · rintro ⟨⟨name, there⟩, apart⟩
          refine ⟨name, ?_⟩
          rw [Function.update_of_ne]
          · exact there
          · rintro rfl
            rw [found] at there
            exact apart (Option.some.inj there).symm
      · intro tag
        rw [erased, right.once.mem_erase_iff, right.sorted, and_comm]
      · rw [erased]
        exact right.once.erase other

section Removal

variable (kept : Kept store) (indexed : Indexed store.pubTagIndex self)
include kept indexed

private theorem Kept.found_without {name : String} {tag : Tag} :
    store.indexWithout self name = some tag ↔ store.pubTagIndex name = some tag ∧ tag ≠ self := by
  have own := kept.index.found indexed
  by_cases here : name = store.tagName self
  · subst here
    rw [Store.indexWithout, Function.update_self, own]
    constructor
    · exact nofun
    · rintro ⟨same, apart⟩
      exact absurd (Option.some.inj same).symm apart
  · rw [Store.indexWithout, Function.update_of_ne here]
    refine (and_iff_left_of_imp fun found => ?_).symm
    rintro rfl
    exact here (kept.index.named name tag found).symm

private theorem Kept.indexed_without (tag : Tag) :
    Indexed (store.indexWithout self) tag ↔ Indexed store.pubTagIndex tag ∧ tag ≠ self := by
  constructor
  · rintro ⟨name, found⟩
    obtain ⟨there, apart⟩ := (kept.found_without indexed).mp found
    exact ⟨⟨name, there⟩, apart⟩
  · rintro ⟨⟨name, found⟩, apart⟩
    exact ⟨name, (kept.found_without indexed).mpr ⟨found, apart⟩⟩

private theorem Kept.removeArray_eq :
    removeArray store.tagName store.sortedIdxTags self = store.sortedIdxTags.erase self :=
  removeArray_eq_erase fun tag inside =>
    kept.distinct indexed tag ((kept.index.same tag).mp inside)

/-- What is left of the index, the parent and the tags below others when a tag is removed that has
no others below it. -/
theorem Kept.removeTag_spec (alone : ∀ sub ∈ store.subTags self, sub = self) :
    ∃ parent subTags, store.removeTag self = Store.removePublic { store with
        parentTag := Function.update store.parentTag self parent
        subTags := subTags
        pubTagIndex := store.indexWithout self
        sortedIdxTags := store.sortedIdxTags.erase self } self ∧
      SubTagsRight (fun _ => True) (Indexed store.pubTagIndex) store.parentTag
        (store.indexWithout self) subTags ∧ (subTags self).Sublist (store.subTags self) := by
  have found : ∀ name tag, store.indexWithout self name = some tag →
      store.pubTagIndex name = some tag :=
    fun name tag there => ((kept.found_without indexed).mp there).1
  have apart : ∀ tag, Indexed (store.indexWithout self) tag → tag ≠ self :=
    fun tag within => ((kept.indexed_without indexed tag).mp within).2
  have erase := kept.removeArray_eq indexed
  cases subs : store.subTags self with
  | nil =>
      obtain ⟨subTags, left, right, fewer⟩ :=
        leaveParent_spec store self kept.subTags (kept.distinct indexed)
      refine ⟨store.leftParent self, subTags, ?_, right.restrict found apart, subs ▸ fewer self⟩
      simp only [Store.removeTag, subs, List.foldl_nil, left, Store.removeIndex, erase]
      rfl
  | cons first rest =>
      have once := kept.subTags.once self indexed
      rw [subs] at alone once
      obtain rfl := alone first List.mem_cons_self
      have last : rest = [] := by
        refine List.eq_nil_iff_forall_not_mem.mpr fun other inside => ?_
        obtain rfl := alone other (List.mem_cons_of_mem _ inside)
        exact (List.nodup_cons.mp once).1 inside
      -- The tag is below itself: it is taken out of the index before it leaves its parent.
      obtain ⟨subTags, left, right, fewer⟩ := leaveParent_spec (store.removeIndex first) first
        (kept.subTags.restrict found fun _ _ => trivial) (kept.distinct indexed)
      refine ⟨(store.removeIndex first).leftParent first, subTags, ?_,
        right.restrict (fun _ _ => id) apart, subs ▸ fewer first⟩
      have again : removeArray store.tagName (store.sortedIdxTags.erase first) first =
          store.sortedIdxTags.erase first := by
        rw [removeArray_eq_erase, List.erase_of_not_mem kept.index.once.not_mem_erase]
        exact fun tag inside => kept.distinct indexed tag
          ((kept.index.same tag).mp (List.mem_of_mem_erase inside))
      simp only [Store.removeTag, subs, last, List.foldl_cons, List.foldl_nil, left]
      simp only [Store.removeIndex, erase, again, Store.indexWithout, Function.update_idem]

private theorem Kept.removeTag_tagKind (alone : ∀ sub ∈ store.subTags self, sub = self) :
    (store.removeTag self).tagKind = store.tagKind := by
  obtain ⟨parent, subTags, removed, -, -⟩ := kept.removeTag_spec indexed alone
  rw [removed, Store.removePublic]
  split
  · rfl
  · rfl

/-- The tags that are left are in order, whatever parent the removed one is given. -/
theorem Kept.index_without (alone : ∀ sub ∈ store.subTags self, sub = self)
    (parent : Option String) (name : String) :
    IndexRight (Function.update store.tagName self name)
      (computeRank store.rankScore (Function.update store.parentTag self parent)
        (store.indexWithout self)) (store.indexWithout self) (store.sortedIdxTags.erase self) := by
  have apart : ∀ tag, Indexed (store.indexWithout self) tag → tag ≠ self :=
    fun tag within => ((kept.indexed_without indexed tag).mp within).2
  have less : IndexRight store.tagName store.rank (store.indexWithout self)
      (store.sortedIdxTags.erase self) := by
    refine ⟨?_, ?_, kept.index.once.erase self, ?_⟩
    · exact fun called tag found =>
        kept.index.named called tag ((kept.found_without indexed).mp found).1
    · intro tag
      rw [kept.index.once.mem_erase_iff, kept.indexed_without indexed, kept.index.same, and_comm]
    · exact List.Pairwise.sublist List.erase_sublist kept.index.ranked
  refine less.congr (fun tag within => Function.update_of_ne (apart tag within) _ _) ?_
  intro tag within
  refine (climb_congr (fun other inside => ?_) (fun other called inside up => ?_)
    (fun called other found => ⟨called, found⟩) 20 within _).symm
  · exact (Function.update_of_ne (apart other inside) _ _).symm
  · -- No other tag has the removed one for a parent.
    rw [Function.update_of_ne (apart other inside)] at up
    refine (Function.update_of_ne ?_ _ _).symm
    rintro rfl
    have below := ((kept.indexed_without indexed other).mp inside).1
    refine apart other inside (alone other ?_)
    exact kept.subTags.listed other _ self trivial below up (kept.index.found indexed)

private theorem Kept.ready_rename {name : String} (can : CanRename store self name) :
    Ready { store.removeTag self with
      tagName := Function.update (store.removeTag self).tagName self name } self := by
  obtain ⟨free, orphans, alone⟩ := can
  obtain ⟨parent, subTags, removed, below, fewer⟩ := kept.removeTag_spec indexed alone
  obtain ⟨publicTags, sortedPubTags, hidden, public_⟩ := PublicRight.remove
    { store with
      parentTag := Function.update store.parentTag self parent
      subTags := subTags
      pubTagIndex := store.indexWithout self
      sortedIdxTags := store.sortedIdxTags.erase self } self kept.publicTags
    fun tag top => kept.distinct indexed tag top.indexed
  have within := kept.indexed_without indexed
  have apart : ∀ tag, Indexed (store.indexWithout self) tag → tag ≠ self :=
    fun tag inside => ((within tag).mp inside).2
  have other : ∀ {α : Type} (field : Tag → α) (value : α) (tag : Tag),
      Indexed (store.indexWithout self) tag → Function.update field self value tag = field tag :=
    fun field value tag inside => Function.update_of_ne (apart tag inside) _ _
  have named : { store.removeTag self with
      tagName := Function.update (store.removeTag self).tagName self name } = { store with
      tagName := Function.update store.tagName self name
      parentTag := Function.update store.parentTag self parent
      subTags := subTags
      pubTagIndex := store.indexWithout self
      sortedIdxTags := store.sortedIdxTags.erase self
      publicTags := publicTags
      sortedPubTags := sortedPubTags } := by rw [removed, hidden]
  rw [named]
  refine ⟨?_, ?_, kept.index_without indexed alone parent name, ?_, ?_, ?_, ?_, ?_, ?_, ?_, ?_, ?_⟩
  · refine Option.eq_none_iff_forall_ne_some.mpr fun tag found => ?_
    dsimp only at found
    rw [Function.update_self] at found
    obtain ⟨there, different⟩ := (kept.found_without indexed).mp found
    exact different (free tag there)
  · exact fun inside => apart self inside rfl
  · intro tag inside
    obtain ⟨different, before⟩ := kept.index.once.mem_erase_iff.mp inside
    have numbers := kept.index.ranked.numbers before ((kept.index.same self).mpr indexed) different
    rw [isSome_rank, isSome_rank] at numbers
    exact numbers
  · intro kind tag different
    rw [kept.kinds kind tag]
    exact and_congr_left' ((within tag).trans (and_iff_left different)).symm
  · exact fun kind inside => ((kept.kinds kind self).mp inside).2
  · refine (public_.rename fun tag top => Function.update_of_ne top.2 _ _).congr fun tag => ?_
    refine (topPublic_congr (fun _ _ => rfl) (other _ _) tag).trans ?_
    constructor
    · intro top
      exact ⟨⟨((within tag).mp top.indexed).1, top.top, top.owner⟩, apart tag top.indexed⟩
    · exact fun both => ⟨(within tag).mpr ⟨both.1.indexed, both.2⟩, both.1.top, both.1.owner⟩
  · refine below.congr (other _ _) (fun _ _ => rfl) fun tag known => ?_
    by_cases same : tag = self
    · exact Or.inr same
    · exact Or.inl ((within tag).mpr ⟨known, same⟩)
  · exact fun sub inside => alone sub (fewer.subset inside)
  · exact (kept.subTags.once self indexed).sublist fewer
  · intro tag inside up
    dsimp only at up
    rw [other _ _ tag inside, Function.update_self] at up
    exact apart tag inside (orphans tag ((within tag).mp inside).1 up)
  · rintro tag (inside | rfl)
    · exact kept.made tag ((within tag).mp inside).1
    · exact kept.made tag indexed

end Removal

/-! ## The calls -/

private theorem changeRank_same (store : Store) (self : Tag) (rank : Option Rank) :
    (store.changeRank self rank).tagName = store.tagName ∧
      (store.changeRank self rank).pubTagIndex = store.pubTagIndex ∧
        (store.changeRank self rank).parentTag = store.parentTag ∧
          (store.changeRank self rank).subTags = store.subTags ∧
            (store.changeRank self rank).tagKind = store.tagKind := by
  unfold Store.changeRank
  split
  · split <;> exact ⟨rfl, rfl, rfl, rfl, rfl⟩
  · exact ⟨rfl, rfl, rfl, rfl, rfl⟩

private theorem canRename_changeRank {name : String} (rank : Option Rank) :
    CanRename (store.changeRank self rank) self name ↔ CanRename store self name := by
  obtain ⟨-, index, parents, subs, -⟩ := changeRank_same store self rank
  constructor
  · rintro ⟨free, orphans, alone⟩
    rw [index] at free
    rw [index, parents] at orphans
    rw [subs] at alone
    exact ⟨free, orphans, alone⟩
  · rintro ⟨free, orphans, alone⟩
    refine ⟨?_, ?_, ?_⟩
    · rw [index]
      exact free
    · rw [index, parents]
      exact orphans
    · rw [subs]
      exact alone

theorem Kept.changeName (kept : Kept store) (indexed : Indexed store.pubTagIndex self)
    {tagName : Option String}
    (can : ∀ name, nonEmpty tagName = some name → CanRename store self name)
    (changed : store.changeName self tagName = some next) :
    Kept next ∧ next.tagKind = store.tagKind ∧ Indexed next.pubTagIndex self := by
  unfold Store.changeName at changed
  cases given : nonEmpty tagName with
  | none =>
      simp only [given, Option.some.injEq] at changed
      exact changed ▸ ⟨kept, rfl, indexed⟩
  | some name =>
      simp only [given] at changed
      have ready := kept.ready_rename indexed (can name given)
      obtain ⟨still, kinds, index⟩ := ready.addTag changed
      refine ⟨still, kinds.trans (kept.removeTag_tagKind indexed (can name given).alone), ?_⟩
      rw [index]
      exact (ready.indexed_iff self).mpr (Or.inr rfl)

theorem Kept.addNewPublicTag (kept : Kept store) {artRank : RawTag} (can : CanAddNew store artRank)
    {parentTag : Option String}
    (added : store.addNewPublicTag artRank parentTag = some next) : Kept next := by
  unfold Store.addNewPublicTag at added
  unfold CanAddNew at can
  cases found : store.pubTagIndex artRank.tagName with
  | some tag =>
      simp only [found, Option.some.injEq] at added can
      exact added ▸ kept.update found can
  | none =>
      simp only [found] at added can
      exact ((kept.ready_newArtTag can).addTag added).1

theorem Kept.addPubListTags (kept : Kept store) {tags : List RawTag}
    (can : CanAddAll store tags) (added : store.addPubListTags tags = some next) : Kept next := by
  induction tags generalizing store with
  | nil =>
      cases added
      exact kept
  | cons tag tags ih =>
      obtain ⟨between, first, later⟩ := Option.bind_eq_some_iff.mp added
      exact ih (kept.addNewPublicTag can.1 first) (can.2 between first) later

theorem Kept.moveTag (kept : Kept store) (indexed : Indexed store.pubTagIndex self)
    {parent : Option String}
    (can : ∀ name, nonEmpty parent = some name →
      CanMove store self (store.movedParent self name)) :
    Kept (store.moveTag self parent) ∧ (store.moveTag self parent).tagKind = store.tagKind := by
  cases given : nonEmpty parent with
  | none =>
      have same : store.moveTag self parent = store := by simp only [Store.moveTag, given]
      rw [same]
      exact ⟨kept, rfl⟩
  | some name =>
      have moved := kept.moveTag_moved indexed given
      refine ⟨kept.moved (can name given) moved, ?_⟩
      obtain ⟨subTags, eq, -⟩ := moved
      rw [eq]

theorem Kept.changeTagValue (kept : Kept store) {data : TagValue}
    (can : ∀ self, store.pubTagIndex data.curTag = some self → CanChange store self data)
    {name : String} (changed : store.changeTagValue data = some (next, name)) : Kept next := by
  unfold Store.changeTagValue at changed
  cases found : store.pubTagIndex data.curTag with
  | none =>
      simp only [found, Option.some.injEq, Prod.mk.injEq] at changed
      exact changed.1 ▸ kept
  | some self =>
      simp only [found] at changed
      obtain ⟨renamed, change, same⟩ := Option.map_eq_some_iff.mp changed
      obtain ⟨rename, move, kind⟩ := can self found
      obtain ⟨-, index, -, -, kinds⟩ := changeRank_same store self data.rank
      have ranked := kept.changeRank ⟨_, found⟩ data.rank
      have indexed : Indexed (store.changeRank self data.rank).pubTagIndex self :=
        ⟨_, index.symm ▸ found⟩
      obtain ⟨named, namedKinds, still⟩ := ranked.changeName indexed
        (fun name given => (canRename_changeRank data.rank).mpr (rename name given)) change
      obtain ⟨moved, movedKinds⟩ := named.moveTag still fun name given =>
        move renamed name change given
      rw [← (Prod.mk.inj same).1]
      refine moved.updateKind ?_
      rw [movedKinds, namedKinds, kinds]
      exact kind

theorem removePublicTag_of_absent {tagName : String} (absent : store.pubTagIndex tagName = none) :
    store.removePublicTag tagName = store := by
  simp only [Store.removePublicTag, absent]

private theorem removePubListTags_of_absent {tags : List String}
    (absent : ∀ tagName ∈ tags, store.pubTagIndex tagName = none) :
    store.removePubListTags tags = store := by
  induction tags with
  | nil => rfl
  | cons tagName tags ih =>
      have first := removePublicTag_of_absent (absent tagName List.mem_cons_self)
      rw [Store.removePubListTags, List.foldl_cons, first]
      exact ih fun other inside => absent other (List.mem_cons_of_mem _ inside)

/-- A call that meets its condition keeps the invariant. -/
theorem Kept.call (kept : Kept store) {call : Call} (meets : Meets store call)
    (called : store.call call = some next) : Kept next := by
  cases call with
  | addTagInput tag => exact ((kept.ready_newArtTag meets).addTag called).1
  | addPublicTag artRank parentTag =>
      simp only [Store.call, Store.addPublicTag] at called
      cases found : store.pubTagIndex artRank.tagName with
      | some tag =>
          simp only [found, Option.some.injEq] at called
          exact called ▸ kept
      | none =>
          simp only [found] at called
          refine kept.addNewPublicTag ?_ called
          simp only [CanAddNew, found]
          exact meets found
  | changeParent tagName parentName =>
      cases called
      cases found : store.pubTagIndex tagName with
      | none =>
          have same : store.changeParent tagName parentName = store := by
            simp only [Store.changeParent, found]
          exact same.symm ▸ kept
      | some self => exact kept.moved (meets self found) (kept.changeParent_moved found parentName)
  | changeTagValue data =>
      obtain ⟨⟨changed, name⟩, value, rfl⟩ := Option.map_eq_some_iff.mp called
      exact kept.changeTagValue meets value
  | removePublicTag tagName =>
      cases called
      exact (removePublicTag_of_absent meets).symm ▸ kept
  | addPubListTags tags => exact kept.addPubListTags meets called
  | removePubListTags tags =>
      cases called
      exact (removePubListTags_of_absent meets).symm ▸ kept

theorem Kept.calls (kept : Kept store) {calls : List Call} (meets : MeetsAll store calls)
    (ran : calls.foldlM Store.call store = some next) : Kept next := by
  induction calls generalizing store with
  | nil =>
      cases ran
      exact kept
  | cons call calls ih =>
      obtain ⟨between, first, later⟩ := Option.bind_eq_some_iff.mp ran
      exact ih (kept.call meets.2.1 first) (meets.2.2 between first) later

/-- After any calls that meet their conditions the store is as it should be. -/
theorem holds_of_meetsAll (calls : List Call) (store : Store) (meets : MeetsAll init calls)
    (ran : run calls = some store) : Holds store :=
  (kept_init.calls meets ran).holds

/-- A public tag of some rank, with the parent. -/
def tagInput (tagName : String) (rank : Int) (parent : Option String) : TagInput where
  tagName := tagName
  userUuid := some publicUuid
  rankScore := some (.number rank)
  parentTag := parent
  tagKind := some "news"
  routeLink := none

def newsStore : Store := ((init.call (.addTagInput (tagInput "news" 10 none))).getD init)

theorem newsStore_eq : init.call (.addTagInput (tagInput "news" 10 none)) = some newsStore := rfl

theorem indexed_newsStore {tag : Tag} (indexed : Indexed newsStore.pubTagIndex tag) : tag = 0 := by
  have index : newsStore.pubTagIndex = Function.update init.pubTagIndex "news" (some 0) := rfl
  rw [index, indexed_update rfl] at indexed
  rcases indexed with ⟨name, found⟩ | rfl
  · cases found
  · rfl

private theorem canAdd_newsStore : CanAdd newsStore "sports" (some (.number 5)) where
  free := rfl
  orphans := by
    intro tag indexed
    rw [indexed_newsStore indexed]
    decide
  numbers := by
    intro tag indexed
    rw [indexed_newsStore indexed]
    decide

theorem holds_of_meetsAll_pair :
    ∃ store, run [.addTagInput (tagInput "news" 10 none),
      .addTagInput (tagInput "sports" 5 (some "news"))] = some store ∧ Holds store := by
  refine ⟨_, rfl, holds_of_meetsAll [.addTagInput (tagInput "news" 10 none),
    .addTagInput (tagInput "sports" 5 (some "news"))] _ ⟨by decide, ⟨rfl, ?_, ?_⟩, ?_⟩ rfl⟩
  · rintro tag ⟨name, found⟩
    cases found
  · rintro tag ⟨name, found⟩
    cases found
  · intro next called
    cases newsStore_eq.symm.trans called
    exact ⟨by decide, canAdd_newsStore, fun _ _ => trivial⟩

/-- A tag that is removed stays in the list of its kind. -/
theorem removed_not_holds : ∃ store, run [.addTagInput (tagInput "news" 10 none),
    .removePublicTag "news"] = some store ∧ ¬ Holds store := by
  refine ⟨_, rfl, fun holds => ?_⟩
  obtain ⟨⟨name, found⟩, -⟩ := (holds.kinds "news" 0).mp (by decide)
  have index : (newsStore.removePublicTag "news").pubTagIndex =
      Function.update newsStore.pubTagIndex "news" none := rfl
  have there : (newsStore.removePublicTag "news").pubTagIndex name = some 0 := found
  rw [index] at there
  by_cases here : name = "news"
  · rw [here, Function.update_self] at there
    cases there
  · have before : newsStore.pubTagIndex =
        Function.update init.pubTagIndex "news" (some 0) := rfl
    rw [Function.update_of_ne here, before, Function.update_of_ne here] at there
    cases there

end Tvntd.ArticleTagStore
