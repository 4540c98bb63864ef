import Tvntd.Front.TagLinks

/-! # Walks along the tags

For a tag with a route `_addTag` goes up from parent to parent, and
`getPublishedArticles` goes down from list to list. Neither knows where it has
been. Both come to an end where no links lead back, which the calls do not look
at: a tag can be given itself or a tag below it for a parent.
-/

namespace Tvntd.ArticleTagStore

open Edges Relation

abbrev Uuid := String

/-- An article is found once, for the first tag that has it. -/
def addFound (tag : Tag) (artUuids : List (Tag × Uuid)) (uuid : Uuid) : List (Tag × Uuid) :=
  if uuid ∈ artUuids.map Prod.snd then artUuids else artUuids ++ [(tag, uuid)]

/-- `getPublishedArticles`, where it goes down less than `turns` times; `uuidDict` has the uuids of
the articles that are found. -/
def Store.getPublishedArticles (store : Store) (sortedArts : Tag → List Uuid) :
    Nat → String → List (Tag × Uuid) → Option (List (Tag × Uuid))
  | 0, _, _ => none
  | turns + 1, tagName, artUuids =>
      match store.pubTagIndex tagName with
      | none => some artUuids
      | some tag =>
          (store.subTags tag).foldlM
            (fun artUuids sub =>
              store.getPublishedArticles sortedArts turns (store.tagName sub) artUuids)
            ((sortedArts tag).foldl (addFound tag) artUuids)

/-- `_addTag` up to its walk. -/
def Store.fileTag (store : Store) (tagObj : Tag) : Option Store := do
  let store ← store.addIndex tagObj
  let store ← store.addPlace tagObj
  store.addSortedTagKind tagObj

/-- The four calls. -/
inductive Edit
  | addTagInput (tag : TagInput)
  | addPublicTag (artRank : RawTag) (parentTag : Option String)
  | changeParent (tagName : String) (parentName : Option String)
  | changeTagValue (data : TagValue)

def Edit.call : Edit → Call
  | .addTagInput tag => .addTagInput tag
  | .addPublicTag artRank parentTag => .addPublicTag artRank parentTag
  | .changeParent tagName parentName => .changeParent tagName parentName
  | .changeTagValue data => .changeTagValue data

/-- What `addPublicTag` makes a tag of. -/
def RawTag.input (artRank : RawTag) (parentTag : Option String) : TagInput where
  tagName := artRank.tagName
  userUuid := artRank.authorUuid
  rankScore := RankedTags.either artRank.rank artRank.rankScore
  parentTag := parentTag
  tagKind := artRank.tagKind
  routeLink := artRank.routeLink

/-- The tag removed, under another name. -/
def Store.renamed (store : Store) (self : Tag) (tagName : String) : Store :=
  let store := store.removeTag self
  { store with tagName := Function.update store.tagName self tagName }

/-- The store and the tag that a call gives to `_addTag`. -/
def Store.toAdd (store : Store) : Edit → Option (Store × Tag)
  | .addTagInput tag => some (store.newArtTag tag)
  | .addPublicTag artRank parentTag =>
      match store.pubTagIndex artRank.tagName with
      | none => some (store.newArtTag (artRank.input parentTag))
      | some _ => none
  | .changeParent _ _ => none
  | .changeTagValue data =>
      match store.pubTagIndex data.curTag, nonEmpty data.tagName with
      | some self, some tagName =>
          some ((store.changeRank self data.rank).renamed self tagName, self)
      | _, _ => none

/-! ## What is asked of the store -/

/-- No links lead back, and the walks from every tag end. -/
structure Sound (store : Store) : Prop where
  parents : Acyclic store.links.Up
  subTags : Acyclic store.links.Sub
  routes : ∀ tag, ∃ turns, (store.topTag turns tag).isSome
  articles : ∀ sortedArts tagName artUuids, ∃ turns,
    (store.getPublishedArticles sortedArts turns tagName artUuids).isSome

/-- The walk of the call itself ends in its turns. -/
def Walks (store : Store) (edit : Edit) : Prop :=
  ∀ before tag filed, store.toAdd edit = some (before, tag) → before.fileTag tag = some filed →
    (filed.topTag (filed.made + 1) tag).isSome

/-- All of this, in every store that the calls lead to. -/
def Stays (store : Store) : List Edit → Prop
  | [] => Sound store
  | edit :: edits => Sound store ∧ Walks store edit ∧
      ∀ next, store.call edit.call = some next → Stays next edits

/-! ## When the calls keep to it -/

/-- A new tag can have the parent. Under a free name, the way up from the parent must not lead to a
tag that waits for a parent of that name; under a name that is taken, the way down from the tag that
has it must not lead to the parent. -/
structure CanFile (store : Store) (tagName : String) (parentTag : Option String) : Prop where
  other : store.pubTagIndex tagName = none → parentTag ≠ some tagName
  free : store.pubTagIndex tagName = none → ∀ name parent, parentTag = some name →
    store.pubTagIndex name = some parent →
      ∀ tag, ReflTransGen store.links.Up parent tag → store.parentTag tag ≠ some tagName
  taken : ∀ next, store.pubTagIndex tagName = some next → ∀ name parent, parentTag = some name →
    store.pubTagIndex name = some parent → ¬ ReflTransGen store.links.Next next parent

/-- A tag that has left its parent can be given another one: the way up from it does not lead to the
tag, and the ways down from the tag do not lead to it. -/
structure CanAttach (store : Store) (tag parent : Tag) : Prop where
  up : ¬ ReflTransGen store.links.Up parent tag
  sub : ¬ ReflTransGen store.links.Sub tag parent
  next : ∀ next, store.pubTagIndex (store.tagName tag) = some next →
    ¬ ReflTransGen store.links.Next next parent

/-- The same of the parent of a name, if it is there. -/
def CanFollow (store : Store) (self : Tag) (parentName : Option String) : Prop :=
  ∀ name parent, parentName = some name → store.pubTagIndex name = some parent →
    CanAttach (store.leaveParent self) self parent

/-- A tag can be given the name: no tag of its list has it, and the tag does not wait for a parent
of that name. -/
structure CanName (store : Store) (tag : Tag) (tagName : String) : Prop where
  alone : ∀ sub ∈ store.subTags tag, store.tagName sub ≠ tagName
  known : store.parentTag tag = some tagName → store.pubTagIndex tagName ≠ none

/-- The condition for a call. -/
def Allowed (store : Store) : Edit → Prop
  | .addTagInput tag => CanFile store tag.tagName (nonEmpty tag.parentTag)
  | .addPublicTag artRank parentTag => store.pubTagIndex artRank.tagName = none →
      CanFile store artRank.tagName (nonEmpty parentTag)
  | .changeParent tagName parentName => ∀ self, store.pubTagIndex tagName = some self →
      CanFollow store self (nonEmpty parentName)
  | .changeTagValue data => ∀ self, store.pubTagIndex data.curTag = some self →
      (∀ tagName, nonEmpty data.tagName = some tagName → CanName store self tagName) ∧
        ∀ next, (store.changeRank self data.rank).changeName self data.tagName = some next →
          CanFollow next self (nonEmpty data.parent)

/-- All calls meet their conditions, each in the store that the ones before leave, and give no name
that every object inherits. -/
def AllowedAll (store : Store) : List Edit → Prop
  | [] => True
  | edit :: edits => edit.call.Own ∧ Allowed store edit ∧
      ∀ next, store.call edit.call = some next → AllowedAll next edits

variable {store : Store} {tag : Tag}

/-! ## The walks -/

section Walks

/-- A tag above `height` others is at the top of its chain after so many turns. -/
theorem isSome_topTag {height : Tag → Nat}
    (lower : ∀ tag parent, store.links.Up tag parent → height parent < height tag)
    {turns : Nat} (enough : height tag < turns) : (store.topTag turns tag).isSome := by
  induction turns generalizing tag with
  | zero => exact absurd enough (Nat.not_lt_zero _)
  | succ turns ih =>
      rw [Store.topTag]
      cases up : store.parentTag tag with
      | none => rfl
      | some name =>
          simp only
          cases found : store.pubTagIndex name with
          | none => rfl
          | some parent =>
              have below := lower tag parent ⟨name, up, found⟩
              exact ih (by omega)

private theorem isSome_foldlM {α β : Type} {step : β → α → Option β} (list : List α)
    (each : ∀ state, ∀ elm ∈ list, (step state elm).isSome) (state : β) :
    (list.foldlM step state).isSome := by
  induction list generalizing state with
  | nil => rfl
  | cons elm rest ih =>
      obtain ⟨next, stepped⟩ := Option.isSome_iff_exists.mp (each state elm List.mem_cons_self)
      rw [List.foldlM_cons, stepped]
      exact ih (fun state elm inside => each state elm (List.mem_cons_of_mem _ inside)) next

private theorem isSome_getPublishedArticles {height : Tag → Nat}
    (lower : ∀ tag next, store.links.Next tag next → height next < height tag)
    (sortedArts : Tag → List Uuid) {turns : Nat} {tagName : String}
    (enough : ∀ tag, store.pubTagIndex tagName = some tag → height tag + 1 < turns)
    (positive : 0 < turns) (artUuids : List (Tag × Uuid)) :
    (store.getPublishedArticles sortedArts turns tagName artUuids).isSome := by
  induction turns generalizing tagName artUuids with
  | zero => exact absurd positive (Nat.lt_irrefl 0)
  | succ turns ih =>
      rw [Store.getPublishedArticles]
      cases found : store.pubTagIndex tagName with
      | none => rfl
      | some tag =>
          have here := enough tag found
          refine isSome_foldlM _ (fun artUuids sub inside => ih ?_ (by omega) artUuids) _
          intro next leads
          have below := lower tag next ⟨⟨tagName, found⟩, sub, inside, leads⟩
          omega

theorem Links.Tied.topTag_ends (tied : store.links.Tied) (tag : Tag) :
    (store.topTag (store.made + 1) tag).isSome := by
  obtain ⟨height, bounded, lower⟩ := tied.parents.exists_height (Finset.range store.made)
    fun tag parent ⟨name, _, found⟩ => Finset.mem_range.mpr (tied.made name parent found)
  have most := bounded tag
  rw [Finset.card_range] at most
  exact isSome_topTag lower (Nat.lt_succ_of_le most)

theorem Links.Tied.sound (tied : store.links.Tied) : Sound store where
  parents := tied.parents
  subTags := tied.subTags
  routes := fun tag => ⟨_, tied.topTag_ends tag⟩
  articles := by
    intro sortedArts tagName artUuids
    obtain ⟨height, bounded, lower⟩ := tied.nexts.exists_height (Finset.range store.made)
      fun tag next ⟨_, sub, _, found⟩ => Finset.mem_range.mpr (tied.made _ next found)
    refine ⟨store.made + 2, isSome_getPublishedArticles lower sortedArts ?_ (Nat.succ_pos _) _⟩
    intro tag found
    have most := bounded tag
    rw [Finset.card_range] at most
    omega

end Walks

end Tvntd.ArticleTagStore
