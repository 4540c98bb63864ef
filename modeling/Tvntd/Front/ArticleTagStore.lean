import Tvntd.Front.RankedTags
import Tvntd.Lib.Properties

/-! # The public tags of the client

`ArticleTagStore` keeps its tags by name, by rank, by kind and by owner, and every
tag has a list of the tags below it. A tag is an object: its fields are changed
while it is in these lists, which other code then has to follow.

The maps are plain objects, and the ones here hold what they were given. Under a name
like `constructor` the code finds a function that it takes for a tag or a list, so the
calls are asked to give no such name.
-/

namespace Tvntd.ArticleTagStore

open RankedTags

abbrev Tag := Nat

def publicUuid : String := "00000000-ffff-0000-ffff-00ff00ff00ff"

/-- The store, and the fields of the tags that were made, which are the numbers less than `made`. A
list that is not there is empty; undefined is a key like others. Names that every object inherits
are not in the maps. -/
structure Store where
  made : Nat
  tagName : Tag → String
  userUuid : Tag → Option String
  rankScore : Tag → Option Rank
  parentTag : Tag → Option String
  tagKind : Tag → Option String
  routeLink : Tag → Option String
  subTags : Tag → List Tag
  routeMap : Option String → Option Tag
  publicTags : String → Option Tag
  pubTagIndex : String → Option Tag
  sortedPubTags : List Tag
  sortedIdxTags : List Tag
  sortedTagKind : String → List Tag
  sortedByOwner : Option String → List Tag

/-- What `addTagInput` is given. -/
structure TagInput where
  tagName : String
  userUuid : Option String
  rankScore : Option Rank
  parentTag : Option String
  tagKind : Option String
  routeLink : Option String

/-- What `addPublicTag` and `addPubListTags` are given. -/
structure RawTag where
  tagName : String
  authorUuid : Option String
  rank : Option Rank
  rankScore : Option Rank
  parentTag : Option String
  tagKind : Option String
  routeLink : Option String

/-- What `changeTagValue` is given. -/
structure TagValue where
  curTag : String
  parent : Option String
  rank : Option Rank
  tagName : Option String
  tagKind : Option String

def init : Store where
  made := 0
  tagName := fun _ => ""
  userUuid := fun _ => none
  rankScore := fun _ => none
  parentTag := fun _ => none
  tagKind := fun _ => none
  routeLink := fun _ => none
  subTags := fun _ => []
  routeMap := fun _ => none
  publicTags := fun _ => none
  pubTagIndex := fun _ => none
  sortedPubTags := []
  sortedIdxTags := []
  sortedTagKind := fun _ => []
  sortedByOwner := fun _ => []

/-- The text that is not empty. -/
def nonEmpty (text : Option String) : Option String := text.filter fun text => text ≠ ""

/-- `removeArray` with `_compareTagName`. -/
def removeArray (tagName : Tag → String) (array : List Tag) (tag : Tag) : List Tag :=
  array.eraseP fun other => tagName other = tagName tag

namespace Store

def rank (store : Store) : Tag → Option Int :=
  computeRank store.rankScore store.parentTag store.pubTagIndex

/-! ## Tags -/

/-- `newArtTag`, of data without tags below it. -/
def newArtTag (store : Store) (data : TagInput) : Store × Tag :=
  ({ store with
      made := store.made + 1
      tagName := Function.update store.tagName store.made data.tagName
      userUuid := Function.update store.userUuid store.made data.userUuid
      rankScore := Function.update store.rankScore store.made data.rankScore
      parentTag := Function.update store.parentTag store.made (nonEmpty data.parentTag)
      tagKind := Function.update store.tagKind store.made data.tagKind
      routeLink := Function.update store.routeLink store.made data.routeLink
      subTags := Function.update store.subTags store.made [] }, store.made)

def update (store : Store) (self : Tag) (artRank : RawTag) : Store :=
  { store with
    tagName := Function.update store.tagName self artRank.tagName
    rankScore := Function.update store.rankScore self (artRank.rankScore.or (store.rankScore self))
    parentTag := Function.update store.parentTag self (artRank.parentTag.or (store.parentTag self))
    tagKind := Function.update store.tagKind self (artRank.tagKind.or (store.tagKind self))
    routeLink :=
      Function.update store.routeLink self (artRank.routeLink.or (store.routeLink self)) }

def removeSubTag (store : Store) (self sub : Tag) : Store :=
  { store with
    subTags := Function.update store.subTags self
      (removeArray store.tagName (store.subTags self) sub) }

def addSubTag (store : Store) (self sub : Tag) : Store :=
  let store := store.removeSubTag self sub
  { store with subTags := Function.update store.subTags self (store.subTags self ++ [sub]) }

def attachParent (store : Store) (self : Tag) (parentObj : Option Tag) : Store :=
  match parentObj with
  | none => store
  | some parentObj =>
      let store := store.addSubTag parentObj self
      { store with
        parentTag := Function.update store.parentTag self (some (store.tagName parentObj)) }

def detachParent (store : Store) (self : Tag) (parentObj : Option Tag) : Store :=
  match parentObj with
  | none => store
  | some parentObj =>
      let store := store.removeSubTag parentObj self
      { store with parentTag := Function.update store.parentTag self none }

/-- Away from the parent, if it is there. -/
def leaveParent (store : Store) (self : Tag) : Store :=
  match store.parentTag self with
  | none => store
  | some parentTag => store.detachParent self (store.pubTagIndex parentTag)

/-! ## Adding and removing -/

/-- Under its name, unless there is a tag with it. -/
def addIndex (store : Store) (tagObj : Tag) : Option Store :=
  match store.pubTagIndex (store.tagName tagObj) with
  | some _ => some store
  | none =>
      let store := { store with
        pubTagIndex := Function.update store.pubTagIndex (store.tagName tagObj) (some tagObj) }
      (insertTag store.rank tagObj store.sortedIdxTags).map fun tags =>
        { store with sortedIdxTags := tags }

/-- Below its parent, or among the public tags, or those of its owner. -/
def addPlace (store : Store) (tagObj : Tag) : Option Store :=
  match store.parentTag tagObj with
  | some parentTag =>
      match store.pubTagIndex parentTag with
      | none => some store
      | some parent => some (store.addSubTag parent tagObj)
  | none =>
      if store.userUuid tagObj = some publicUuid then
        (insertTag store.rank tagObj store.sortedPubTags).map fun tags =>
          { store with
            publicTags := Function.update store.publicTags (store.tagName tagObj) (some tagObj)
            sortedPubTags := tags }
      else
        (insertTag store.rank tagObj (store.sortedByOwner (store.userUuid tagObj))).map fun tags =>
          { store with
            sortedByOwner := Function.update store.sortedByOwner (store.userUuid tagObj) tags }

def addSortedTagKind (store : Store) (tagObj : Tag) : Option Store :=
  let index := (store.tagKind tagObj).getD "blog"
  (insertTag store.rank tagObj (store.sortedTagKind index)).map fun tags =>
    { store with sortedTagKind := Function.update store.sortedTagKind index tags }

/-- The last tag of the chain of parents. A chain of more tags than there are has no end. -/
def topTag (store : Store) : Nat → Tag → Option Tag
  | 0, _ => none
  | turns + 1, tagObj =>
      match store.parentTag tagObj with
      | none => some tagObj
      | some parentTag =>
          match store.pubTagIndex parentTag with
          | none => some tagObj
          | some parent => store.topTag turns parent

/-- For a tag with a route, the last tag of its chain is put under its own. -/
def addRoute (store : Store) (tagObj : Tag) : Option Store :=
  match store.routeLink tagObj with
  | none => some store
  | some _ =>
      (store.topTag (store.made + 1) tagObj).map fun top =>
        { store with routeMap := Function.update store.routeMap (store.routeLink top) (some top) }

/-- `_addTag`; `none` where it goes wrong or does not end. -/
def addTag (store : Store) (tagObj : Tag) : Option Store := do
  let store ← store.addIndex tagObj
  let store ← store.addPlace tagObj
  let store ← store.addSortedTagKind tagObj
  store.addRoute tagObj

/-- Out of the index and the list of it. -/
def removeIndex (store : Store) (tagObj : Tag) : Store :=
  { store with
    pubTagIndex := Function.update store.pubTagIndex (store.tagName tagObj) none
    sortedIdxTags := removeArray store.tagName store.sortedIdxTags tagObj }

def removePublic (store : Store) (tagObj : Tag) : Store :=
  match store.publicTags (store.tagName tagObj) with
  | none => store
  | some _ =>
      { store with
        publicTags := Function.update store.publicTags (store.tagName tagObj) none
        sortedPubTags := removeArray store.tagName store.sortedPubTags tagObj }

/-- `_removeTag` -/
def removeTag (store : Store) (tagObj : Tag) : Store :=
  let store := (store.subTags tagObj).foldl removeIndex store
  ((store.leaveParent tagObj).removeIndex tagObj).removePublic tagObj

def addNewPublicTag (store : Store) (artRank : RawTag) (parentTag : Option String) :
    Option Store :=
  match store.pubTagIndex artRank.tagName with
  | some tag => some (store.update tag artRank)
  | none =>
      let (store, tag) := store.newArtTag
        { tagName := artRank.tagName
          userUuid := artRank.authorUuid
          rankScore := either artRank.rank artRank.rankScore
          parentTag := parentTag
          tagKind := artRank.tagKind
          routeLink := artRank.routeLink }
      store.addTag tag

def resortTags (store : Store) : Store :=
  { store with
    sortedIdxTags := sortTags store.rank store.sortedIdxTags
    sortedPubTags := sortTags store.rank store.sortedPubTags }

/-! ## The calls -/

def addTagInput (store : Store) (tag : TagInput) : Option Store :=
  let (store, tag) := store.newArtTag tag
  store.addTag tag

/-- A tag that is there is given the article, and is not changed otherwise. -/
def addPublicTag (store : Store) (artRank : RawTag) (parentTag : Option String) : Option Store :=
  match store.pubTagIndex artRank.tagName with
  | some _ => some store
  | none => store.addNewPublicTag artRank parentTag

def changeParent (store : Store) (tagName : String) (parentName : Option String) : Store :=
  match store.pubTagIndex tagName with
  | none => store
  | some self =>
      let parentName := nonEmpty parentName
      let store := store.leaveParent self
      let store := { store with parentTag := Function.update store.parentTag self parentName }
      match parentName with
      | none => store
      | some parentName => store.attachParent self (store.pubTagIndex parentName)

/-- `changeTagValue` with a rank that is a number. -/
def changeRank (store : Store) (self : Tag) (rank : Option Rank) : Store :=
  match rank with
  | some (.text text) =>
      match text, parseInt rank with
      | "", _ => store
      | _, none => store
      | _, some value =>
          resortTags { store with
            rankScore := Function.update store.rankScore self (some (.number value)) }
  | _ => store

def changeName (store : Store) (self : Tag) (tagName : Option String) : Option Store :=
  match nonEmpty tagName with
  | none => some store
  | some tagName =>
      let store := store.removeTag self
      addTag { store with tagName := Function.update store.tagName self tagName } self

def moveTag (store : Store) (self : Tag) (parent : Option String) : Store :=
  match nonEmpty parent with
  | none => store
  | some parent =>
      let store := store.leaveParent self
      store.attachParent self (store.pubTagIndex parent)

/-- The store, and the name that is returned. -/
def changeTagValue (store : Store) (data : TagValue) : Option (Store × String) :=
  match store.pubTagIndex data.curTag with
  | none => some (store, data.curTag)
  | some self =>
      ((store.changeRank self data.rank).changeName self data.tagName).map fun store =>
        let store := store.moveTag self data.parent
        ({ store with tagKind := Function.update store.tagKind self data.tagKind },
          store.tagName self)

def removePublicTag (store : Store) (tagName : String) : Store :=
  match store.pubTagIndex tagName with
  | none => store
  | some self => store.removeTag self

def addPubListTags (store : Store) (tags : List RawTag) : Option Store :=
  tags.foldlM (fun store tag => store.addNewPublicTag tag tag.parentTag) store

def removePubListTags (store : Store) (tags : List String) : Store :=
  tags.foldl removePublicTag store

end Store

/-- The calls, with the article of `addPublicTag` left out. -/
inductive Call
  | addTagInput (tag : TagInput)
  | addPublicTag (artRank : RawTag) (parentTag : Option String)
  | changeParent (tagName : String) (parentName : Option String)
  | changeTagValue (data : TagValue)
  | removePublicTag (tagName : String)
  | addPubListTags (tags : List RawTag)
  | removePubListTags (tags : List String)

def Store.call (store : Store) : Call → Option Store
  | .addTagInput tag => store.addTagInput tag
  | .addPublicTag artRank parentTag => store.addPublicTag artRank parentTag
  | .changeParent tagName parentName => some (store.changeParent tagName parentName)
  | .changeTagValue data => (store.changeTagValue data).map Prod.fst
  | .removePublicTag tagName => some (store.removePublicTag tagName)
  | .addPubListTags tags => store.addPubListTags tags
  | .removePubListTags tags => some (store.removePubListTags tags)

/-- The texts of a record that become names in the maps. -/
def RawTag.names (artRank : RawTag) : List String :=
  artRank.tagName :: (artRank.authorUuid.toList ++ artRank.parentTag.toList ++
    artRank.tagKind.toList ++ artRank.routeLink.toList)

/-- The texts that a call looks up in the maps, or leaves in tags for later calls to look up. -/
def Call.names : Call → List String
  | .addTagInput tag => tag.tagName :: (tag.userUuid.toList ++ tag.parentTag.toList ++
      tag.tagKind.toList ++ tag.routeLink.toList)
  | .addPublicTag artRank parentTag => artRank.names ++ parentTag.toList
  | .changeParent tagName parentName => tagName :: parentName.toList
  | .changeTagValue data =>
      data.curTag :: (data.parent.toList ++ data.tagName.toList ++ data.tagKind.toList)
  | .removePublicTag tagName => [tagName]
  | .addPubListTags tags => tags.flatMap RawTag.names
  | .removePubListTags tags => tags

/-- No object inherits one of the names, so that the maps have for it what they were given. -/
def Call.Own (call : Call) : Prop := ∀ name ∈ call.names, ¬ Properties.Inherited name

instance (call : Call) : Decidable call.Own :=
  inferInstanceAs (Decidable (∀ name ∈ call.names, ¬ Properties.Inherited name))

/-- The store after the calls, if none of them goes wrong. -/
def run (calls : List Call) : Option Store := calls.foldlM Store.call init

/-! ## What is asked of the store -/

def Indexed (pubTagIndex : String → Option Tag) (tag : Tag) : Prop :=
  ∃ name, pubTagIndex name = some tag

/-- The index and the ranked list hold the same tags, each once and under its name. -/
structure IndexRight (tagName : Tag → String) (rank : Tag → Option Int)
    (pubTagIndex : String → Option Tag) (sortedIdxTags : List Tag) : Prop where
  named : ∀ name tag, pubTagIndex name = some tag → tagName tag = name
  same : ∀ tag, tag ∈ sortedIdxTags ↔ Indexed pubTagIndex tag
  once : sortedIdxTags.Nodup
  ranked : Ranked rank sortedIdxTags

def kindOf (tagKind : Option String) : String := tagKind.getD "blog"

/-- The tags of the index are in the lists of their kinds, and no others are in any. -/
def KindsRight (tagKind : Tag → Option String) (pubTagIndex : String → Option Tag)
    (sortedTagKind : String → List Tag) : Prop :=
  ∀ kind tag, tag ∈ sortedTagKind kind ↔ Indexed pubTagIndex tag ∧ kindOf (tagKind tag) = kind

/-- A tag of the index that is the public user's, without a parent. -/
structure TopPublic (userUuid parentTag : Tag → Option String)
    (pubTagIndex : String → Option Tag) (tag : Tag) : Prop where
  indexed : Indexed pubTagIndex tag
  top : parentTag tag = none
  owner : userUuid tag = some publicUuid

/-- All views have the tags of the index, and each in its order. -/
structure Holds (store : Store) : Prop where
  index : IndexRight store.tagName store.rank store.pubTagIndex store.sortedIdxTags
  kinds : KindsRight store.tagKind store.pubTagIndex store.sortedTagKind
  publicTags : ∀ tag, (∃ name, store.publicTags name = some tag) ↔
    TopPublic store.userUuid store.parentTag store.pubTagIndex tag
  sortedPubTags : ∀ tag, tag ∈ store.sortedPubTags ↔
    TopPublic store.userUuid store.parentTag store.pubTagIndex tag
  subTags : ∀ tag name parent, Indexed store.pubTagIndex tag → store.parentTag tag = some name →
    store.pubTagIndex name = some parent → (store.subTags parent).count tag = 1

/-! ## When the calls keep to it -/

/-- A tag can be added: no tag has its name, or a parent of that name, and all ranks are numbers. -/
structure CanAdd (store : Store) (tagName : String) (rankScore : Option Rank) : Prop where
  free : store.pubTagIndex tagName = none
  orphans : ∀ tag, Indexed store.pubTagIndex tag → store.parentTag tag ≠ some tagName
  numbers : ∀ tag, Indexed store.pubTagIndex tag →
    (parseInt (store.rankScore tag)).isSome ∧ (parseInt rankScore).isSome

/-- A tag can be given what is not null of a record: its kind stays, a public tag gets no parent, a
parent has it below already, and the new ranks are in order. -/
structure CanUpdate (store : Store) (tag : Tag) (artRank : RawTag) : Prop where
  kind : ∀ kind, artRank.tagKind = some kind → kindOf (store.tagKind tag) = kind
  top : store.userUuid tag = some publicUuid → store.parentTag tag = none →
    artRank.parentTag = none
  listed : ∀ name parent, artRank.parentTag = some name → store.pubTagIndex name = some parent →
    tag ∈ store.subTags parent
  ranked : Ranked (computeRank
      (Function.update store.rankScore tag (artRank.rankScore.or (store.rankScore tag)))
      (Function.update store.parentTag tag (artRank.parentTag.or (store.parentTag tag)))
      store.pubTagIndex) store.sortedIdxTags

/-- A tag can be given the parent: a public tag has one after it if it has one before, and the new
ranks are in order. -/
structure CanMove (store : Store) (tag : Tag) (parent : Option String) : Prop where
  top : store.userUuid tag = some publicUuid → (parent = none ↔ store.parentTag tag = none)
  ranked : Ranked (computeRank store.rankScore (Function.update store.parentTag tag parent)
    store.pubTagIndex) store.sortedIdxTags

/-- A tag can be given the name: no other tag has it, or a parent of that name, and there are no
other tags below it. -/
structure CanRename (store : Store) (tag : Tag) (tagName : String) : Prop where
  free : ∀ other, store.pubTagIndex tagName = some other → other = tag
  orphans : ∀ other, Indexed store.pubTagIndex other → store.parentTag other = some tagName →
    other = tag
  alone : ∀ sub ∈ store.subTags tag, sub = tag

/-- The parent that a tag is left with. -/
def Store.leftParent (store : Store) (self : Tag) : Option String :=
  (store.parentTag self).filter fun name => (store.pubTagIndex name).isNone

/-- The parent that `changeTagValue` gives a tag. -/
def Store.movedParent (store : Store) (self : Tag) (parent : String) : Option String :=
  match store.pubTagIndex parent with
  | none => store.leftParent self
  | some _ => some parent

def CanAddNew (store : Store) (artRank : RawTag) : Prop :=
  match store.pubTagIndex artRank.tagName with
  | none => CanAdd store artRank.tagName (either artRank.rank artRank.rankScore)
  | some self => CanUpdate store self artRank

def CanAddAll (store : Store) : List RawTag → Prop
  | [] => True
  | tag :: tags => CanAddNew store tag ∧
      ∀ next, store.addNewPublicTag tag tag.parentTag = some next → CanAddAll next tags

/-- The name can be changed, then the parent, in the store that this leaves, and the kind stays. -/
structure CanChange (store : Store) (tag : Tag) (data : TagValue) : Prop where
  name : ∀ tagName, nonEmpty data.tagName = some tagName → CanRename store tag tagName
  parent : ∀ next parent, (store.changeRank tag data.rank).changeName tag data.tagName =
    some next → nonEmpty data.parent = some parent →
      CanMove next tag (next.movedParent tag parent)
  kind : kindOf data.tagKind = kindOf (store.tagKind tag)

/-- The condition for a call; no tag that is there can be removed. -/
def Meets (store : Store) : Call → Prop
  | .addTagInput tag => CanAdd store tag.tagName tag.rankScore
  | .addPublicTag artRank _ => store.pubTagIndex artRank.tagName = none →
      CanAdd store artRank.tagName (either artRank.rank artRank.rankScore)
  | .changeParent tagName parentName => ∀ self, store.pubTagIndex tagName = some self →
      CanMove store self (nonEmpty parentName)
  | .changeTagValue data => ∀ self, store.pubTagIndex data.curTag = some self →
      CanChange store self data
  | .removePublicTag tagName => store.pubTagIndex tagName = none
  | .addPubListTags tags => CanAddAll store tags
  | .removePubListTags tags => ∀ tagName ∈ tags, store.pubTagIndex tagName = none

/-- All calls meet their conditions, each in the store that the ones before leave, and give no name
that every object inherits. -/
def MeetsAll (store : Store) : List Call → Prop
  | [] => True
  | call :: calls => call.Own ∧ Meets store call ∧
      ∀ next, store.call call = some next → MeetsAll next calls

end Tvntd.ArticleTagStore
