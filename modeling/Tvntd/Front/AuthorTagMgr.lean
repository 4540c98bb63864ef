import Tvntd.Front.SortedArray
import Tvntd.Lib.Properties

/-! # Tags of an author

`AuthorTagMgr` of `tvntd/stores/Article.jsx` keeps the tags of an author by name and
by rank, and a tag keeps the ranks of its articles by uuid and in order. The names
for autocompletion and the object of all ranks are made from these, the former
where a tag is added, the latter where it is first asked for.

An inherited name is looked up like any other and leads to a function, which is not
null and has no method of a tag or a rank: a call goes no further, whether it returns
the function or throws.
-/

namespace Tvntd.AuthorTags

open SortedArray Function

abbrev TagRef := Nat

abbrev RankRef := Nat

/-- The fields of an `ArticleBrief` that are read. No rank is null, no time is undefined. -/
structure ArticleBrief where
  articleUuid : String
  tagName : String
  rank : Option Int
  timeStamp : Option Int

/-- `AuthorTag`; no rank is null. -/
structure AuthorTag where
  tagName : String
  rank : Option Int
  articles : Properties String RankRef
  sortedArts : List RankRef

/-- The manager, with the tags and the ranks that were made, which are the numbers less than
`tagsMade` and `ranksMade`. -/
structure AuthorTagMgr where
  tagsMade : Nat
  ranksMade : Nat
  tag : TagRef → AuthorTag
  brief : RankRef → ArticleBrief
  authorTags : Properties String TagRef
  sortedTags : List TagRef
  stringTags : List String
  allArtRanks : Option (Properties String RankRef)

/-- What `addAuthorTag` and `removeAuthorTag` are given. -/
structure TagData where
  tagName : String
  rank : Option Int

/-- What `addArticleRank` and `removeArticleRank` are given: data, or an `ArticleBrief`. -/
structure RankData where
  fields : ArticleBrief
  isBrief : Bool

/-! ## Orders -/

/-- `getRankOrder`; `none` is not a number. Null is taken for zero in a difference. -/
def ArticleBrief.getRankOrder (brief : ArticleBrief) : Option Int :=
  match brief.rank with
  | none => some 0
  | some rank => if rank = 0 then brief.timeStamp.map fun time => -time else some rank

/-- `compareArticle`; what is not a number is neither `cmp <= -1` nor `cmp >= 1`, like zero. -/
def compareArticle (anchor elm : ArticleBrief) : Int :=
  match anchor.getRankOrder, elm.getRankOrder with
  | some anchor, some elm => anchor - elm
  | _, _ => 0

/-- `compareRank`, which also replaces no rank by zero. -/
def compareRank (r1 r2 : AuthorTag) : Int := r1.rank.getD 0 - r2.rank.getD 0

/-- A comparison of the objects behind references; `none` is undefined. -/
def compareFn {Elm : Type} (value : Nat → Elm) (compare : Elm → Elm → Int) :
    Option Nat → Nat → Int
  | none, _ => 0
  | some anchor, elm => compare (value anchor) (value elm)

/-! ## The tags -/

namespace AuthorTagMgr

def new : AuthorTagMgr where
  tagsMade := 0
  ranksMade := 0
  tag := fun _ => ⟨"", none, Repository.empty, []⟩
  brief := fun _ => ⟨"", "", none, none⟩
  authorTags := Repository.empty
  sortedTags := []
  stringTags := []
  allArtRanks := none

variable (mgr : AuthorTagMgr)

/-- `addAuthorTag`, with the tag of the name, if it is a tag. -/
def addAuthorTag (tag : TagData) : Option (AuthorTagMgr × Option TagRef) :=
  if Properties.Inherited tag.tagName then some (mgr, none)
  else match Properties.get mgr.authorTags tag.tagName with
  | some authorTag => some (mgr, some authorTag)
  | none =>
      let authorTag := mgr.tagsMade
      let made := update mgr.tag authorTag ⟨tag.tagName, tag.rank, Repository.empty, []⟩
      (insertSorted (compareFn made compareRank) authorTag mgr.sortedTags).map fun sortedTags =>
        ({ mgr with
          tagsMade := mgr.tagsMade + 1
          tag := made
          authorTags := Properties.set mgr.authorTags tag.tagName authorTag
          sortedTags := sortedTags
          stringTags := sortedTags.map fun it => (made it).tagName }, some authorTag)

def getAuthorTag (tagName : String) (tagRank : Option Int) :
    Option (AuthorTagMgr × Option TagRef) :=
  if Properties.Inherited tagName then some (mgr, none)
  else match Properties.get mgr.authorTags tagName with
  | some authorTag => some (mgr, some authorTag)
  | none => mgr.addAuthorTag ⟨tagName, tagRank⟩

/-- The first tag of the name goes from the list. -/
def removeAuthorTag (tag : TagData) : AuthorTagMgr :=
  { mgr with
    authorTags := Properties.delete mgr.authorTags tag.tagName
    sortedTags := mgr.sortedTags.eraseP fun it => (mgr.tag it).tagName = tag.tagName }

def createAuthorTag (rank : ArticleBrief) : Option (AuthorTagMgr × Option TagRef) :=
  mgr.addAuthorTag ⟨rank.tagName, rank.rank⟩

/-! ## The ranks of articles -/

/-- `AuthorTag.addArticleRankObj` -/
def tagAddArticleRankObj (authorTag : TagRef) (rank : RankRef) : Option AuthorTagMgr :=
  let tag := mgr.tag authorTag
  if Properties.Inherited (mgr.brief rank).articleUuid then some mgr
  else match Properties.get tag.articles (mgr.brief rank).articleUuid with
  | some _ => some mgr
  | none =>
      (insertSorted (compareFn mgr.brief compareArticle) rank tag.sortedArts).map fun sortedArts =>
        { mgr with
          tag := update mgr.tag authorTag { tag with
            articles := Properties.set tag.articles (mgr.brief rank).articleUuid rank
            sortedArts := sortedArts } }

/-- `AuthorTag.addArticleRank`; the stores of the articles are left out. -/
def tagAddArticleRank (authorTag : TagRef) (json : RankData) : Option AuthorTagMgr :=
  if Properties.Inherited json.fields.articleUuid then some mgr
  else match Properties.get (mgr.tag authorTag).articles json.fields.articleUuid with
  | some rank =>
      some (if json.isBrief then mgr
        else { mgr with brief := update mgr.brief rank json.fields })
  | none =>
      let rank := mgr.ranksMade
      let mgr := { mgr with
        ranksMade := mgr.ranksMade + 1
        brief := update mgr.brief rank json.fields }
      mgr.tagAddArticleRankObj authorTag rank

/-- `AuthorTag.removeArticleRank` -/
def tagRemoveArticleRank (authorTag : TagRef) (rank : RankData) : AuthorTagMgr :=
  let tag := mgr.tag authorTag
  { mgr with
    tag := update mgr.tag authorTag { tag with
      articles := Properties.delete tag.articles rank.fields.articleUuid
      sortedArts := tag.sortedArts.eraseP fun it =>
        (mgr.brief it).articleUuid = rank.fields.articleUuid } }

def addArticleRank (rank : RankData) : Option AuthorTagMgr :=
  if Properties.Inherited rank.fields.tagName then some mgr
  else match Properties.get mgr.authorTags rank.fields.tagName with
  | some authorTag => mgr.tagAddArticleRank authorTag rank
  | none =>
      (mgr.createAuthorTag rank.fields).bind fun
        | (mgr, none) => some mgr
        | (mgr, some authorTag) =>
            let mgr := { mgr with
              authorTags := Properties.set mgr.authorTags rank.fields.tagName authorTag }
            mgr.tagAddArticleRank authorTag rank

def removeArticleRank (rank : RankData) : AuthorTagMgr :=
  if Properties.Inherited rank.fields.tagName then mgr
  else match Properties.get mgr.authorTags rank.fields.tagName with
  | some authorTag => mgr.tagRemoveArticleRank authorTag rank
  | none => mgr

/-- The ranks of all tags, tag by tag. -/
def heldRanks : List RankRef :=
  (Properties.values mgr.authorTags).flatMap fun authorTag =>
    Properties.values (mgr.tag authorTag).articles

def getAllArticleRanks : AuthorTagMgr × Properties String RankRef :=
  match mgr.allArtRanks with
  | some allRanks => (mgr, allRanks)
  | none =>
      let allRanks := Properties.collect (fun artTag => (mgr.brief artTag).articleUuid)
        mgr.heldRanks
      ({ mgr with allArtRanks := some allRanks }, allRanks)

end AuthorTagMgr

inductive Call
  | getAuthorTag (tagName : String) (tagRank : Option Int)
  | addAuthorTag (tag : TagData)
  | removeAuthorTag (tag : TagData)
  | addArticleRank (rank : RankData)
  | removeArticleRank (rank : RankData)
  | getAllArticleRanks

def AuthorTagMgr.call (mgr : AuthorTagMgr) : Call → Option AuthorTagMgr
  | .getAuthorTag tagName tagRank => (mgr.getAuthorTag tagName tagRank).map Prod.fst
  | .addAuthorTag tag => (mgr.addAuthorTag tag).map Prod.fst
  | .removeAuthorTag tag => some (mgr.removeAuthorTag tag)
  | .addArticleRank rank => mgr.addArticleRank rank
  | .removeArticleRank rank => some (mgr.removeArticleRank rank)
  | .getAllArticleRanks => some mgr.getAllArticleRanks.1

/-! ## What is asked of the manager -/

/-- The views of the tags and of their articles agree. -/
structure Consistent (mgr : AuthorTagMgr) : Prop where
  tags : (Properties.values mgr.authorTags).Perm mgr.sortedTags ∧ mgr.sortedTags.Nodup
  strings : mgr.stringTags = mgr.sortedTags.map fun it => (mgr.tag it).tagName
  articles : ∀ tag ∈ mgr.sortedTags,
    (Properties.values (mgr.tag tag).articles).Perm (mgr.tag tag).sortedArts ∧
      (mgr.tag tag).sortedArts.Nodup
  all : ∀ rank, rank ∈ Properties.values mgr.getAllArticleRanks.2 ↔ rank ∈ mgr.heldRanks

/-- In every state that the calls lead to, themselves included. -/
def ConsistentAll (mgr : AuthorTagMgr) : List Call → Prop
  | [] => Consistent mgr
  | call :: calls => Consistent mgr ∧
      ∀ next, mgr.call call = some next → ConsistentAll next calls

/-! ## When the calls keep to it -/

/-- The rank that the manager has for the data. -/
def AuthorTagMgr.found (mgr : AuthorTagMgr) (rank : RankData) : Option RankRef :=
  if Properties.Inherited rank.fields.tagName then none
  else (Properties.get mgr.authorTags rank.fields.tagName).bind fun authorTag =>
    Properties.get (mgr.tag authorTag).articles rank.fields.articleUuid

/-- The data are of a rank that the manager does not have, under names that no object inherits. -/
def AuthorTagMgr.Adds (mgr : AuthorTagMgr) (rank : RankData) : Prop :=
  mgr.found rank = none ∧ ¬ Properties.Inherited rank.fields.tagName ∧
    ¬ Properties.Inherited rank.fields.articleUuid

/-- A tag that is there cannot be removed. Once all ranks were asked for, no rank can be added or
removed; before that, no article can be added to a second tag. -/
def Meets (mgr : AuthorTagMgr) : Call → Prop
  | .getAuthorTag _ _ => True
  | .addAuthorTag _ => True
  | .removeAuthorTag tag => Properties.get mgr.authorTags tag.tagName = none
  | .addArticleRank rank => mgr.Adds rank → mgr.allArtRanks = none ∧
      ∀ other ∈ mgr.heldRanks, (mgr.brief other).articleUuid ≠ rank.fields.articleUuid
  | .removeArticleRank rank => mgr.found rank ≠ none → mgr.allArtRanks = none
  | .getAllArticleRanks => True

/-- All calls meet their conditions, each in the state that the ones before leave. -/
def MeetsAll (mgr : AuthorTagMgr) : List Call → Prop
  | [] => True
  | call :: calls => ∀ next, mgr.call call = some next → Meets mgr call ∧ MeetsAll next calls

end Tvntd.AuthorTags
