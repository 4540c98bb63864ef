import Tvntd.Front.ArticleSort
import Tvntd.Lib.Properties

/-! # The articles of public tags

An `ArtTag` has a dictionary of the uuids of its articles and a list by date of
the ranks among them that are known. Where the rank of an article is not known,
`unResolved` has the tag that waits for it, and `onItemsChanged` finds it there when
the article comes. All tags share the dictionary, which has one tag for a uuid.
No uuid is a name that objects inherit (`Properties.Inherited`).
-/

namespace Tvntd.TagArticles

open SortedArray ArticleSort Function

abbrev Tag := Nat

abbrev RankRef := Nat

/-- What the ranks are for good. -/
structure Ranks where
  articleUuid : RankRef → String
  createdDate : RankRef → Option Int

/-- The ranks that `AuthorStore` has, each under its uuid. -/
structure AuthorStore (ranks : Ranks) where
  allArticleRanks : Properties String RankRef
  keyed : ∀ uuid rank, Properties.get allArticleRanks uuid = some rank →
    ranks.articleUuid rank = uuid

variable {ranks : Ranks}

def AuthorStore.lookupArticleRankByUuid (store : AuthorStore ranks) (uuid : String) :
    Option RankRef := Properties.get store.allArticleRanks uuid

/-- With the rank that the tags of its author have. -/
def AuthorStore.addArticleRankFromJson (store : AuthorStore ranks) (obj : RankRef) :
    AuthorStore ranks where
  allArticleRanks := Properties.set store.allArticleRanks (ranks.articleUuid obj) obj
  keyed := by
    intro uuid rank found
    rw [Properties.get_set] at found
    split at found
    case isTrue same =>
      cases found
      exact same.symm
    case isFalse => exact store.keyed uuid rank found

/-- What the dictionary of a tag has under a uuid. -/
inductive Entry
  | uuid (artUuid : String)
  | rank (artRank : RankRef)
deriving DecidableEq

/-- An entry as the name of a property. -/
def Entry.text : Entry → String
  | .uuid artUuid => artUuid
  | .rank _ => "[object Object]"

/-- The tags that were made, which are the numbers less than `made`, and what they share. -/
structure Store (ranks : Ranks) where
  made : Nat
  articleRank : Tag → Properties String Entry
  sortedArts : Tag → Option (List RankRef)
  unResolved : Properties String Tag
  authorStore : AuthorStore ranks

/-- The rest of `ArticleTagStore`. -/
structure Index where
  pubTagIndex : String → Option Tag
  tagKind : Tag → Option String

/-- An article that changed, with the rank that the tags of its author have or get of it. -/
structure Changed (ranks : Ranks) where
  articleUuid : String
  tagName : Option String
  rank : RankRef
  same : ranks.articleUuid rank = articleUuid

def init (authorStore : AuthorStore ranks) : Store ranks where
  made := 0
  articleRank := fun _ => Repository.empty
  sortedArts := fun _ => none
  unResolved := Repository.empty
  authorStore := authorStore

/-- The dictionary of the uuids in a list. -/
def uuidsOf (articleRank : List String) : Properties String Entry :=
  Properties.collect Entry.text (articleRank.map Entry.uuid)

namespace Store

variable (store : Store ranks)

def lookup (uuid : String) : Option RankRef := store.authorStore.lookupArticleRankByUuid uuid

/-- The constructor of `ArtTag`. -/
def newArtTag (articleRank : List String) : Store ranks × Tag :=
  ({ store with
      made := store.made + 1
      articleRank := update store.articleRank store.made (uuidsOf articleRank)
      sortedArts := update store.sortedArts store.made none }, store.made)

/-- A turn of the loop of `sortArticles`. It changes no entry but its own. -/
def sortTurn (tag : Tag) (state : Store ranks × List RankRef) (artUuid : Entry) :
    Option (Store ranks × List RankRef) :=
  match state.1.lookup artUuid.text with
  | none =>
      some ({ state.1 with
        unResolved := Properties.set state.1.unResolved artUuid.text tag }, state.2)
  | some rank =>
      (insertSorted (compareFn ranks.createdDate) rank state.2).map fun sortedArts =>
        ({ state.1 with
            articleRank := update state.1.articleRank tag
              (Properties.set (state.1.articleRank tag) (ranks.articleUuid rank) (.rank rank)) },
          sortedArts)

def sortArticles (tag : Tag) : Option (Store ranks) :=
  match store.sortedArts tag with
  | some _ => some store
  | none =>
      ((Properties.values (store.articleRank tag)).foldlM (sortTurn tag) (store, [])).map
        fun (store, sortedArts) =>
          if sortedArts = [] then store
          else { store with sortedArts := update store.sortedArts tag (some sortedArts) }

/-- `resolveArticleRank`, behind the deletion. -/
def insertArticleRank (tag : Tag) (artRank : RankRef) : Option (Store ranks) :=
  match store.sortedArts tag with
  | none =>
      some { store with sortedArts := update store.sortedArts tag (some [artRank]) }
  | some sortedArts =>
      (insertSorted (compareFn ranks.createdDate) artRank sortedArts).map fun sortedArts =>
        { store with
          articleRank := update store.articleRank tag
            (Properties.set (store.articleRank tag) (ranks.articleUuid artRank) (.rank artRank))
          sortedArts := update store.sortedArts tag (some sortedArts) }

/-- `unResolved` is given or null. -/
def resolveArticleRank (tag : Tag) (unResolved : Bool) (artRank : RankRef) :
    Option (Store ranks) :=
  if unResolved then
    { store with
      unResolved := Properties.delete store.unResolved (ranks.articleUuid artRank) }
      |>.insertArticleRank tag artRank
  else store.insertArticleRank tag artRank

def addArticleRank (tag : Tag) (artUuid : String) : Option (Store ranks) :=
  match store.lookup artUuid with
  | none =>
      let store := { store with unResolved := Properties.set store.unResolved artUuid tag }
      if Properties.get (store.articleRank tag) artUuid = none then
        some { store with
          articleRank := update store.articleRank tag
            (Properties.set (store.articleRank tag) artUuid (.uuid artUuid)) }
      else some store
  | some artRank =>
      if Properties.get (store.articleRank tag) artUuid = none then
        store.resolveArticleRank tag false artRank
      else some store

/-- A turn of the loop of `updateTag`. -/
def updateTurn (tag : Tag) (artUuid : String) : Option (Store ranks) :=
  if Properties.get (store.articleRank tag) artUuid = none then store.addArticleRank tag artUuid
  else some store

def updateTag (tag : Tag) (articleRank : List String) : Option (Store ranks) :=
  articleRank.foldlM (fun store artUuid => store.updateTurn tag artUuid) store

def updateArticles (tag : Tag) (articles : List String) : Option (Store ranks) :=
  articles.foldlM (fun store artUuid => store.addArticleRank tag artUuid) store

/-- The tag of a name, if it is of the kind. Only tags that were made are in the index. -/
def indexed (index : Index) (storeKind : String) (tagName : Option String) : Option Tag :=
  (tagName.bind index.pubTagIndex).filter fun tag =>
    tag < store.made ∧ index.tagKind tag = some storeKind

/-- The rank of an article that changed; a new one is put into `AuthorStore`. -/
def rankOf (article : Changed ranks) : Store ranks × RankRef :=
  match store.lookup article.articleUuid with
  | some rank => (store, rank)
  | none =>
      ({ store with authorStore := store.authorStore.addArticleRankFromJson article.rank },
        article.rank)

/-- A turn of the loop of `onItemsChanged`. -/
def itemChanged (index : Index) (storeKind : String) (article : Changed ranks) :
    Option (Store ranks) :=
  let (store, rank) := store.rankOf article
  match Properties.get store.unResolved article.articleUuid with
  | some tag => store.resolveArticleRank tag true rank
  | none =>
      match store.indexed index storeKind article.tagName with
      | some tag => store.resolveArticleRank tag false rank
      | none => some store

def onItemsChanged (index : Index) (storeKind : String) (changeList : List (Changed ranks)) :
    Option (Store ranks) :=
  changeList.foldlM (fun store article => store.itemChanged index storeKind article) store

end Store

inductive Call (ranks : Ranks)
  | newArtTag (articleRank : List String)
  | addTag (articleRank : List String)
  | sortArticles (tag : Tag)
  | addArticleRank (tag : Tag) (artUuid : Option String)
  | updateTag (tag : Tag) (articleRank : List String)
  | updateArticles (tag : Tag) (articles : List String)
  | onItemsChanged (index : Index) (storeKind : String) (changeList : List (Changed ranks))
  | addArticleRankFromJson (obj : RankRef)

/-- There are no calls of a tag that was not made. `addTag` makes a tag and sorts its articles, as
`ArticleTagStore` does. -/
def Store.call (store : Store ranks) : Call ranks → Option (Store ranks)
  | .newArtTag articleRank => some (store.newArtTag articleRank).1
  | .addTag articleRank =>
      let (store, tag) := store.newArtTag articleRank
      store.sortArticles tag
  | .sortArticles tag => if tag < store.made then store.sortArticles tag else none
  | .addArticleRank tag artUuid =>
      if tag < store.made then
        match artUuid with
        | none => some store
        | some artUuid => store.addArticleRank tag artUuid
      else none
  | .updateTag tag articleRank =>
      if tag < store.made then store.updateTag tag articleRank else none
  | .updateArticles tag articles =>
      if tag < store.made then store.updateArticles tag articles else none
  | .onItemsChanged index storeKind changeList => store.onItemsChanged index storeKind changeList
  | .addArticleRankFromJson obj =>
      some { store with authorStore := store.authorStore.addArticleRankFromJson obj }

/-! ## What is asked of the tags -/

namespace Store

variable (store : Store ranks)

/-- `sortedArts`, which is empty where it is null. -/
def arts (tag : Tag) : List RankRef := (store.sortedArts tag).getD []

/-- The uuids of a tag are those in its dictionary and those of its ranks. -/
def Lists (tag : Tag) (uuid : String) : Prop :=
  (Properties.get (store.articleRank tag) uuid).isSome ∨
    uuid ∈ (store.arts tag).map ranks.articleUuid

/-- Known ranks are in the list once, for others the tag is the one that waits. -/
def Fits (tag : Tag) (uuid : String) : Prop :=
  match store.lookup uuid with
  | some _ => ((store.arts tag).map ranks.articleUuid).count uuid = 1
  | none => Properties.get store.unResolved uuid = some tag

structure Consistent : Prop where
  fits : ∀ tag uuid, store.Lists tag uuid → store.Fits tag uuid
  sorted : ∀ tag, SortedByDate ranks.createdDate (store.arts tag)

end Store

/-- After every call. -/
def ConsistentAll (store : Store ranks) : List (Call ranks) → Prop
  | [] => store.Consistent
  | call :: calls => store.Consistent ∧ ∀ next, store.call call = some next →
      ConsistentAll next calls

/-! ## When the calls keep to it -/

namespace Store

variable (store : Store ranks)

/-- A tag can get a rank if it has none of the uuid, and there are dates to compare. -/
structure CanGet (tag : Tag) (rank : RankRef) : Prop where
  new : ranks.articleUuid rank ∉ (store.arts tag).map ranks.articleUuid
  dated : Dated ranks.createdDate (rank :: store.arts tag)

/-- An article of an unknown rank can be added if no other tag waits for it; one of a known rank if
it is in the dictionary, or else if the tag can get the rank. -/
def CanAdd (tag : Tag) (artUuid : String) : Prop :=
  match store.lookup artUuid with
  | none => ∀ other, Properties.get store.unResolved artUuid = some other → other = tag
  | some rank => Properties.get (store.articleRank tag) artUuid = none → store.CanGet tag rank

/-- No tag waits for the articles of unknown ranks, and there are dates to compare the others. -/
structure CanMake (articleRank : List String) : Prop where
  free : ∀ uuid ∈ articleRank, store.lookup uuid = none →
    Properties.get store.unResolved uuid = none
  dated : Dated ranks.createdDate (articleRank.dedup.filterMap store.lookup)

/-- The tag that waits for the article, or that of its name, can get its rank. -/
def CanChange (index : Index) (storeKind : String) (article : Changed ranks) : Prop :=
  ∀ tag, (Properties.get store.unResolved article.articleUuid).or
      (store.indexed index storeKind article.tagName) = some tag →
    store.CanGet tag (store.rankOf article).2

end Store

/-- Every turn meets its condition, in the store that the ones before leave. -/
def MeetsEach {Item : Type} (turn : Store ranks → Item → Option (Store ranks))
    (meets : Store ranks → Item → Prop) (store : Store ranks) : List Item → Prop
  | [] => True
  | item :: items => meets store item ∧ ∀ next, turn store item = some next →
      MeetsEach turn meets next items

/-- The condition for a call. -/
def Meets (store : Store ranks) : Call ranks → Prop
  | .newArtTag articleRank => articleRank = []
  | .addTag articleRank => store.CanMake articleRank
  | .sortArticles _ => True
  | .addArticleRank tag artUuid => ∀ uuid, artUuid = some uuid → store.CanAdd tag uuid
  | .updateTag tag articleRank =>
      MeetsEach (fun store artUuid => store.updateTurn tag artUuid)
        (fun store artUuid => Properties.get (store.articleRank tag) artUuid = none →
          store.CanAdd tag artUuid) store articleRank
  | .updateArticles tag articles =>
      MeetsEach (fun store artUuid => store.addArticleRank tag artUuid)
        (fun store artUuid => store.CanAdd tag artUuid) store articles
  | .onItemsChanged index storeKind changeList =>
      MeetsEach (fun store article => store.itemChanged index storeKind article)
        (fun store article => store.CanChange index storeKind article) store changeList
  | .addArticleRankFromJson obj => store.lookup (ranks.articleUuid obj) = none →
      Properties.get store.unResolved (ranks.articleUuid obj) = none

/-- All calls meet their conditions. -/
def MeetsAll (store : Store ranks) : List (Call ranks) → Prop
  | [] => True
  | call :: calls => Meets store call ∧ ∀ next, store.call call = some next →
      MeetsAll next calls

end Tvntd.TagArticles
