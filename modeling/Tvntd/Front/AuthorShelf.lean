import Tvntd.Front.ArticleSort
import Tvntd.Lib.Properties

/-! # The articles of an author

`AuthorShelf` of `tvntd/stores/Article.jsx` has the articles of an author by uuid,
the published ones and the saved ones, and beside each of these lists by date. An
article is taken out of its list by its date: what goes is the first article of
that date. No uuid is a name that objects inherit (`Properties.Inherited`).
-/

namespace Tvntd.AuthorShelf

open SortedArray ArticleSort

abbrev ArticleRef := Nat

/-- `Article`, `Product` and `AdsItem`. -/
inductive Kind
  | blogs
  | prods
  | ads
deriving DecidableEq

/-- What the articles are for good. -/
structure Articles where
  articleUuid : ArticleRef → String
  kind : ArticleRef → Kind

/-- What the articles are at the time of a call; no date is undefined. -/
structure Fields where
  createdDate : ArticleRef → Option Int
  published : ArticleRef → Bool

structure Shelf where
  articles : Properties String ArticleRef
  savedArts : Properties String ArticleRef
  sorted : Kind → List ArticleRef
  sortedSavedArts : List ArticleRef

def empty : Shelf := ⟨Repository.empty, Repository.empty, fun _ => [], []⟩

/-- `compareByDate(anchor, elm) === 0` -/
def sameDate (now : Fields) (elm anchor : ArticleRef) : Bool :=
  compareByDate now.createdDate anchor elm = some 0

/-- `removeArray` with `compareByDate`. -/
def removeArray (now : Fields) (array : List ArticleRef) (elm : ArticleRef) : List ArticleRef :=
  array.eraseP (sameDate now elm)

variable (all : Articles) (now : Fields)

/-- `isPublished` -/
def isPublished (article : ArticleRef) : Bool :=
  match all.kind article with
  | .blogs => now.published article
  | .prods => true
  | .ads => true

namespace Shelf

/-- The first half of `removeArticle`. -/
def removePublished (shelf : Shelf) (articleUuid : String) : Shelf :=
  match Properties.get shelf.articles articleUuid with
  | none => shelf
  | some article =>
      let root := all.kind article
      { shelf with
        sorted := Function.update shelf.sorted root (removeArray now (shelf.sorted root) article)
        articles := Properties.delete shelf.articles articleUuid }

/-- The second half. -/
def removeSaved (shelf : Shelf) (articleUuid : String) : Shelf :=
  match Properties.get shelf.savedArts articleUuid with
  | none => shelf
  | some article =>
      { shelf with
        sortedSavedArts := removeArray now shelf.sortedSavedArts article
        savedArts := Properties.delete shelf.savedArts articleUuid }

def removeArticle (shelf : Shelf) (articleUuid : String) : Shelf :=
  (shelf.removePublished all now articleUuid).removeSaved now articleUuid

def addSortedSavedArts (shelf : Shelf) (article : ArticleRef) : Option Shelf :=
  if Properties.get shelf.savedArts (all.articleUuid article) = some article then some shelf
  else
    (insertSorted (compareFn now.createdDate) article shelf.sortedSavedArts).map
      fun sortedSavedArts =>
        { shelf with
          savedArts := Properties.set shelf.savedArts (all.articleUuid article) article
          sortedSavedArts := sortedSavedArts }

/-- `addSortedArticle` of an article that is published. -/
def addPublished (shelf : Shelf) (article : ArticleRef) (pre : Bool) : Option Shelf :=
  let root := all.kind article
  if Properties.get shelf.articles (all.articleUuid article) = some article then some shelf
  else
    (if pre then some (article :: shelf.sorted root)
      else insertSorted (compareFn now.createdDate) article (shelf.sorted root)).map fun sorted =>
        { shelf with
          articles := Properties.set shelf.articles (all.articleUuid article) article
          sorted := Function.update shelf.sorted root sorted }

def addSortedArticle (shelf : Shelf) (article : ArticleRef) (pre : Bool) : Option Shelf :=
  if isPublished all now article then shelf.addPublished all now article pre
  else shelf.addSortedSavedArts all now article

def addArticle (shelf : Shelf) (article : ArticleRef) (preend : Bool) : Option Shelf :=
  match Properties.get shelf.articles (all.articleUuid article) with
  | none => shelf.addSortedArticle all now article preend
  | some _ =>
      (shelf.removeArticle all now (all.articleUuid article)).addSortedArticle all now article
        preend

end Shelf

inductive Op
  | addArticle (article : ArticleRef) (preend : Bool)
  | addSortedArticle (article : ArticleRef) (pre : Bool)
  | addSortedSavedArts (article : ArticleRef)
  | removeArticle (articleUuid : String)

/-- A call, and the articles at its time. -/
structure Call where
  now : Fields
  op : Op

def Shelf.call (shelf : Shelf) (call : Call) : Option Shelf :=
  match call.op with
  | .addArticle article preend => shelf.addArticle all call.now article preend
  | .addSortedArticle article pre => shelf.addSortedArticle all call.now article pre
  | .addSortedSavedArts article => shelf.addSortedSavedArts all call.now article
  | .removeArticle articleUuid => some (shelf.removeArticle all call.now articleUuid)

/-! ## What is asked of the shelf -/

/-- A list has once each of the articles by uuid that belong there, and no others. -/
structure Lists (belongs : ArticleRef → Prop) (byUuid : Properties String ArticleRef)
    (list : List ArticleRef) : Prop where
  nodup : list.Nodup
  mem : ∀ article, article ∈ list ↔
    belongs article ∧ Properties.get byUuid (all.articleUuid article) = some article

structure Consistent (shelf : Shelf) : Prop where
  apart : ∀ uuid, Properties.get shelf.articles uuid = none ∨
    Properties.get shelf.savedArts uuid = none
  sorted : ∀ kind, Lists all (fun article => all.kind article = kind) shelf.articles
    (shelf.sorted kind)
  saved : Lists all (fun _ => True) shelf.savedArts shelf.sortedSavedArts

/-- The lists lose the articles of the uuid only. -/
structure RemovesOnly (uuid : String) (shelf next : Shelf) : Prop where
  sorted : ∀ kind, next.sorted kind =
    (shelf.sorted kind).filter fun article => all.articleUuid article ≠ uuid
  saved : next.sortedSavedArts =
    shelf.sortedSavedArts.filter fun article => all.articleUuid article ≠ uuid

/-- After every call, and what is removed by it. -/
def ConsistentAll (shelf : Shelf) : List Call → Prop
  | [] => Consistent all shelf
  | call :: calls => Consistent all shelf ∧ ∀ next, shelf.call all call = some next →
      (∀ uuid, call.op = .removeArticle uuid → RemovesOnly all uuid shelf next) ∧
        ConsistentAll next calls

/-! ## When the calls keep to it -/

/-- The article of the uuid is the first one of its date in its list. -/
structure Removable (shelf : Shelf) (uuid : String) : Prop where
  published : ∀ article, Properties.get shelf.articles uuid = some article →
    (shelf.sorted (all.kind article)).find? (sameDate now article) = some article
  saved : ∀ article, Properties.get shelf.savedArts uuid = some article →
    shelf.sortedSavedArts.find? (sameDate now article) = some article

/-- There is no article of the uuid. -/
structure Absent (shelf : Shelf) (uuid : String) : Prop where
  articles : Properties.get shelf.articles uuid = none
  savedArts : Properties.get shelf.savedArts uuid = none

/-- An article can be saved that is saved already, or has a new uuid. -/
def CanSave (shelf : Shelf) (article : ArticleRef) : Prop :=
  Properties.get shelf.savedArts (all.articleUuid article) = some article ∨
    Absent shelf (all.articleUuid article)

/-- An article can be added that is there as what it is now, or has a new uuid. -/
def CanAdd (shelf : Shelf) (article : ArticleRef) : Prop :=
  if isPublished all now article then
    Properties.get shelf.articles (all.articleUuid article) = some article ∨
      Absent shelf (all.articleUuid article)
  else CanSave all shelf article

/-- The condition for a call. An article replaces a published one that can be removed. -/
def Meets (shelf : Shelf) (call : Call) : Prop :=
  match call.op with
  | .addArticle article _ =>
      match Properties.get shelf.articles (all.articleUuid article) with
      | none => CanAdd all call.now shelf article
      | some _ => Removable all call.now shelf (all.articleUuid article)
  | .addSortedArticle article _ => CanAdd all call.now shelf article
  | .addSortedSavedArts article => CanSave all shelf article
  | .removeArticle uuid => Removable all call.now shelf uuid

/-- All calls meet their conditions, each with the shelf that the ones before leave. -/
def MeetsAll (shelf : Shelf) : List Call → Prop
  | [] => True
  | call :: calls => ∀ next, shelf.call all call = some next →
      Meets all shelf call ∧ MeetsAll next calls

end Tvntd.AuthorShelf
