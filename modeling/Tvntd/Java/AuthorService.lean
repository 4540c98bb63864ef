import Tvntd.Java.Database

/-! # Ranks of products and ads

A product or an ad is ranked under the tag of its category, which its author may
have already, and gets a brief. An author is loaded without their tags, so that
the tag always looks new.
-/

namespace Tvntd.AuthorService

open ArtTagService (plainSha1)

/-- A tag in memory, which knows whether it has to be saved. -/
structure LiveTag where
  tag : AuthorTag
  needSave : Bool

/-- An author in memory with the tags that were loaded. -/
structure LiveAuthor where
  author : Author
  authorTags : List LiveTag

/-- The first bytes, filled up with zeros. -/
def copyOfRange (original : Octets) (last : Nat) : Octets :=
  original.take last ++ List.replicate (last - original.length) 0

-- What string is made of bytes that are no UTF-8 is left open.
variable (sha1 : Sha1) (newString : Octets → Text)

def fromRawByte (input : Option Octets) : Text :=
  input.elim [] newString

/-- A tag that is made for an author. -/
def AuthorTag.new (name : Text) (author : Author) (rank : Int) (fav : Bool) : AuthorTag where
  tagOid := toSha1Key sha1 (Text.getBytes name) author.authorUuid
  authorUuid := author.authorUuid
  tagName := Text.getBytes name
  headNotif := none
  favorite := fav
  published := false
  rank := some rank
  notifCount := 0
  headChain := none

/-- No op if the tag already exists. -/
def addTag (author : LiveAuthor) (tagName : Text) (rank : Int) (isFav : Bool) : LiveTag :=
  match author.authorTags.find? fun t => decide (tagName = newString t.tag.tagName) with
  | some t => t
  | none => ⟨AuthorTag.new sha1 tagName author.author rank isFav, true⟩

/-- An author whose tags are not loaded, or a new one that is not saved. -/
def findAuthor (db : Database) (authorUuid : UserUuid) (artUuid : String) : LiveAuthor :=
  match db.authorRepo.find authorUuid with
  | some author => ⟨author, []⟩
  | none => ⟨⟨authorUuid, some artUuid⟩, []⟩

def saveAuthorTag (db : Database) (tag : LiveTag) : Database :=
  if tag.needSave then
    { db with tags := { db.tags with authorTagRepo := db.tags.authorTagRepo.save tag.tag } }
  else db

def updateAuthorTag (db : Database) (author : LiveAuthor) (tagName : Text) (order : Int)
    (isFav : Bool) : Database :=
  let tag := addTag sha1 newString author tagName order isFav
  if tag.needSave then saveAuthorTag db tag else db

/-- The brief of an item that is more than an article. -/
def newBrief (articleUuid : String) (authorUuid : UserUuid) (tag desc name : Option Octets)
    (artBase : Option ArticleBase) (artAttr : Option ArticleAttr) : Except Exception LiveBrief :=
  match tag, desc, artBase with
  | some tag, some desc, some artBase =>
      .ok
        { brief :=
            { articleUuid := articleUuid, authorUuid := authorUuid
              tagHash := toSha1Key sha1 tag authorUuid, tag := some tag, prevArticle := none
              nextArticle := none, topArticle := none
              contentBrief := some (copyOfRange desc 256), favorite := false
              hasArticle := true }
          artBase := some { artBase with artTitle := name }
          artAttr := artAttr }
  | _, _, _ => .error .nullPointer

def ArticleBrief.ofProduct (prod : LiveProduct) : Except Exception LiveBrief :=
  newBrief sha1 prod.product.articleUuid prod.product.authorUuid prod.product.prodCat
    prod.product.prodDesc prod.product.prodName prod.artBase prod.artAttr

def ArticleBrief.ofAds (ads : LiveAds) : Except Exception LiveBrief :=
  newBrief sha1 ads.ads.articleUuid ads.ads.authorUuid ads.ads.busCat ads.ads.busDesc
    ads.ads.busName ads.artBase ads.artAttr

/-- Ranks an item of an author under a category. -/
def createRank (db : Database) (authorUuid : UserUuid) (articleUuid : String)
    (category : Option Octets) (brief : Except Exception LiveBrief) :
    Except Exception (Database × LiveBrief) :=
  let author := findAuthor db authorUuid articleUuid
  let db := updateAuthorTag sha1 newString db author (fromRawByte newString category) 0 false
  match brief with
  | .error error => .error error
  | .ok rank => .ok (db.saveBrief rank, rank)

def createProductRank (db : Database) (product : LiveProduct) :
    Except Exception (Database × LiveBrief) :=
  createRank sha1 newString db product.product.authorUuid product.product.articleUuid
    product.product.prodCat (ArticleBrief.ofProduct sha1 product)

/-- The ads of annonymous users are ranked under the public one. -/
def createAdsRank (db : Database) (ads : LiveAds) (annonymous : Bool) :
    Except Exception (Database × LiveBrief) :=
  let authorUuid := if annonymous then publicUuid else ads.ads.authorUuid
  createRank sha1 newString db authorUuid ads.ads.articleUuid ads.ads.busCat
    (ArticleBrief.ofAds sha1 ads)

inductive Request where
  | createProductRank (product : LiveProduct)
  | createAdsRank (ads : LiveAds) (annonymous : Bool)
deriving DecidableEq

def service : Service Database Request (Except Exception LiveBrief) :=
  Service.transactional fun db request =>
    match request with
    | .createProductRank product => createProductRank sha1 newString db product
    | .createAdsRank ads annonymous => createAdsRank sha1 newString db ads annonymous

/-! ## What a request is about -/

namespace Request

def articleUuid : Request → String
  | .createProductRank product => product.product.articleUuid
  | .createAdsRank ads _ => ads.ads.articleUuid

/-- The author whose tag the item is ranked under. -/
def authorUuid : Request → UserUuid
  | .createProductRank product => product.product.authorUuid
  | .createAdsRank ads annonymous => if annonymous then publicUuid else ads.ads.authorUuid

def category : Request → Option Octets
  | .createProductRank product => product.product.prodCat
  | .createAdsRank ads _ => ads.ads.busCat

def description : Request → Option Octets
  | .createProductRank product => product.product.prodDesc
  | .createAdsRank ads _ => ads.ads.busDesc

def artBase : Request → Option ArticleBase
  | .createProductRank product => product.artBase
  | .createAdsRank ads _ => ads.artBase

end Request

/-- The key of the tag that an item is ranked under. -/
def rankKey (request : Request) : String :=
  toSha1Key sha1 (Text.getBytes (fromRawByte newString request.category)) request.authorUuid

/-- The tag of a category that an author has not ranked anything under yet. -/
def freshTag (request : Request) : AuthorTag :=
  AuthorTag.new sha1 (fromRawByte newString request.category) ⟨request.authorUuid, none⟩ 0 false

/-- What is promised of a request. -/
structure Ranked (before : Database) (request : Request) (after : Database)
    (reply : Except Exception LiveBrief) : Prop where
  kept : ∀ tag ∈ before.tags.authorTagRepo.rows, tag ∈ after.tags.authorTagRepo.rows
  made : after.tags.authorTagRepo.find (rankKey sha1 newString request) ≠ none
  brief : ∃ rank, reply = .ok rank ∧ rank.brief.articleUuid = request.articleUuid ∧
    after.artBriefRepo.find request.articleUuid = some rank.brief
  author : after.authorRepo.find request.authorUuid ≠ none

/-- The item has all that its brief needs, its author is there, and their tag of its category is
missing or as good as new. -/
structure Rankable (db : Database) (request : Request) : Prop where
  category : request.category ≠ none
  description : request.description ≠ none
  artBase : request.artBase ≠ none
  author : db.authorRepo.find request.authorUuid ≠ none
  tag : ∀ tag, db.tags.authorTagRepo.find (rankKey sha1 newString request) = some tag →
    tag = freshTag sha1 newString request

variable {sha1 newString} {db : Database} {request : Request}

/-- A tag that is looked for in an author without tags is new. -/
theorem updateAuthorTag_eq (authorUuid : UserUuid) (artUuid : String) (tagName : Text) :
    updateAuthorTag sha1 newString db (findAuthor db authorUuid artUuid) tagName 0 false =
      saveAuthorTag db ⟨AuthorTag.new sha1 tagName ⟨authorUuid, none⟩ 0 false, true⟩ := by
  unfold updateAuthorTag findAuthor
  cases found : db.authorRepo.find authorUuid with
  | none => rfl
  | some author =>
      have key : author.authorUuid = authorUuid := Repository.key_of_find found
      subst key
      rfl

/-- The brief of a request. -/
def briefOf (sha1 : Sha1) : Request → Except Exception LiveBrief
  | .createProductRank product => ArticleBrief.ofProduct sha1 product
  | .createAdsRank ads _ => ArticleBrief.ofAds sha1 ads

theorem serve_eq (db : Database) (request : Request) :
    (service sha1 newString).serve db request =
      match briefOf sha1 request with
      | .error error => (db, .error error)
      | .ok rank =>
          ((saveAuthorTag db ⟨freshTag sha1 newString request, true⟩).saveBrief rank, .ok rank) := by
  cases request with
  | createProductRank product =>
      simp only [service, Service.transactional, createProductRank, createRank,
        updateAuthorTag_eq, briefOf]
      cases ArticleBrief.ofProduct sha1 product with
      | error error => rfl
      | ok rank => rfl
  | createAdsRank ads annonymous =>
      simp only [service, Service.transactional, createAdsRank, createRank,
        updateAuthorTag_eq, briefOf]
      cases ArticleBrief.ofAds sha1 ads with
      | error error => rfl
      | ok rank => rfl

/-- A brief needs a category, a description and a base, and is of its item. -/
theorem newBrief_cases (articleUuid : String) (authorUuid : UserUuid)
    (tag desc name : Option Octets) (artBase : Option ArticleBase)
    (artAttr : Option ArticleAttr) :
    (∃ rank, newBrief sha1 articleUuid authorUuid tag desc name artBase artAttr = .ok rank ∧
        rank.brief.articleUuid = articleUuid ∧ tag ≠ none ∧ desc ≠ none ∧ artBase ≠ none) ∨
      ((∃ error, newBrief sha1 articleUuid authorUuid tag desc name artBase artAttr =
        .error error) ∧ ¬ (tag ≠ none ∧ desc ≠ none ∧ artBase ≠ none)) := by
  cases tag with
  | none => exact Or.inr ⟨⟨_, rfl⟩, fun all => all.1 rfl⟩
  | some tag => cases desc with
    | none => exact Or.inr ⟨⟨_, rfl⟩, fun all => all.2.1 rfl⟩
    | some desc => cases artBase with
      | none => exact Or.inr ⟨⟨_, rfl⟩, fun all => all.2.2 rfl⟩
      | some artBase => exact Or.inl ⟨_, rfl, rfl, nofun, nofun, nofun⟩

theorem briefOf_cases (sha1 : Sha1) (request : Request) :
    (∃ rank, briefOf sha1 request = .ok rank ∧
        rank.brief.articleUuid = request.articleUuid ∧ request.category ≠ none ∧
          request.description ≠ none ∧ request.artBase ≠ none) ∨
      ((∃ error, briefOf sha1 request = .error error) ∧
        ¬ (request.category ≠ none ∧ request.description ≠ none ∧ request.artBase ≠ none)) := by
  cases request with
  | createProductRank product => exact newBrief_cases _ _ _ _ _ _ _
  | createAdsRank ads annonymous => exact newBrief_cases _ _ _ _ _ _ _

/-- Saving a row keeps all rows exactly when the row of its key is the same. -/
theorem kept_save_iff {repo : Repository AuthorTag} {row : AuthorTag} :
    (∀ tag ∈ repo.rows, tag ∈ (repo.save row).rows) ↔
      ∀ tag, repo.find row.tagOid = some tag → tag = row := by
  constructor
  · intro kept tag found
    rcases Repository.mem_save.mp (kept tag (Repository.mem_of_find found)) with same | ⟨-, apart⟩
    · exact same
    · exact absurd (Repository.key_of_find found) apart
  · intro same tag inside
    apply Repository.mem_save.mpr
    by_cases here : tag.tagOid = row.tagOid
    · exact Or.inl (same tag (here ▸ Repository.find_of_mem inside))
    · exact Or.inr ⟨inside, here⟩

/-- **An item is ranked, and nothing else about tags and authors is lost, exactly when its author is
there and has no tag of the category that differs from a new one.** -/
theorem ranked_iff_rankable (sha1 : Sha1) (newString : Octets → Text) (db : Database)
    (request : Request) :
    Ranked sha1 newString db request ((service sha1 newString).serve db request).1
        ((service sha1 newString).serve db request).2 ↔
      Rankable sha1 newString db request := by
  rw [serve_eq]
  rcases briefOf_cases sha1 request with
    ⟨rank, done, item, category, description, artBase⟩ | ⟨⟨error, failed⟩, missing⟩
  · rw [done]
    constructor
    · intro ranked
      exact ⟨category, description, artBase, ranked.author, kept_save_iff.mp ranked.kept⟩
    · intro rankable
      refine ⟨kept_save_iff.mpr rankable.tag, ?_, ⟨rank, rfl, item, ?_⟩, rankable.author⟩
      · have made := Repository.find_save_self db.tags.authorTagRepo
          (freshTag sha1 newString request)
        intro absent
        exact absurd (made.symm.trans absent) nofun
      · rw [← item]
        exact Repository.find_save_self db.artBriefRepo rank.brief
  · rw [failed]
    apply iff_of_false
    · intro ranked
      obtain ⟨rank, given, -⟩ := ranked.brief
      cases given
    · intro rankable
      exact missing ⟨rankable.category, rankable.description, rankable.artBase⟩

/-! ## A tag that is in use -/

def pen : LiveProduct where
  product :=
    { articleUuid := "pen", authorUuid := publicUuid, logoTag := none, prodPrice := some 0
      priceUnit := none, prodCat := some (Text.getBytes (Text.ofString "tools"))
      prodName := none, prodNotice := none, prodTitle := none, prodSub := none
      publicTag := none, prodDesc := some [], prodDetail := none, prodSpec := none
      pending := false }
  artBase := some
    { articleUuid := "pen", authorId := none, permMask := 0, artTitle := none
      publicTag := none, artTag := some "estore", contentOid := none, contentLinkUrl := none }
  artAttr := some (ArticleAttr.new "pen")

def ascii (octets : Octets) : Text := octets.map UInt8.toUInt16

/-- The tag of the category, with five notifications. -/
def notified : AuthorTag :=
  { freshTag plainSha1 ascii (.createProductRank pen) with notifCount := 5 }

/-- The author is there and has the tag. -/
def inUse : Database :=
  { Database.empty with
    authorRepo := Repository.empty.save ⟨publicUuid, none⟩
    tags := ⟨Repository.empty, Repository.empty.save notified⟩ }

/-- The notifications of a tag are lost with the first product. -/
theorem pen_loses_notified :
    ¬ Ranked plainSha1 ascii inUse (.createProductRank pen)
      ((service plainSha1 ascii).serve inUse (.createProductRank pen)).1
      ((service plainSha1 ascii).serve inUse (.createProductRank pen)).2 := by
  intro ranked
  have kept := ranked.kept notified (by decide +kernel)
  exact absurd kept (by decide +kernel)

end Tvntd.AuthorService
