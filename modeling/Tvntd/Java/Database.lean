import Tvntd.Java.ArtTagService
import Tvntd.Java.CommentService

/-! # The database

All tables that the articles of the users are spread over. A brief, a product and
an ad own the base and the attributes of their uuid: a save writes all of them
and a deletion removes all of them.
-/

namespace Tvntd

structure ArtProduct where
  articleUuid : String
  authorUuid : UserUuid
  logoTag : Option String
  prodPrice : Option Int
  priceUnit : Option String
  prodCat : Option Octets
  prodName : Option Octets
  prodNotice : Option Octets
  prodTitle : Option Octets
  prodSub : Option Octets
  publicTag : Option Octets
  prodDesc : Option Octets
  prodDetail : Option Octets
  prodSpec : Option Octets
  pending : Bool
deriving DecidableEq

instance : Entity ArtProduct String := ⟨ArtProduct.articleUuid⟩

structure ArtAds where
  articleUuid : String
  authorUuid : UserUuid
  busName : Option Octets
  busCat : Option Octets
  busDesc : Option Octets
deriving DecidableEq

instance : Entity ArtAds String := ⟨ArtAds.articleUuid⟩

structure ArtRoomAds where
  articleUuid : String
  authorUuid : UserUuid
deriving DecidableEq

instance : Entity ArtRoomAds String := ⟨ArtRoomAds.articleUuid⟩

structure AddressMap where
  articleUuid : String
  placeId : Option String
deriving DecidableEq

instance : Entity AddressMap String := ⟨AddressMap.articleUuid⟩

structure Author where
  authorUuid : UserUuid
  frontArtUuid : Option String
deriving DecidableEq

instance : Entity Author UserUuid := ⟨Author.authorUuid⟩

/-- The tables of articles and their authors. -/
structure Database where
  artPostRepo : Repository ArticlePost
  artBriefRepo : Repository ArticleBrief
  artBaseRepo : Repository ArticleBase
  artAttrRepo : Repository ArticleAttr
  artProdRepo : Repository ArtProduct
  artAdsRepo : Repository ArtAds
  adRoomRepo : Repository ArtRoomAds
  comments : CommentService.CommentTables
  tags : ArtTagService.TagTables
  addrRepo : Repository AddressMap
  authorRepo : Repository Author

/-! ## Records in memory -/

/-- A brief with what it owns, where that is there. -/
structure LiveBrief where
  brief : ArticleBrief
  artBase : Option ArticleBase
  artAttr : Option ArticleAttr
deriving DecidableEq

structure LiveProduct where
  product : ArtProduct
  artBase : Option ArticleBase
  artAttr : Option ArticleAttr
deriving DecidableEq

structure LiveAds where
  ads : ArtAds
  artBase : Option ArticleBase
  artAttr : Option ArticleAttr
deriving DecidableEq

namespace Database

variable (db : Database)

def empty : Database :=
  ⟨.empty, .empty, .empty, .empty, .empty, .empty, .empty, ⟨.empty, .empty⟩, ⟨.empty, .empty⟩,
    .empty, .empty⟩

def findBrief (uuid : String) : Option LiveBrief :=
  (db.artBriefRepo.find uuid).map fun brief =>
    ⟨brief, db.artBaseRepo.find uuid, db.artAttrRepo.find uuid⟩

def findProduct (uuid : String) : Option LiveProduct :=
  (db.artProdRepo.find uuid).map fun product =>
    ⟨product, db.artBaseRepo.find uuid, db.artAttrRepo.find uuid⟩

/-- What a record owns is saved with it. -/
def saveOwned (base : Option ArticleBase) (attr : Option ArticleAttr) : Database :=
  { db with
    artBaseRepo := base.elim db.artBaseRepo db.artBaseRepo.save
    artAttrRepo := attr.elim db.artAttrRepo db.artAttrRepo.save }

def saveBrief (live : LiveBrief) : Database :=
  { db.saveOwned live.artBase live.artAttr with
    artBriefRepo := db.artBriefRepo.save live.brief }

def saveProduct (live : LiveProduct) : Database :=
  { db.saveOwned live.artBase live.artAttr with
    artProdRepo := db.artProdRepo.save live.product }

def savePost (post : ArticlePost) : Database :=
  { db with artPostRepo := db.artPostRepo.save post }

/-- Deletes a brief with its base and its attributes. -/
def deleteBrief (uuid : String) : Database :=
  { db with
    artBriefRepo := db.artBriefRepo.delete uuid
    artBaseRepo := db.artBaseRepo.delete uuid
    artAttrRepo := db.artAttrRepo.delete uuid }

def deleteAds (uuid : String) : Database :=
  { db with
    artAdsRepo := db.artAdsRepo.delete uuid
    artBaseRepo := db.artBaseRepo.delete uuid
    artAttrRepo := db.artAttrRepo.delete uuid }

/-- An ad for a room has a base but no attributes. -/
def deleteRoomAds (uuid : String) : Database :=
  { db with
    adRoomRepo := db.adRoomRepo.delete uuid
    artBaseRepo := db.artBaseRepo.delete uuid }

def deletePost (uuid : String) : Database :=
  { db with artPostRepo := db.artPostRepo.delete uuid }

end Database

end Tvntd
