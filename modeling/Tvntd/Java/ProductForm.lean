import Tvntd.Java.Database
import Tvntd.Java.PostForm

/-! # The form of a product

A form that is accepted has all its fields but the notice and the sub title. The
notice is taken as it is, everything else is cleaned.
-/

namespace Tvntd

structure ProductForm where
  authorUuid : Option String
  articleUuid : Option String
  prodCat : Option Text
  prodName : Option Text
  prodTitle : Option Text
  prodPrice : Option Text
  prodNotice : Option Text
  prodDesc : Option Text
  prodDetail : Option Text
  prodSpec : Option Text
  prodSub : Option Text
  pubTag : Option Text
deriving DecidableEq

/-- A cleaned text, cut to a length. -/
def Web.cleanMax (web : Web) (str : Option Text) (max : Nat) : Option Text :=
  str.map fun str => (web.clean str).take max

namespace ProductForm

def MaxHeaderLength : Nat := 64

def MaxContentLength : Nat := 65536

def cleanInput (web : Web) (form : ProductForm) : Option ProductForm :=
  if form.prodName = none ∨ form.prodCat = none ∨ form.prodTitle = none ∨ form.prodPrice = none ∨
      form.prodDesc = none ∨ form.prodDetail = none ∨ form.prodSpec = none ∨
      form.authorUuid = none ∨ form.articleUuid = none ∨ form.pubTag = none then none
  else
    some
      { form with
        authorUuid := form.authorUuid.map web.cleanUuid
        articleUuid := form.articleUuid.map web.cleanUuid
        prodName := web.cleanMax form.prodName MaxHeaderLength
        prodCat := web.cleanMax form.prodCat MaxHeaderLength
        prodTitle := web.cleanMax form.prodTitle MaxHeaderLength
        prodDesc := web.cleanMax form.prodDesc MaxContentLength
        prodDetail := web.cleanMax form.prodDetail MaxContentLength
        prodSpec := web.cleanMax form.prodSpec MaxContentLength
        prodSub := some ((web.cleanMax form.prodSub MaxContentLength).getD [])
        pubTag := web.cleanMax form.pubTag MaxHeaderLength }

end ProductForm

/-- A new product of an author. -/
def LiveProduct.new (articleUuid : String) (authorUuid : UserUuid) (authorId : Option Int) :
    LiveProduct where
  product :=
    { articleUuid := articleUuid, authorUuid := authorUuid, logoTag := none, prodPrice := none
      priceUnit := none, prodCat := none, prodName := none, prodNotice := none
      prodTitle := none, prodSub := none, publicTag := none, prodDesc := none
      prodDetail := none, prodSpec := none, pending := false }
  artBase := some
    { articleUuid := articleUuid, authorId := authorId, permMask := 0, artTitle := none
      publicTag := none, artTag := some "estore", contentOid := none, contentLinkUrl := none }
  artAttr := some (ArticleAttr.new articleUuid)

def ArticleSvc.applyPostProduct (form : ProductForm) (prod : LiveProduct) (publish : Bool) :
    LiveProduct :=
  { prod with
    product :=
      { prod.product with
        pending := !publish
        prodNotice := (toRawByte form.prodNotice 128).or prod.product.prodNotice
        prodCat := toRawByte form.prodCat 128
        prodName := toRawByte form.prodName 128
        prodTitle := toRawByte form.prodTitle 128
        prodDesc := toRawByte form.prodDesc 65536
        prodSpec := toRawByte form.prodSpec 65536
        prodDetail := toRawByte form.prodDetail 65536
        publicTag := toRawByte form.pubTag 128
        prodSub := toRawByte form.prodSub 128
        prodPrice := some 0
        priceUnit := some "$"
        logoTag := some "" } }

end Tvntd
