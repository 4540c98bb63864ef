import Tvntd.Java.Text
import Tvntd.Lib.Repository

/-! # The records of an article

An article is spread over tables whose records share its uuid. What a record has
in another table under the same uuid is saved and removed with it, and is no part
of the record here.
-/

namespace Tvntd

structure ArticleBase where
  articleUuid : String
  authorId : Option Int
  permMask : Int
  artTitle : Option Octets
  publicTag : Option Octets
  artTag : Option String
  contentOid : Option Text
  contentLinkUrl : Option Text
deriving DecidableEq

instance : Entity ArticleBase String := ⟨ArticleBase.articleUuid⟩

structure ArticleAttr where
  articleUuid : String
  favorite : Bool
  creditEarned : Option Int
  moneyEarned : Option Int
  likes : Option Int
  shared : Option Int
  rank : Option Int
  score : Option Int
  userLiked : Option (List String)
  userShared : Option (List String)
  commentId : Option Int
deriving DecidableEq

instance : Entity ArticleAttr String := ⟨ArticleAttr.articleUuid⟩

/-- The attributes that an article starts with. -/
def ArticleAttr.new (uuid : String) : ArticleAttr where
  articleUuid := uuid
  favorite := false
  creditEarned := some 0
  moneyEarned := some 0
  likes := some 0
  shared := some 0
  rank := some 0
  score := some 0
  userLiked := none
  userShared := none
  commentId := none

/-- A change of an article or of one of its comments. -/
structure CommentChangeForm where
  kind : Option String
  amount : Option Int
  favorite : Bool
  commentId : Option Int
  articleUuid : String
deriving DecidableEq

/-- The attributes that answer a change. -/
def ArticleAttr.ofForm (form : CommentChangeForm) : ArticleAttr where
  articleUuid := form.articleUuid
  favorite := form.favorite
  creditEarned := form.commentId
  moneyEarned := none
  likes := none
  shared := none
  rank := none
  score := none
  userLiked := none
  userShared := none
  commentId := none

structure ArticleBrief where
  articleUuid : String
  authorUuid : UserUuid
  tagHash : String
  tag : Option Octets
  prevArticle : Option String
  nextArticle : Option String
  topArticle : Option String
  contentBrief : Option Octets
  favorite : Bool
  hasArticle : Bool
deriving DecidableEq

instance : Entity ArticleBrief String := ⟨ArticleBrief.articleUuid⟩

structure ArticlePost where
  articleUuid : String
  authorUuid : UserUuid
  content : Option Octets
  pending : Bool
deriving DecidableEq

instance : Entity ArticlePost String := ⟨ArticlePost.articleUuid⟩

end Tvntd
