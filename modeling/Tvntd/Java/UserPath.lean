import Tvntd.Java.ArticleDelete
import Tvntd.Java.ArticleSave
import Tvntd.Java.AuthorService
import Tvntd.Java.ProductForm

/-! # The requests of a user

A user saves, updates and deletes posts and products. A record is found through
the session, by the uuid in the form, or it is new; whose it is asks only the
deletion, and only where there is a post.
-/

namespace Tvntd

/-- The base of a post that was written to before the form failed. -/
def LivePost.touch (art : LivePost) (form : PostForm) : LivePost where
  post := art.post
  artBase := art.artBase.map (LiveBrief.linkBase form)
  shared := by
    intro base based
    obtain ⟨old, there, rfl⟩ := Option.map_eq_some_iff.mp based
    exact (ArticleSvc.linkBase_articleUuid form old).trans (art.shared old there)

namespace UserPath

/-- The database and the session of a user. -/
structure Site where
  db : Database
  profile : ProfileDTO

/-- What a user asks for, with the uuid that is drawn where a record is new. -/
inductive Request where
  | savePost (form : PostForm) (publish : Bool) (drawn : String)
  | updatePost (form : PostForm)
  | deleteArticles (uuids : List String)
  | saveProduct (form : ProductForm) (publish : Bool) (drawn : String)
deriving DecidableEq

inductive Response where
  | refused
  | post (articleUuid : String)
  | deleted (uuids failedUuids : List String)
  | product (articleUuid : String)
deriving DecidableEq

def genPendPost (site : Site) (articleUuid : Option String) (drawn : String) : LivePost :=
  match site.profile.pendPost with
  | some pendPost => pendPost
  | none =>
      match articleUuid.bind site.db.artPostRepo.find with
      | some post => LivePost.ofStored post
      | none => LivePost.new drawn site.profile.userUuid site.profile.userId

/-- The post of a uuid, or a new one of the user under that uuid. -/
def fetchPost (site : Site) (artUuid : String) : LivePost :=
  match site.db.artPostRepo.find artUuid with
  | some post => LivePost.ofStored post
  | none => LivePost.new artUuid site.profile.userUuid site.profile.userId

def genPendProduct (site : Site) (articleUuid : Option String) (drawn : String) : LiveProduct :=
  match site.profile.pendProd with
  | some product => product
  | none =>
      match articleUuid.bind site.db.findProduct with
      | some product => product
      | none => LiveProduct.new drawn site.profile.userUuid site.profile.userId

variable (web : Web) (sha1 : Sha1) (newString : Octets → Text)

def savePost (site : Site) (form : PostForm) (publish : Bool) (drawn : String) :
    Site × Except Exception Response :=
  match form.cleanInput web with
  | none => (site, .ok .refused)
  | some form =>
      let art := genPendPost site form.articleUuid drawn
      match ArticleSvc.savePost sha1 site.db form art site.profile publish false with
      | .error error =>
          ({ site with profile := { site.profile with pendPost := some (art.touch form) } },
            .error error)
      | .ok (db, profile, _) => (⟨db, profile⟩, .ok (.post art.articleUuid))

def updatePost (site : Site) (form : PostForm) : Site × Except Exception Response :=
  match form.cleanInput web with
  | none => (site, .ok .refused)
  | some form =>
      let art := fetchPost site (form.articleUuid.getD "")
      match ArticleSvc.savePost sha1 site.db form art site.profile true true with
      | .error error => (site, .error error)
      | .ok (db, profile, _) => (⟨db, profile⟩, .ok (.post art.articleUuid))

/-- Each deletion is a transaction of its own. The lists are what was and what was not deleted. -/
def deleteEach (db : Database) (userUuid : UserUuid) :
    List String → List String → List String → Database × Except Exception Response
  | [], ok, failed => (db, .ok (.deleted ok failed))
  | uid :: rest, ok, failed =>
      match ArticleSvc.deleteArticlePost sha1 db uid userUuid with
      | .error error => (db, .error error)
      | .ok (db, none) => deleteEach db userUuid rest ok (failed ++ [uid])
      | .ok (db, some _) => deleteEach db userUuid rest (ok ++ [uid]) failed

def deleteUserArticle (site : Site) (uuids : List String) : Site × Except Exception Response :=
  let done := deleteEach sha1 site.db site.profile.userUuid uuids [] []
  ({ site with db := done.1 }, done.2)

def saveProduct (site : Site) (form : ProductForm) (publish : Bool) (drawn : String) :
    Site × Except Exception Response :=
  match form.cleanInput web with
  | none => (site, .ok .refused)
  | some form =>
      let artProd :=
        ArticleSvc.applyPostProduct form (genPendProduct site form.articleUuid drawn) publish
      let db := site.db.saveProduct artProd
      let db := if publish then db else db.saveProduct artProd
      -- The product stays in the session until it is published.
      let profile (prod : LiveProduct) : ProfileDTO :=
        { site.profile with pendProd := if publish then none else some prod }
      match AuthorService.createProductRank sha1 newString db artProd with
      | .error error => (⟨db, profile artProd⟩, .error error)
      | .ok (db, rank) =>
          -- The brief and the product have one base.
          let profile := profile { artProd with artBase := rank.artBase }
          if publish then
            match ArtTagService.addPublicTagPost sha1 db.tags.artTagRepo form.pubTag
                (some artProd.product.articleUuid) with
            | .error error => (⟨db, profile⟩, .error error)
            | .ok (artTagRepo, _) =>
                (⟨{ db with tags := { db.tags with artTagRepo := artTagRepo } }, profile⟩,
                  .ok (.product artProd.product.articleUuid))
          else (⟨db, profile⟩, .ok (.product artProd.product.articleUuid))

def userPath : Service Site Request (Except Exception Response) :=
  ⟨fun site request =>
    match request with
    | .savePost form publish drawn => savePost web sha1 site form publish drawn
    | .updatePost form => updatePost web sha1 site form
    | .deleteArticles uuids => deleteUserArticle sha1 site uuids
    | .saveProduct form publish drawn => saveProduct web sha1 newString site form publish drawn⟩

/-! ## The records of other users -/

/-- Every post, brief and product of another user is what it was. -/
structure Untouched (userUuid : UserUuid) (before after : Database) : Prop where
  post : ∀ row ∈ before.artPostRepo.rows, row.authorUuid ≠ userUuid → row ∈ after.artPostRepo.rows
  brief : ∀ row ∈ before.artBriefRepo.rows, row.authorUuid ≠ userUuid →
    row ∈ after.artBriefRepo.rows
  product : ∀ row ∈ before.artProdRepo.rows, row.authorUuid ≠ userUuid →
    row ∈ after.artProdRepo.rows

/-- What is stored under a uuid is the user's own. -/
def OwnPost (db : Database) (userUuid : UserUuid) (artUuid : String) : Prop :=
  ∀ post ∈ db.artPostRepo.find artUuid, post.authorUuid = userUuid

def OwnBrief (db : Database) (userUuid : UserUuid) (artUuid : String) : Prop :=
  ∀ brief ∈ db.artBriefRepo.find artUuid, brief.authorUuid = userUuid

def OwnProduct (db : Database) (userUuid : UserUuid) (artUuid : String) : Prop :=
  ∀ product ∈ db.artProdRepo.find artUuid, product.authorUuid = userUuid

variable {web} {sha1} {newString} {db : Database} {userUuid : UserUuid} {artUuid : String}

/-- Rows of other users outlive a save under a uuid of the user. -/
theorem mem_save_of_own {Row : Type} [Entity Row String] {author : Row → UserUuid}
    {repo : Repository Row} {saved : Row}
    (own : ∀ row ∈ repo.find (Entity.key saved), author row = userUuid) :
    ∀ row ∈ repo.rows, author row ≠ userUuid → row ∈ (repo.save saved).rows := by
  intro row inside others
  apply Repository.mem_save.mpr (Or.inr ⟨inside, ?_⟩)
  intro same
  exact others (own row (same ▸ Repository.find_of_mem inside))

private theorem mem_delete_of_own {Row : Type} [Entity Row String] {author : Row → UserUuid}
    {repo : Repository Row} (own : ∀ row ∈ repo.find artUuid, author row = userUuid) :
    ∀ row ∈ repo.rows, author row ≠ userUuid → row ∈ (repo.delete artUuid).rows := by
  intro row inside others
  refine Repository.mem_deleteAll.mpr ⟨inside, decide_eq_false ?_⟩
  intro same
  exact others (own row (same ▸ Repository.find_of_mem inside))

namespace Untouched

theorem refl (userUuid : UserUuid) (db : Database) : Untouched userUuid db db where
  post := fun _ inside _ => inside
  brief := fun _ inside _ => inside
  product := fun _ inside _ => inside

theorem trans {before between after : Database} (left : Untouched userUuid before between)
    (right : Untouched userUuid between after) : Untouched userUuid before after where
  post := fun row inside others => right.post row (left.post row inside others) others
  brief := fun row inside others => right.brief row (left.brief row inside others) others
  product := fun row inside others => right.product row (left.product row inside others) others

theorem saveBrief {live : LiveBrief} (own : OwnBrief db userUuid live.brief.articleUuid) :
    Untouched userUuid db (db.saveBrief live) :=
  { refl userUuid db with brief := mem_save_of_own own }

theorem savePost {post : ArticlePost} (own : OwnPost db userUuid post.articleUuid) :
    Untouched userUuid db (db.savePost post) :=
  { refl userUuid db with post := mem_save_of_own own }

theorem deletePost (own : OwnPost db userUuid artUuid) :
    Untouched userUuid db (db.deletePost artUuid) :=
  { refl userUuid db with post := mem_delete_of_own own }

theorem saveProduct {live : LiveProduct} (own : OwnProduct db userUuid live.product.articleUuid) :
    Untouched userUuid db (db.saveProduct live) :=
  { refl userUuid db with product := mem_save_of_own own }

theorem cleaned (own : OwnBrief db userUuid artUuid) (tag : Option Octets) :
    Untouched userUuid db (ArticleSvc.cleaned sha1 db artUuid tag) :=
  { refl userUuid db with brief := mem_delete_of_own own }

end Untouched

/-! ## Posts -/

open ArticleSvc (Full)

/-- A form goes into a brief only where it has content and the brief has a base. -/
theorem updateFrom_ok {live next : LiveBrief} {form : PostForm}
    (done : live.updateFrom sha1 form = .ok next) :
    live.artBase ≠ none ∧ form.content ≠ none ∧
      next.brief.articleUuid = live.brief.articleUuid ∧
      next.brief.hasArticle = (live.brief.hasArticle && decide (Full form)) := by
  unfold LiveBrief.updateFrom at done
  split at done
  case h_1 tag base content _ based text =>
    cases done
    refine ⟨?_, ?_, rfl, ArticleSvc.lowered_eq text _⟩
    · rw [based]
      exact Option.some_ne_none base
    · rw [text]
      exact Option.some_ne_none content
  case h_2 => cases done

private theorem ofForm_ok {art : LivePost} {form : PostForm} {live : LiveBrief}
    (done : LiveBrief.ofForm sha1 art form = .ok live) :
    art.artBase ≠ none ∧ form.content ≠ none ∧ live.brief.articleUuid = art.articleUuid ∧
      live.brief.hasArticle = decide (Full form) := by
  unfold LiveBrief.ofForm at done
  split at done
  case h_1 => cases done
  case h_2 base based =>
    cases made : (LiveBrief.new art base).updateFrom sha1 form with
    | error error =>
        rw [made] at done
        cases done
    | ok first =>
        obtain ⟨-, text, key, flag⟩ := updateFrom_ok made
        rw [made] at done
        cases done
        refine ⟨based ▸ Option.some_ne_none base, text, ?_, ?_⟩
        · split
          · exact key
          · exact key
        · split
          · exact flag
          · exact flag

/-- A brief is updated only where it is there with its base. -/
theorem draft_update_ok {art : LivePost} {form : PostForm} {live : LiveBrief}
    (done : ArticleSvc.draft sha1 db form art true = .ok live) :
    db.artBriefRepo.find art.articleUuid ≠ none ∧ db.artBaseRepo.find art.articleUuid ≠ none ∧
      form.content ≠ none ∧ live.brief.articleUuid = art.articleUuid := by
  simp only [ArticleSvc.draft, if_true, Database.findBrief] at done
  cases found : db.artBriefRepo.find art.articleUuid with
  | none =>
      simp only [found, Option.map_none] at done
      cases done
  | some brief =>
      simp only [found, Option.map_some] at done
      obtain ⟨based, text, same, -⟩ := updateFrom_ok done
      exact ⟨Option.some_ne_none brief, based, text, same.trans (Repository.key_of_find found)⟩

private theorem fetchPost_articleUuid (site : Site) (artUuid : String) :
    (fetchPost site artUuid).articleUuid = artUuid := by
  unfold fetchPost
  split
  case h_1 post found => exact Repository.key_of_find found
  case h_2 => rfl

/-- A saved post writes its brief, and its post where it is long enough or was there before. -/
theorem savePost_untouched {art : LivePost} {form : PostForm} {live result : LiveBrief}
    {profile later : ProfileDTO} {publish update : Bool} {after : Database}
    (drafted : ArticleSvc.draft sha1 db form art update = .ok live)
    (ownBrief : OwnBrief db userUuid live.brief.articleUuid)
    (ownPost : update = true ∨ live.brief.hasArticle = true →
      OwnPost db userUuid art.articleUuid)
    (done : ArticleSvc.savePost sha1 db form art profile publish update =
      .ok (after, later, result)) :
    Untouched userUuid db after ∧ later.userUuid = profile.userUuid := by
  have brief : Untouched userUuid db
      (db.saveBrief ((live.setPublish publish).setArtTag "blog")) :=
    Untouched.saveBrief ownBrief
  have flag : ((live.setPublish publish).setArtTag "blog").brief.hasArticle =
    live.brief.hasArticle := rfl
  unfold ArticleSvc.savePost at done
  simp only [drafted, flag] at done
  split at done
  case isTrue lowered =>
    cases update with
    | false =>
        cases done
        exact ⟨brief, rfl⟩
    | true =>
        cases done
        exact ⟨brief.trans (Untouched.deletePost (ownPost (Or.inl rfl))), rfl⟩
  case isFalse raised =>
    cases done
    have own := ownPost (Or.inr (by simpa using raised))
    exact ⟨brief.trans (Untouched.savePost own), rfl⟩

/-! ## Deletions -/

open ArticleSvc (Elsewhere deleteArticlePost)

variable (sha1 db userUuid artUuid) in
/-- The deletion of an article gets as far as its brief. -/
def RemovesBrief : Prop :=
  ∃ base ∈ db.artBaseRepo.find artUuid,
    match db.artPostRepo.find artUuid with
    | some post => post.authorUuid = userUuid ∧ ArticleSvc.Accepted sha1 db base.publicTag
    | none =>
        db.artBriefRepo.find artUuid ≠ none ∧ ∃ artTag ∈ base.artTag,
          if artTag = "ads" then
            ∃ ads ∈ db.artAdsRepo.find artUuid, ArticleSvc.Accepted sha1 db ads.busCat
          else artTag ≠ "estore" ∧ ArticleSvc.Accepted sha1 db base.publicTag

variable (sha1 db userUuid artUuid) in
/-- What a deletion leaves where it does not fail. -/
inductive Deleted : Database → Prop where
  | same : Deleted db
  | bare (own : OwnPost db userUuid artUuid) (baseless : db.artBaseRepo.find artUuid = none) :
      Deleted (db.deletePost artUuid)
  | post (tag : Option Octets) (own : OwnPost db userUuid artUuid)
      (reaches : RemovesBrief sha1 db userUuid artUuid) :
      Deleted ((ArticleSvc.cleaned sha1 db artUuid tag).deletePost artUuid)
  | ads (tag : Option Octets) (reaches : RemovesBrief sha1 db userUuid artUuid) :
      Deleted ((ArticleSvc.cleaned sha1 db artUuid tag).deleteAds artUuid)

/-- A cleanup that does not fail has an accepted tag. -/
theorem commonDelete_ok {tag : Option Octets} {finish : Database → Database}
    {result : Option ArticleSvc.DeletedPost} {after : Database}
    {reply : Option ArticleSvc.DeletedPost}
    (done : ((ArticleSvc.commonDelete sha1 db artUuid tag).map finish).map
      (fun db => (db, result)) = .ok (after, reply)) :
    ArticleSvc.Accepted sha1 db tag ∧ after = finish (ArticleSvc.cleaned sha1 db artUuid tag) := by
  by_cases accepted : ArticleSvc.Accepted sha1 db tag
  · rw [ArticleSvc.commonDelete_accepted accepted] at done
    cases done
    exact ⟨accepted, rfl⟩
  · rw [ArticleSvc.commonDelete_refused accepted] at done
    cases done

private theorem removesBrief_of_brief {brief : ArticleBrief} {base : ArticleBase} {artTag : String}
    (noPost : db.artPostRepo.find artUuid = none)
    (found : db.artBriefRepo.find artUuid = some brief)
    (based : db.artBaseRepo.find artUuid = some base) (kind : base.artTag = some artTag)
    (way : if artTag = "ads" then
        ∃ ads ∈ db.artAdsRepo.find artUuid, ArticleSvc.Accepted sha1 db ads.busCat
      else artTag ≠ "estore" ∧ ArticleSvc.Accepted sha1 db base.publicTag) :
    RemovesBrief sha1 db userUuid artUuid := by
  refine ⟨base, based, ?_⟩
  simp only [noPost]
  exact ⟨found ▸ Option.some_ne_none brief, artTag, kind, way⟩

private theorem deleteArticlePost_deleted {after : Database} {reply : Option ArticleSvc.DeletedPost}
    (done : deleteArticlePost sha1 db artUuid userUuid = .ok (after, reply)) :
    Deleted sha1 db userUuid artUuid after := by
  have way := ArticleSvc.deleteArticlePost_way sha1 db artUuid userUuid
  rw [done] at way
  generalize result : (.ok (after, reply) : Except Exception _) = answer at way
  cases way with
  | refused => cases result; exact .same
  | post stored own =>
      have key : ArticlePost.articleUuid _ = artUuid := Repository.key_of_find stored
      have ownPost : OwnPost db userUuid artUuid := by
        intro other there
        cases stored.symm.trans there
        exact own
      rw [ArticleSvc.deleteStoredPost, key] at result
      cases based : db.artBaseRepo.find artUuid with
      | none =>
          simp only [based] at result
          cases result
          exact .bare ownPost based
      | some base =>
          have same : base.articleUuid = artUuid := Repository.key_of_find based
          simp only [based, same] at result
          obtain ⟨accepted, rfl⟩ := commonDelete_ok result.symm
          refine .post base.publicTag ownPost ⟨base, based, ?_⟩
          simp only [stored]
          exact ⟨own, accepted⟩
  | missing => cases result; exact .same
  | failed => cases result
  | bareAds => cases result; exact .same
  | ads noPost found based kind record =>
      have same : ArtAds.articleUuid _ = artUuid := Repository.key_of_find record
      rw [ArticleSvc.deleteArtAds, same] at result
      obtain ⟨accepted, rfl⟩ := commonDelete_ok result.symm
      refine .ads _ (removesBrief_of_brief noPost found based kind ?_)
      rw [if_pos rfl]
      exact ⟨_, record, accepted⟩
  | product => cases result; exact .same
  | brief noPost found based kind noAds noProduct =>
      have same : ArticleBrief.articleUuid _ = artUuid := Repository.key_of_find found
      rw [ArticleSvc.deleteArticleBrief, same] at result
      obtain ⟨accepted, rfl⟩ := commonDelete_ok result.symm
      refine .post _ ?_ (removesBrief_of_brief noPost found based kind ?_)
      · intro post there
        cases noPost.symm.trans there
      · rw [if_neg noAds]
        exact ⟨noProduct, accepted⟩

variable (sha1 db userUuid artUuid) in
/-- A brief that a deletion gets to is the user's own. -/
def DeletesOwn : Prop :=
  RemovesBrief sha1 db userUuid artUuid → OwnBrief db userUuid artUuid

namespace Deleted

variable {after : Database}

theorem untouched (deleted : Deleted sha1 db userUuid artUuid after)
    (own : DeletesOwn sha1 db userUuid artUuid) : Untouched userUuid db after := by
  cases deleted with
  | same => exact Untouched.refl userUuid db
  | bare ownPost baseless => exact Untouched.deletePost ownPost
  | post tag ownPost reaches =>
      exact (Untouched.cleaned (own reaches) tag).trans (Untouched.deletePost ownPost)
  | ads tag reaches =>
      have rest : Untouched userUuid (ArticleSvc.cleaned sha1 db artUuid tag)
          ((ArticleSvc.cleaned sha1 db artUuid tag).deleteAds artUuid) :=
        { Untouched.refl userUuid _ with }
      exact (Untouched.cleaned (own reaches) tag).trans rest

theorem elsewhere (deleted : Deleted sha1 db userUuid artUuid after) :
    Elsewhere [artUuid] db after := by
  have inside : artUuid ∈ [artUuid] := List.mem_singleton.mpr rfl
  cases deleted with
  | same => exact Elsewhere.refl _ db
  | bare ownPost baseless => exact Elsewhere.deletePost inside db
  | post tag ownPost reaches =>
      exact (Elsewhere.cleaned inside db tag).trans (Elsewhere.deletePost inside _)
  | ads tag reaches =>
      exact (Elsewhere.cleaned inside db tag).trans (Elsewhere.deleteAds inside _)

/-- A deletion changes nothing, or leaves no base. -/
theorem same_or_baseless (deleted : Deleted sha1 db userUuid artUuid after) :
    after = db ∨ after.artBaseRepo.find artUuid = none := by
  cases deleted with
  | same => exact Or.inl rfl
  | bare ownPost baseless => exact Or.inr baseless
  | post tag ownPost reaches => exact Or.inr (Repository.find_delete_self _ artUuid)
  | ads tag reaches => exact Or.inr (Repository.find_delete_self _ artUuid)

end Deleted

private theorem accepted_of_elsewhere {uuids : List String} {after : Database}
    (elsewhere : Elsewhere uuids db after) (tag : Option Octets) :
    ArticleSvc.Accepted sha1 after tag ↔ ArticleSvc.Accepted sha1 db tag := by
  unfold ArticleSvc.Accepted
  apply forall₂_congr
  intro key _
  have same := congrArg Option.isSome (elsewhere.tag key)
  rw [Option.isSome_map, Option.isSome_map] at same
  rw [← Option.isSome_iff_ne_none, ← Option.isSome_iff_ne_none, same]

/-- Deletions of other articles do not get in the way. -/
theorem Deleted.deletesOwn {after : Database} {other : String}
    (deleted : Deleted sha1 db userUuid artUuid after)
    (own : DeletesOwn sha1 db userUuid other) : DeletesOwn sha1 after userUuid other := by
  rcases deleted.same_or_baseless with rfl | baseless
  · exact own
  by_cases here : other = artUuid
  · subst here
    rintro ⟨base, based, -⟩
    cases baseless.symm.trans based
  · have apart : other ∉ [artUuid] := by simpa using here
    have elsewhere := deleted.elsewhere
    unfold DeletesOwn RemovesBrief OwnBrief at own ⊢
    simp only [elsewhere.post other apart, elsewhere.brief other apart,
      elsewhere.base other apart, elsewhere.ads other apart,
      accepted_of_elsewhere elsewhere]
    exact own

/-- **Deletions.** Each is of an article whose brief is the user's own or is not reached. -/
theorem deleteEach_untouched (uuids : List String) : ∀ {db : Database} {ok failed : List String},
    (∀ uid ∈ uuids, DeletesOwn sha1 db userUuid uid) →
      Untouched userUuid db (deleteEach sha1 db userUuid uuids ok failed).1 := by
  induction uuids with
  | nil => exact fun _ => Untouched.refl userUuid _
  | cons uid rest ih =>
      intro db ok failed own
      have goesOn : ∀ {after : Database} {ok failed : List String},
          Deleted sha1 db userUuid uid after →
            Untouched userUuid db (deleteEach sha1 after userUuid rest ok failed).1 := by
        intro after ok failed deleted
        apply (deleted.untouched (own uid List.mem_cons_self)).trans
        apply ih
        exact fun other later => deleted.deletesOwn (own other (List.mem_cons_of_mem _ later))
      unfold deleteEach
      split
      case h_1 => exact Untouched.refl userUuid db
      case h_2 after done => exact goesOn (deleteArticlePost_deleted done)
      case h_3 after post done => exact goesOn (deleteArticlePost_deleted done)

/-! ## Products -/

/-- The rank of a product writes its brief, and only where the product has a base. -/
theorem createProductRank_ok {product : LiveProduct} {after : Database} {rank : LiveBrief}
    (done : AuthorService.createProductRank sha1 newString db product = .ok (after, rank)) :
    product.artBase ≠ none ∧
      (OwnBrief db userUuid product.product.articleUuid → Untouched userUuid db after) := by
  have served : (AuthorService.service sha1 newString).serve db (.createProductRank product) =
      (after, .ok rank) := Service.transactional_ok done
  have same := served.symm.trans (AuthorService.serve_eq db (.createProductRank product))
  rcases AuthorService.briefOf_cases sha1 (.createProductRank product) with
    ⟨made, given, item, -, -, based⟩ | ⟨⟨error, failed⟩, -⟩
  · rw [given] at same
    cases same
    refine ⟨based, ?_⟩
    intro own
    have tagged : Untouched userUuid db (AuthorService.saveAuthorTag db
        ⟨AuthorService.freshTag sha1 newString (.createProductRank product), true⟩) :=
      { Untouched.refl userUuid db with }
    apply tagged.trans
    apply Untouched.saveBrief
    rw [item]
    exact own
  · rw [failed] at same
    cases same

/-! ## The requests -/

variable (web sha1) in
/-- What a request would write over or delete is the user's own: the brief of the article that a
post is saved as, and its post where one is saved or deleted; the briefs that deletions get to; the
product that is saved, and its brief. -/
def Guard (site : Site) : Request → Prop
  | .savePost raw _ drawn => ∀ form ∈ raw.cleanInput web,
      let art := genPendPost site form.articleUuid drawn
      art.artBase ≠ none → form.content ≠ none →
        OwnBrief site.db site.profile.userUuid art.articleUuid ∧
        (Full form → OwnPost site.db site.profile.userUuid art.articleUuid)
  | .updatePost raw => ∀ form ∈ raw.cleanInput web,
      let artUuid := form.articleUuid.getD ""
      site.db.artBriefRepo.find artUuid ≠ none → site.db.artBaseRepo.find artUuid ≠ none →
        form.content ≠ none →
          OwnBrief site.db site.profile.userUuid artUuid ∧
          OwnPost site.db site.profile.userUuid artUuid
  | .deleteArticles uuids => ∀ uid ∈ uuids,
      RemovesBrief sha1 site.db site.profile.userUuid uid →
        OwnBrief site.db site.profile.userUuid uid
  | .saveProduct raw _ drawn => ∀ form ∈ raw.cleanInput web,
      let product := genPendProduct site form.articleUuid drawn
      OwnProduct site.db site.profile.userUuid product.product.articleUuid ∧
      (product.artBase ≠ none →
        OwnBrief site.db site.profile.userUuid product.product.articleUuid)

/-- The user is the same, and no record of another user changed. -/
def Keeps (before after : Site) : Prop :=
  after.profile.userUuid = before.profile.userUuid ∧
    Untouched before.profile.userUuid before.db after.db

theorem Keeps.refl (site : Site) : Keeps site site :=
  ⟨rfl, Untouched.refl _ _⟩

theorem Keeps.trans {first second third : Site} (left : Keeps first second)
    (right : Keeps second third) : Keeps first third := by
  obtain ⟨sameUser, rest⟩ := right
  rw [left.1] at rest
  exact ⟨sameUser.trans left.1, left.2.trans rest⟩

private theorem savePost_keeps {site : Site} {form : PostForm} {publish : Bool} {drawn : String}
    (guarded : Guard web sha1 site (.savePost form publish drawn)) :
    Keeps site (savePost web sha1 site form publish drawn).1 := by
  unfold savePost
  cases accepted : form.cleanInput web with
  | none => exact Keeps.refl site
  | some form =>
      simp only
      split
      case h_1 => exact ⟨rfl, Untouched.refl _ _⟩
      case h_2 after profile live done =>
        cases drafted : ArticleSvc.draft sha1 site.db form
            (genPendPost site form.articleUuid drawn) false with
        | error error =>
            rw [ArticleSvc.savePost_failed _ _ _ drafted] at done
            cases done
        | ok live =>
            obtain ⟨based, text, key, flag⟩ := ofForm_ok drafted
            obtain ⟨ownBrief, ownPost⟩ := guarded form accepted based text
            obtain ⟨untouched, sameUser⟩ := savePost_untouched drafted (key ▸ ownBrief) (by
              rintro (isUpdate | raised)
              · cases isUpdate
              · exact ownPost (of_decide_eq_true (flag ▸ raised))) done
            exact ⟨sameUser, untouched⟩

private theorem updatePost_keeps {site : Site} {form : PostForm}
    (guarded : Guard web sha1 site (.updatePost form)) :
    Keeps site (updatePost web sha1 site form).1 := by
  unfold updatePost
  cases accepted : form.cleanInput web with
  | none => exact Keeps.refl site
  | some form =>
      simp only
      split
      case h_1 => exact Keeps.refl site
      case h_2 after profile live done =>
        have key := fetchPost_articleUuid site (form.articleUuid.getD "")
        cases drafted : ArticleSvc.draft sha1 site.db form
            (fetchPost site (form.articleUuid.getD "")) true with
        | error error =>
            rw [ArticleSvc.savePost_failed _ _ _ drafted] at done
            cases done
        | ok live =>
            obtain ⟨found, based, text, same⟩ := draft_update_ok drafted
            rw [key] at found based same
            obtain ⟨ownBrief, ownPost⟩ := guarded form accepted found based text
            obtain ⟨untouched, sameUser⟩ := savePost_untouched drafted (same ▸ ownBrief)
              (fun _ => by rw [key]; exact ownPost) done
            exact ⟨sameUser, untouched⟩

private theorem deleteUserArticle_keeps {site : Site} {uuids : List String}
    (guarded : Guard web sha1 site (.deleteArticles uuids)) :
    Keeps site (deleteUserArticle sha1 site uuids).1 :=
  ⟨rfl, deleteEach_untouched uuids guarded⟩

/-- A product that is saved twice is saved. -/
theorem saveProduct_twice {product : LiveProduct}
    (own : OwnProduct db userUuid product.product.articleUuid) (publish : Bool) :
    Untouched userUuid db
        (if publish then db.saveProduct product
        else (db.saveProduct product).saveProduct product) ∧
      (if publish then db.saveProduct product
        else (db.saveProduct product).saveProduct product).artBriefRepo = db.artBriefRepo := by
  have once : Untouched userUuid db (db.saveProduct product) :=
    Untouched.saveProduct own
  cases publish with
  | true => exact ⟨once, rfl⟩
  | false =>
      refine ⟨⟨once.post, once.brief, ?_⟩, rfl⟩
      intro row inside others
      have again : (db.artProdRepo.save product.product).save product.product =
          db.artProdRepo.save product.product :=
        Repository.save_eq_self (Repository.find_save_self _ _)
      change row ∈ ((db.artProdRepo.save product.product).save product.product).rows
      rw [again]
      exact once.product row inside others

theorem saveProduct_keeps {site : Site} {form : ProductForm} {publish : Bool} {drawn : String}
    (guarded : Guard web sha1 site (.saveProduct form publish drawn)) :
    Keeps site (saveProduct web sha1 newString site form publish drawn).1 := by
  unfold saveProduct
  cases accepted : form.cleanInput web with
  | none => exact Keeps.refl site
  | some form =>
      obtain ⟨ownProduct, ownBrief⟩ := guarded form accepted
      have own : OwnProduct site.db site.profile.userUuid
          (ArticleSvc.applyPostProduct form (genPendProduct site form.articleUuid drawn)
            publish).product.articleUuid := ownProduct
      obtain ⟨saved, briefs⟩ := saveProduct_twice own publish
      simp only
      split
      case h_1 => exact ⟨rfl, saved⟩
      case h_2 after rank done =>
        obtain ⟨based, ranked⟩ := createProductRank_ok done
        have ranks : Untouched site.profile.userUuid site.db after := by
          apply saved.trans
          apply ranked
          unfold OwnBrief
          rw [briefs]
          exact ownBrief based
        cases publish with
        | false => exact ⟨rfl, ranks⟩
        | true =>
            simp only [if_true]
            split
            case h_1 => exact ⟨rfl, ranks⟩
            case h_2 => exact ⟨rfl, ranks.trans { Untouched.refl _ after with }⟩

/-- **One request.** -/
theorem serve_keeps {site : Site} {request : Request} (guarded : Guard web sha1 site request) :
    Keeps site ((userPath web sha1 newString).serve site request).1 := by
  cases request with
  | savePost form publish drawn => exact savePost_keeps guarded
  | updatePost form => exact updatePost_keeps guarded
  | deleteArticles uuids => exact deleteUserArticle_keeps guarded
  | saveProduct form publish drawn => exact saveProduct_keeps guarded

/-- **In every state that requests of a user lead to, the posts, briefs and products of all other
users are what they were, where each request writes over and deletes only the user's own.** -/
theorem others_untouched (web : Web) (sha1 : Sha1) (newString : Octets → Text) (site : Site)
    (requests : List Request)
    (meets : (userPath web sha1 newString).Meets (Guard web sha1) site requests) :
    ∀ reached, reached <+: requests →
      Untouched site.profile.userUuid site.db
        ((userPath web sha1 newString).after site reached).db := by
  rintro reached ⟨rest, rfl⟩
  have kept : Keeps site ((userPath web sha1 newString).after site reached) :=
    Service.frame_after Keeps.refl (fun _ _ _ => Keeps.trans) (fun _ _ => serve_keeps)
      (Service.along_of_append meets)
  exact kept.2

/-! ## An essay of somebody else -/

def essay : LiveBrief where
  brief :=
    { articleUuid := "essay", authorUuid := publicUuid, tagHash := "", tag := none
      prevArticle := none, nextArticle := none, topArticle := none, contentBrief := none
      favorite := false, hasArticle := false }
  artBase := some { ArticleBase.new "essay" with artTag := some "blog" }
  artAttr := some (ArticleAttr.new "essay")

/-- A reader in front of a short article, which has a brief and no post. -/
def library : Site where
  db := Database.empty.saveBrief essay
  profile := ⟨⟨List.replicate 36 0x72, rfl⟩, none, none, none⟩

/-- A note of the reader leaves the essay alone. -/
theorem note_leaves_essay :
    Untouched library.profile.userUuid library.db
      ((userPath ArticleSvc.plainWeb ArtTagService.plainSha1 AuthorService.ascii).after library
        [.savePost (ArticleSvc.diaryForm [0x61]) true "note"]).db := by
  refine others_untouched _ _ _ _ [.savePost (ArticleSvc.diaryForm [0x61]) true "note"] ?_ _
    List.prefix_rfl
  refine ⟨?_, trivial⟩
  rintro form ⟨⟩
  intro art _ _
  refine ⟨?_, fun _ => ?_⟩
  · change ∀ brief ∈ _, _
    decide +kernel
  · change ∀ post ∈ _, _
    decide +kernel

/-- The reader deletes the essay. -/
theorem essay_deleted :
    ¬ Untouched library.profile.userUuid library.db
      ((userPath ArticleSvc.plainWeb ArtTagService.plainSha1 AuthorService.ascii).after library
        [.deleteArticles ["essay"]]).db := by
  intro untouched
  exact absurd (untouched.brief essay.brief (by decide +kernel) (by decide +kernel))
    (by decide +kernel)

end UserPath

end Tvntd
