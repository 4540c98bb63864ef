import Tvntd.Java.Database
import Tvntd.Java.PostForm
import Tvntd.Lib.Service

/-! # Saving of posts

The text of an article is kept in its brief alone, or in a post too. Which of the
two it is says a flag of the brief, which an update may lower and never raises.
-/

namespace Tvntd

def PERM_PRIVATE : Int := 0x80000000

def ArticleBase.new (artUuid : String) : ArticleBase where
  articleUuid := artUuid
  authorId := none
  permMask := 0
  artTitle := none
  publicTag := none
  artTag := none
  contentOid := none
  contentLinkUrl := none

/-- A post in memory. Only a new one has its base at hand, which shares its uuid. -/
structure LivePost where
  post : ArticlePost
  artBase : Option ArticleBase
  shared : ∀ base ∈ artBase, base.articleUuid = post.articleUuid
deriving DecidableEq

namespace LivePost

def articleUuid (art : LivePost) : String := art.post.articleUuid

/-- A new post of an author. -/
def new (articleUuid : String) (authorUuid : UserUuid) (authorId : Option Int) : LivePost where
  post :=
    { articleUuid := articleUuid, authorUuid := authorUuid, content := none, pending := true }
  artBase := some { ArticleBase.new articleUuid with authorId := authorId }
  shared := by simp [ArticleBase.new]

/-- A post from the database. -/
def ofStored (post : ArticlePost) : LivePost := ⟨post, none, nofun⟩

end LivePost

/-- The user of a session, with what is not saved yet. -/
structure ProfileDTO where
  userUuid : UserUuid
  userId : Option Int
  pendPost : Option LivePost
  pendProd : Option LiveProduct

namespace LiveBrief

def makeUrlLink (host : Text) (mode : Nat) : Text :=
  if mode = DOC_TYPE then Text.ofString "DOC:" ++ host
  else if mode = VID_TYPE then Text.ofString "VID:" ++ host
  else if mode = DRV_TYPE then Text.ofString "DRV:" ++ host
  else Text.ofString "HEX:" ++ host

/-- The base with the link of a form. -/
def linkBase (form : PostForm) (base : ArticleBase) : ArticleBase :=
  match form.contentUrlHost, form.contentUrlFile with
  | some host, some url =>
      { base with contentLinkUrl := some url, contentOid := some (makeUrlLink host form.docType) }
  | _, _ => base

variable (sha1 : Sha1)

def updateFrom (live : LiveBrief) (form : PostForm) : Except Exception LiveBrief :=
  match toRawByte form.tags 64, live.artBase, form.content with
  | some tag, some base, some content =>
      .ok
        { live with
          brief :=
            { live.brief with
              tag := some tag
              tagHash := toSha1Key sha1 tag live.brief.authorUuid
              contentBrief := toRawByte form.contentBrief 256
              hasArticle :=
                live.brief.hasArticle && !decide form.Linked && !decide (content.length < 256) }
          artBase := some { linkBase form base with artTitle := toRawByte form.topic 128 } }
  | _, _, _ => .error .nullPointer

def mapBase (live : LiveBrief) (change : ArticleBase → ArticleBase) : LiveBrief :=
  { live with artBase := live.artBase.map change }

/-- The brief of a new post. Its tag and the hash of that are set by a form. -/
def new (art : LivePost) (base : ArticleBase) : LiveBrief where
  brief :=
    { articleUuid := art.articleUuid, authorUuid := art.post.authorUuid, tagHash := ""
      tag := none, prevArticle := none, nextArticle := none, topArticle := none
      contentBrief := none, favorite := false, hasArticle := true }
  artBase := some base
  artAttr := some (ArticleAttr.new base.articleUuid)

def ofForm (art : LivePost) (form : PostForm) : Except Exception LiveBrief :=
  match art.artBase with
  | none => .error .nullPointer
  | some base =>
      ((new art base).updateFrom sha1 form).map fun live =>
        if art.post.pending then live.mapBase fun base => { base with permMask := PERM_PRIVATE }
        else live

def setPublish (live : LiveBrief) (pub : Bool) : LiveBrief :=
  live.mapBase fun base => { base with permMask := if pub then 0 else PERM_PRIVATE }

def setArtTag (live : LiveBrief) (artTag : String) : LiveBrief :=
  live.mapBase fun base => { base with artTag := some artTag }

end LiveBrief

namespace ArticleSvc

variable (sha1 : Sha1)

/-- The brief that is saved. -/
def draft (db : Database) (form : PostForm) (art : LivePost) (update : Bool) :
    Except Exception LiveBrief :=
  if update then
    match db.findBrief art.articleUuid with
    | none => .error .nullPointer
    | some live => live.updateFrom sha1 form
  else LiveBrief.ofForm sha1 art form

def savePost (db : Database) (form : PostForm) (art : LivePost) (profile : ProfileDTO)
    (publish update : Bool) : Except Exception (Database × ProfileDTO × LiveBrief) :=
  match draft sha1 db form art update with
  | .error error => .error error
  | .ok live =>
      let post := { art.post with pending := !publish }
      let live := (live.setPublish publish).setArtTag "blog"
      let profile := { profile with pendPost := none }
      if live.brief.hasArticle = false then
        let db := db.saveBrief live
        .ok (if update then db.deletePost post.articleUuid else db, profile, live)
      else
        let post := { post with content := toRawByte form.content 65536 }
        .ok ((db.saveBrief live).savePost post, profile, live)

/-! ## The calls on one article -/

variable (web : Web) (artUuid : String)

/-- A call with a form that was accepted, for a post of the article. -/
structure SaveCall where
  form : { form : PostForm // ∃ raw, PostForm.cleanInput web raw = some form }
  art : { art : LivePost // art.articleUuid = artUuid }
  profile : ProfileDTO
  publish : Bool

inductive SaveRequest where
  | create (call : SaveCall web artUuid)
  | update (call : SaveCall web artUuid)

variable {web artUuid}

namespace SaveRequest

def call : SaveRequest web artUuid → SaveCall web artUuid
  | create call => call
  | update call => call

def isUpdate : SaveRequest web artUuid → Bool
  | create _ => false
  | update _ => true

end SaveRequest

/-- A creation and the updates behind it. -/
def history (first : SaveCall web artUuid) (updates : List (SaveCall web artUuid)) :
    List (SaveRequest web artUuid) :=
  .create first :: updates.map .update

/-- The form has text enough for a post, and no link in its place. -/
def Full (form : PostForm) : Prop :=
  ¬ form.Linked ∧ ∀ content ∈ form.content, 256 ≤ content.length

instance (form : PostForm) : Decidable (Full form) :=
  inferInstanceAs (Decidable (_ ∧ ∀ content ∈ form.content, _))

/-- The text fits into a post. -/
def Fits (form : PostForm) : Prop :=
  ∀ content ∈ form.content, (Text.getBytes content).length ≤ 65536

instance (form : PostForm) : Decidable (Fits form) :=
  inferInstanceAs (Decidable (∀ content ∈ form.content, _))

variable (artUuid) in
/-- What is asked of a call: it does not fail, there is a post exactly where the brief says so,
and a text that is long enough, fits and has no link is stored with its tag and its title. -/
structure Stored (form : PostForm) (after : Database) (reply : Except Exception LiveBrief) :
    Prop where
  answered : ∃ live, reply = .ok live
  flag : after.artPostRepo.find artUuid ≠ none ↔
    ∃ brief, after.artBriefRepo.find artUuid = some brief ∧ brief.hasArticle = true
  kept : ∀ content, form.content = some content → Full form → Fits form →
    ∃ post brief base, after.artPostRepo.find artUuid = some post ∧
      post.content = some (Text.getBytes content) ∧
      after.artBriefRepo.find artUuid = some brief ∧ brief.tag = toRawByte form.tags 64 ∧
      after.artBaseRepo.find artUuid = some base ∧ base.artTitle = toRawByte form.topic 128

variable {sha1} {db : Database}

/-- A brief that the form went into. -/
structure Drafted (artUuid : String) (form : PostForm) (full : Bool) (live : LiveBrief) : Prop where
  key : live.brief.articleUuid = artUuid
  tag : live.brief.tag = toRawByte form.tags 64
  flag : live.brief.hasArticle = (full && decide (Full form))
  base : ∃ base, live.artBase = some base ∧ base.articleUuid = artUuid ∧
    base.artTitle = toRawByte form.topic 128

theorem linkBase_articleUuid (form : PostForm) (base : ArticleBase) :
    (LiveBrief.linkBase form base).articleUuid = base.articleUuid := by
  unfold LiveBrief.linkBase
  split
  · rfl
  · rfl

theorem full_iff {form : PostForm} {content : Text} (text : form.content = some content) :
    Full form ↔ ¬ form.Linked ∧ 256 ≤ content.length := by
  simp only [Full, text, Option.mem_def, Option.some.injEq, forall_eq']

/-- The flag of a brief after a form. -/
theorem lowered_eq {form : PostForm} {content : Text} (text : form.content = some content)
    (flag : Bool) :
    (flag && !decide form.Linked && !decide (content.length < 256)) =
      (flag && decide (Full form)) := by
  simp only [full_iff text, Bool.decide_and, decide_not, Bool.and_assoc]
  by_cases short : content.length < 256
  · simp [short]
  · simp [short, Nat.not_lt.mp short]

private theorem Drafted.mapBase {form : PostForm} {full : Bool} {live : LiveBrief}
    {change : ArticleBase → ArticleBase} (drafted : Drafted artUuid form full live)
    (keeps : ∀ base, (change base).articleUuid = base.articleUuid ∧
      (change base).artTitle = base.artTitle) :
    Drafted artUuid form full (live.mapBase change) := by
  obtain ⟨base, based, same, titled⟩ := drafted.base
  refine ⟨drafted.key, drafted.tag, drafted.flag, change base, ?_, ?_, ?_⟩
  · rw [LiveBrief.mapBase, based, Option.map_some]
  · exact (keeps base).1.trans same
  · exact (keeps base).2.trans titled

/-- The tables behind a call. -/
structure Saves (artUuid : String) (form : PostForm) (update full : Bool)
    (before after : Database) :
    Prop where
  brief : ∃ brief, after.artBriefRepo.find artUuid = some brief ∧
    brief.tag = toRawByte form.tags 64 ∧ brief.hasArticle = (full && decide (Full form))
  base : ∃ base, after.artBaseRepo.find artUuid = some base ∧
    base.artTitle = toRawByte form.topic 128
  kept : (full && decide (Full form)) = true →
    ∃ post, after.artPostRepo.find artUuid = some post ∧ post.content = toRawByte form.content 65536
  dropped : (full && decide (Full form)) = false →
    after.artPostRepo.find artUuid = if update then none else before.artPostRepo.find artUuid

theorem savePost_failed {art : LivePost} {form : PostForm} {error : Exception}
    (profile : ProfileDTO) (publish update : Bool)
    (failed : draft sha1 db form art update = .error error) :
    savePost sha1 db form art profile publish update = .error error := by
  unfold savePost
  simp only [failed]

/-! ## One call -/

/-- The brief of the article is there, and says whether all forms were long enough. -/
structure Known (artUuid : String) (full : Bool) (db : Database) : Prop where
  brief : ∃ brief, db.artBriefRepo.find artUuid = some brief ∧ brief.hasArticle = full
  base : ∃ base, db.artBaseRepo.find artUuid = some base

theorem Saves.known {form : PostForm} {update full : Bool} {before after : Database}
    (saves : Saves artUuid form update full before after) :
    Known artUuid (full && decide (Full form)) after := by
  obtain ⟨brief, found, -, flag⟩ := saves.brief
  obtain ⟨base, based, -⟩ := saves.base
  exact ⟨⟨brief, found, flag⟩, base, based⟩

/-- Texts without anything to clean. -/
def plainWeb : Web := ⟨id, id, id, fun _ => none, fun _ => none⟩

def diaryForm (content : Text) : PostForm where
  topic := none
  content := some content
  tags := none
  authorUuid := some "writer"
  articleUuid := some "diary"
  contentBrief := none
  videoUrl := none
  contentUrlFile := none
  contentUrlHost := none
  docType := 0

end ArticleSvc

end Tvntd
