import Tvntd.Java.AuthorService

/-! # Single and batch queries

`AuthorService` and `ArticleSvc` look up one uuid or a list of them. The query for
a list of authors leaves their tags out, and the query for a form never reads the
uuids of the form.
-/

namespace Tvntd

/-- `equals` on a uuid and the text of a request. -/
def UserUuid.equals (uuid : UserUuid) (text : String) : Bool :=
  uuid.bytes = Text.getBytes (Text.ofString text)

/-- A brief with what it owns. -/
def Database.liveBrief (db : Database) (brief : ArticleBrief) : LiveBrief :=
  ⟨brief, db.artBaseRepo.find brief.articleUuid, db.artAttrRepo.find brief.articleUuid⟩

namespace AuthorService

/-- What is told about an author: the record with its tags. -/
structure AuthorDTO where
  author : LiveAuthor

/-- The tags of an author. A tag that is loaded looks unsaved. -/
def findAllByAuthorUuid (db : Database) (uuid : UserUuid) : List LiveTag :=
  (db.tags.authorTagRepo.findAll fun tag => decide (tag.authorUuid = uuid)).map fun tag =>
    ⟨tag, true⟩

def getAuthor (db : Database) (uuid : UserUuid) : Option LiveAuthor :=
  (db.authorRepo.find uuid).map fun author => ⟨author, findAllByAuthorUuid db uuid⟩

def getAuthorDTO (db : Database) (uuid : UserUuid) : Option AuthorDTO :=
  (getAuthor db uuid).map AuthorDTO.mk

/-- `getAuthorDTO` of a list. An author is loaded without tags. -/
def getAuthorDTOList (db : Database) (userUuids : List UserUuid) : List AuthorDTO :=
  let out := db.authorRepo.findAll fun author => decide (author.authorUuid ∈ userUuids)
  out.map fun author => ⟨⟨author, []⟩⟩

/-- The list has the authors that its uuids have one by one. -/
def AuthorsAgree (db : Database) (uuids : List UserUuid) : Prop :=
  ∀ dto, dto ∈ getAuthorDTOList db uuids ↔ ∃ uuid ∈ uuids, getAuthorDTO db uuid = some dto

/-- None of the uuids is an author with tags. -/
def Untagged (db : Database) (uuids : List UserUuid) : Prop :=
  ∀ uuid ∈ uuids, ∀ author, db.authorRepo.find uuid = some author →
    ∀ tag ∈ db.tags.authorTagRepo.rows, tag.authorUuid ≠ uuid

variable {db : Database} {uuid : UserUuid}

private theorem findAllByAuthorUuid_eq_nil : findAllByAuthorUuid db uuid = [] ↔
    ∀ tag ∈ db.tags.authorTagRepo.rows, tag.authorUuid ≠ uuid := by
  simp [findAllByAuthorUuid, Repository.findAll]

private theorem mem_getAuthorDTOList {uuids : List UserUuid} {dto : AuthorDTO} :
    dto ∈ getAuthorDTOList db uuids ↔ ∃ uuid ∈ uuids, ∃ author,
      db.authorRepo.find uuid = some author ∧ dto = ⟨⟨author, []⟩⟩ := by
  unfold getAuthorDTOList
  rw [List.mem_map]
  constructor
  · rintro ⟨author, found, rfl⟩
    obtain ⟨inside, listed⟩ := Repository.mem_findAll.mp found
    exact ⟨author.authorUuid, of_decide_eq_true listed, author, Repository.find_of_mem inside, rfl⟩
  · rintro ⟨uuid, listed, author, found, rfl⟩
    have same : author.authorUuid = uuid := Repository.key_of_find found
    refine ⟨author, Repository.mem_findAll.mpr ⟨Repository.mem_of_find found, ?_⟩, rfl⟩
    exact decide_eq_true (same ▸ listed)

private theorem getAuthorDTO_eq_some {dto : AuthorDTO} : getAuthorDTO db uuid = some dto ↔
    ∃ author, db.authorRepo.find uuid = some author ∧
      dto = ⟨⟨author, findAllByAuthorUuid db uuid⟩⟩ := by
  unfold getAuthorDTO getAuthor
  rw [Option.map_map, Option.map_eq_some_iff]
  exact exists_congr fun author => and_congr_right fun _ => eq_comm

private theorem authorsAgree_iff (db : Database) (uuids : List UserUuid) :
    AuthorsAgree db uuids ↔ Untagged db uuids := by
  unfold AuthorsAgree
  simp only [mem_getAuthorDTOList, getAuthorDTO_eq_some]
  constructor
  · intro agree uuid listed author found
    obtain ⟨other, -, same, -, bare⟩ := (agree _).mpr ⟨uuid, listed, author, found, rfl⟩
    apply findAllByAuthorUuid_eq_nil.mp
    exact congrArg (fun dto => dto.author.authorTags) bare
  · intro untagged dto
    apply exists_congr
    intro uuid
    apply and_congr_right
    intro listed
    apply exists_congr
    intro author
    apply and_congr_right
    intro found
    rw [findAllByAuthorUuid_eq_nil.mpr (untagged uuid listed author found)]

end AuthorService

namespace ArticleSvc

/-- The uuids of a request and what they are the uuids of. -/
structure UuidForm where
  uuidType : Option String
  uuids : Option (List String)

/-- What is told about an article: its brief. -/
structure ArticleBriefDTO where
  artRank : LiveBrief

def convertArtBrief (db : Database) (raw : List ArticleBrief) : List ArticleBriefDTO :=
  raw.map fun brief => ⟨db.liveBrief brief⟩

def getArticleBriefDTO (db : Database) (uuid : String) : Option ArticleBriefDTO :=
  (db.findBrief uuid).map ArticleBriefDTO.mk

def getArticleBriefDTOByAuthor (db : Database) (authorUuid : String) : List ArticleBriefDTO :=
  convertArtBrief db (db.artBriefRepo.findAll fun brief => brief.authorUuid.equals authorUuid)

/-- `getArticleBriefDTO` of a list. -/
def getArticleBriefDTOList (db : Database) (artUuids : List String) : List ArticleBriefDTO :=
  convertArtBrief db (db.artBriefRepo.findAll fun brief => decide (brief.articleUuid ∈ artUuids))

/-- `getArticleBriefDTOByAuthor` of a list. -/
def getArticleBriefDTOByAuthorList (db : Database) (authorUuids : List String) :
    List ArticleBriefDTO :=
  convertArtBrief db (db.artBriefRepo.findAll fun brief => authorUuids.any brief.authorUuid.equals)

/-- `getArticleBriefDTO` of a form. The loop runs over the list that it fills. -/
def getArticleBriefDTOForm (db : Database) (form : UuidForm) : List ArticleBriefDTO :=
  let uuids : List String := []
  let uuids := uuids.foldl (fun uuids uid => uuids ++ [uid]) uuids
  if form.uuidType = some "product" then getArticleBriefDTOList db uuids
  else getArticleBriefDTOByAuthorList db uuids

/-- The briefs that one uuid of a form has. -/
def singleBriefs (db : Database) (form : UuidForm) (uuid : String) : List ArticleBriefDTO :=
  if form.uuidType = some "product" then (getArticleBriefDTO db uuid).toList
  else getArticleBriefDTOByAuthor db uuid

/-- The form has the briefs that its uuids have one by one. -/
def BriefsAgree (db : Database) (form : UuidForm) : Prop :=
  ∀ dto, dto ∈ getArticleBriefDTOForm db form ↔
    ∃ uuid ∈ form.uuids.getD [], dto ∈ singleBriefs db form uuid

/-- The brief is one of the article, or of the author, that the uuid of a form stands for. -/
def briefIs (form : UuidForm) (brief : ArticleBrief) (uuid : String) : Bool :=
  if form.uuidType = some "product" then brief.articleUuid = uuid else brief.authorUuid.equals uuid

/-- No uuid of the form has a brief. -/
def Unbriefed (db : Database) (form : UuidForm) : Prop :=
  ∀ uuid ∈ form.uuids.getD [], ∀ brief ∈ db.artBriefRepo.rows, briefIs form brief uuid = false

private theorem getArticleBriefDTOForm_eq_nil (db : Database) (form : UuidForm) :
    getArticleBriefDTOForm db form = [] := by
  simp [getArticleBriefDTOForm, getArticleBriefDTOList, getArticleBriefDTOByAuthorList,
    convertArtBrief, Repository.findAll]

private theorem singleBriefs_eq_nil {db : Database} {form : UuidForm} {uuid : String} :
    singleBriefs db form uuid = [] ↔
      ∀ brief ∈ db.artBriefRepo.rows, briefIs form brief uuid = false := by
  unfold singleBriefs briefIs
  split
  · simp only [Option.toList_eq_nil_iff, getArticleBriefDTO, Database.findBrief,
      Option.map_eq_none_iff, Repository.find_eq_none, decide_eq_false_iff_not]
    exact Iff.rfl
  · simp [getArticleBriefDTOByAuthor, convertArtBrief, Repository.findAll]

private theorem briefsAgree_iff (db : Database) (form : UuidForm) :
    BriefsAgree db form ↔ Unbriefed db form := by
  unfold BriefsAgree Unbriefed
  rw [getArticleBriefDTOForm_eq_nil]
  constructor
  · intro agree uuid listed
    apply singleBriefs_eq_nil.mp
    apply List.eq_nil_iff_forall_not_mem.mpr
    intro dto single
    exact List.not_mem_nil ((agree dto).mpr ⟨uuid, listed, single⟩)
  · intro unbriefed dto
    apply iff_of_false List.not_mem_nil
    rintro ⟨uuid, listed, single⟩
    rw [singleBriefs_eq_nil.mpr (unbriefed uuid listed)] at single
    exact List.not_mem_nil single

/-- **Batch queries, exactly.** The query for a list of authors agrees with the single ones where
none of them has a tag, and the query for a form where none of its uuids has a brief. -/
theorem batch_agrees_iff (db : Database) (uuids : List UserUuid) (form : UuidForm) :
    (AuthorService.AuthorsAgree db uuids ↔ AuthorService.Untagged db uuids) ∧
      (BriefsAgree db form ↔ Unbriefed db form) :=
  ⟨AuthorService.authorsAgree_iff db uuids, briefsAgree_iff db form⟩

/-- An author with one tag and one brief. -/
private def oneBrief : Database :=
  { AuthorService.inUse.saveOwned AuthorService.pen.artBase AuthorService.pen.artAttr with
    artBriefRepo := Repository.empty.save
      { articleUuid := "pen", authorUuid := publicUuid, tagHash := "", tag := none
        prevArticle := none, nextArticle := none, topArticle := none, contentBrief := none
        favorite := false, hasArticle := true } }

/-- The author comes without their tag, and the form without its brief. -/
theorem batch_agrees_wrong : ¬ AuthorService.AuthorsAgree oneBrief [publicUuid] ∧
    ¬ BriefsAgree oneBrief ⟨some "product", some ["pen"]⟩ := by
  constructor
  · intro agree
    have untagged := (AuthorService.authorsAgree_iff _ _).mp agree publicUuid List.mem_cons_self
      ⟨publicUuid, none⟩ rfl AuthorService.notified (List.mem_singleton.mpr rfl)
    exact untagged rfl
  · intro agree
    have none := (briefsAgree_iff _ _).mp agree "pen" List.mem_cons_self _ List.mem_cons_self
    exact absurd none (by decide)

end ArticleSvc

end Tvntd
