import Tvntd.Java.Database

/-! # Deletion of articles

Every deletion clears the entry of an article under its public tag, its brief and
its comments, and then removes a record that depends on the kind of the article.
-/

namespace Tvntd.ArticleSvc

open ArtTagService (deletePublicTagPost plainSha1)
open CommentService (deleteComment)

/-- The post that a deletion answers with. -/
inductive DeletedPost where
  | stored (post : ArticlePost)
  | default
  | ofOwner (userUuid : UserUuid)
deriving DecidableEq

variable (sha1 : Sha1)

def commonDelete (db : Database) (artUuid : String) (tag : Option Octets) :
    Except Exception Database :=
  (deletePublicTagPost sha1 db.tags.artTagRepo tag (some artUuid)).map fun done =>
    let db := { db with tags := { db.tags with artTagRepo := done.1 } }
    let db := db.deleteBrief artUuid
    { db with comments := deleteComment db.comments artUuid }

/-- An ad is never without its base, which shares its uuid. -/
def deleteArtAds (db : Database) (ads : ArtAds) : Except Exception Database :=
  (commonDelete sha1 db ads.articleUuid ads.busCat).map fun db => db.deleteAds ads.articleUuid

def deleteStoredPost (db : Database) (post : ArticlePost) : Except Exception Database :=
  match db.artBaseRepo.find post.articleUuid with
  | none => .ok (db.deletePost post.articleUuid)
  | some base =>
      (commonDelete sha1 db base.articleUuid base.publicTag).map fun db =>
        db.deletePost post.articleUuid

def deleteArticleBrief (db : Database) (brief : ArticleBrief) (base : ArticleBase) :
    Except Exception Database :=
  (commonDelete sha1 db brief.articleUuid base.publicTag).map fun db =>
    db.deletePost brief.articleUuid

def deleteArticlePost (db : Database) (artUuid : String) (owner : UserUuid) :
    Except Exception (Database × Option DeletedPost) :=
  match db.artPostRepo.find artUuid with
  | none =>
      match db.findBrief artUuid with
      | none => .ok (db, none)
      | some live =>
          match live.artBase with
          | none => .error .nullPointer
          | some base =>
              match base.artTag with
              | none => .error .nullPointer
              | some artTag =>
                  if artTag = "ads" then
                    match db.artAdsRepo.find artUuid with
                    | none => .ok (db, some .default)
                    | some ads => (deleteArtAds sha1 db ads).map fun db => (db, some .default)
                  else if artTag = "estore" then .ok (db, some .default)
                  else
                    (deleteArticleBrief sha1 db live.brief base).map fun db =>
                      (db, some (.ofOwner owner))
  | some post =>
      if post.authorUuid ≠ owner then .ok (db, none)
      else (deleteStoredPost sha1 db post).map fun db => (db, some (.stored post))

/-! ## What a cleanup leaves -/

/-- The key of a public tag. -/
def publicKey (tag : Option Octets) : Option String :=
  tag.map fun name => toSha1Key sha1 name publicUuid

/-- No tag, or one that is stored. -/
def Accepted (db : Database) (tag : Option Octets) : Prop :=
  ∀ key ∈ publicKey sha1 tag, db.tags.artTagRepo.find key ≠ none

instance (db : Database) (tag : Option Octets) : Decidable (Accepted sha1 db tag) :=
  inferInstanceAs (Decidable (∀ key ∈ publicKey sha1 tag, _))

/-- The tags without the entry of an article under one of them. -/
def unranked (artTagRepo : Repository ArtTag) (tag : Option Octets) (artUuid : String) :
    Repository ArtTag :=
  match (publicKey sha1 tag).bind artTagRepo.find with
  | none => artTagRepo
  | some row => artTagRepo.save (row.removeArtRank (some artUuid))

/-- The database without what an article leaves outside its own record. -/
def cleaned (db : Database) (artUuid : String) (tag : Option Octets) : Database :=
  { db.deleteBrief artUuid with
    tags := { db.tags with artTagRepo := unranked sha1 db.tags.artTagRepo tag artUuid }
    comments := deleteComment db.comments artUuid }

variable {sha1} {db : Database}

theorem commonDelete_accepted {tag : Option Octets} (accepted : Accepted sha1 db tag)
    (artUuid : String) :
    commonDelete sha1 db artUuid tag = .ok (cleaned sha1 db artUuid tag) := by
  cases tag with
  | none => rfl
  | some name =>
      cases found : db.tags.artTagRepo.find (toSha1Key sha1 name publicUuid) with
      | none => exact absurd found (accepted _ rfl)
      | some row =>
          have saved : unranked sha1 db.tags.artTagRepo (some name) artUuid =
              db.tags.artTagRepo.save (row.removeArtRank (some artUuid)) := by
            simp only [unranked, publicKey, Option.map_some, Option.bind_some, found]
          rw [commonDelete, ArtTagService.deletePublicTagPost_stored found, cleaned, saved]
          rfl

theorem commonDelete_refused {tag : Option Octets} (refused : ¬ Accepted sha1 db tag)
    (artUuid : String) : commonDelete sha1 db artUuid tag = .error .illegalArgument := by
  cases tag with
  | none => exact absurd nofun refused
  | some name =>
      cases found : db.tags.artTagRepo.find (toSha1Key sha1 name publicUuid) with
      | none => rw [commonDelete, ArtTagService.deletePublicTagPost_unstored found]; rfl
      | some row =>
          apply absurd _ refused
          rintro key ⟨⟩
          rw [found]
          exact Option.some_ne_none row

/-! ## Several cleanups -/

/-- Articles with the tags that they are removed from. -/
abbrev Cleanups := List (String × Option Octets)

def Cleanups.uuids (cleanups : Cleanups) : List String := cleanups.map Prod.fst

@[simp] theorem Cleanups.uuids_nil : Cleanups.uuids [] = [] := rfl

@[simp] theorem Cleanups.mem_uuids_singleton {uuid artUuid : String} {tag : Option Octets} :
    uuid ∈ Cleanups.uuids [(artUuid, tag)] ↔ uuid = artUuid :=
  List.mem_singleton

@[simp] theorem Cleanups.mem_uuids_append {uuid : String} {first second : Cleanups} :
    uuid ∈ Cleanups.uuids (first ++ second) ↔ uuid ∈ first.uuids ∨ uuid ∈ second.uuids := by
  simp [Cleanups.uuids]

variable (sha1) in
/-- One entry goes from the tag that is named. -/
def unrankedRow (row : ArtTag) (cleanup : String × Option Octets) : ArtTag :=
  if publicKey sha1 cleanup.2 = some row.tagOid then row.removeArtRank (some cleanup.1) else row

@[simp] theorem unrankedRow_tagOid (row : ArtTag) (cleanup : String × Option Octets) :
    (unrankedRow sha1 row cleanup).tagOid = row.tagOid := by
  unfold unrankedRow
  split
  · exact row.removeArtRank_tagOid _
  · rfl

private theorem find_unranked (artTagRepo : Repository ArtTag) (tag : Option Octets)
    (artUuid key : String) :
    (unranked sha1 artTagRepo tag artUuid).find key =
      (artTagRepo.find key).map fun row => unrankedRow sha1 row (artUuid, tag) := by
  have other {row : ArtTag} (found : artTagRepo.find key = some row)
      (unnamed : publicKey sha1 tag ≠ some key) : unrankedRow sha1 row (artUuid, tag) = row := by
    have same : row.tagOid = key := Repository.key_of_find found
    rw [unrankedRow, if_neg (same ▸ unnamed)]
  unfold unranked
  split
  case h_1 absent =>
    cases found : artTagRepo.find key with
    | none => rfl
    | some row =>
        rw [Option.map_some, other found]
        intro named
        rw [named, Option.bind_some, found] at absent
        cases absent
  case h_2 saved there =>
    obtain ⟨named, name, found⟩ := Option.bind_eq_some_iff.mp there
    have same : saved.tagOid = named := Repository.key_of_find found
    rw [Repository.find_save]
    by_cases here : key = named
    · subst here
      rw [if_pos (by simpa [Entity.key] using same.symm), found, Option.map_some, unrankedRow,
        if_pos (by rw [same]; exact name)]
    · rw [if_neg (by simpa [Entity.key, same] using here)]
      cases missed : artTagRepo.find key with
      | none => rfl
      | some row =>
          rw [Option.map_some, other missed]
          rw [name]
          exact fun equal => here (Option.some.inj equal).symm

variable (sha1) in
/-- What cleanups do to the tables that they share. -/
structure Cleans (cleanups : Cleanups) (before after : Database) : Prop where
  brief : ∀ uuid, after.artBriefRepo.find uuid =
    if uuid ∈ cleanups.uuids then none else before.artBriefRepo.find uuid
  comment : ∀ id, after.comments.commentRepo.find id =
    (before.comments.commentRepo.find id).filter fun c =>
      decide (c.articleUuid ∉ cleanups.uuids)
  rank : ∀ id, after.comments.rankRepo.find id =
    if ∃ c, before.comments.commentRepo.find id = some c ∧ c.articleUuid ∈ cleanups.uuids ∧
        c.hashRank = true then none
    else before.comments.rankRepo.find id
  tag : ∀ key, after.tags.artTagRepo.find key =
    (before.tags.artTagRepo.find key).map fun row => cleanups.foldl (unrankedRow sha1) row

namespace Cleans

theorem refl (db : Database) : Cleans sha1 [] db db where
  brief := fun uuid => rfl
  comment := fun id => by cases db.comments.commentRepo.find id <;> rfl
  rank := by simp
  tag := by simp

theorem cleaned (db : Database) (artUuid : String) (tag : Option Octets) :
    Cleans sha1 [(artUuid, tag)] db (cleaned sha1 db artUuid tag) where
  brief := by
    intro uuid
    simp only [Cleanups.mem_uuids_singleton]
    exact Repository.find_delete _ artUuid uuid
  comment := by
    intro id
    simp only [Cleanups.mem_uuids_singleton]
    exact CommentService.deleteComment_comment _ artUuid id
  rank := by
    intro id
    simp only [Cleanups.mem_uuids_singleton]
    exact CommentService.deleteComment_rank _ artUuid id
  tag := find_unranked db.tags.artTagRepo tag artUuid

theorem trans {first second : Cleanups} {before between after : Database}
    (left : Cleans sha1 first before between) (right : Cleans sha1 second between after) :
    Cleans sha1 (first ++ second) before after where
  brief := by
    intro uuid
    rw [right.brief, left.brief]
    simp only [Cleanups.mem_uuids_append]
    by_cases later : uuid ∈ second.uuids
    · rw [if_pos later, if_pos (Or.inr later)]
    · simp only [later, or_false, if_false]
  comment := by
    intro id
    rw [right.comment, left.comment, Option.filter_filter]
    congr 1
    funext c
    simp only [Cleanups.mem_uuids_append, not_or, Bool.decide_and]
  rank := by
    intro id
    rw [right.rank, left.rank, left.comment]
    simp only [Cleanups.mem_uuids_append, Option.filter_eq_some_iff, decide_not,
      Bool.not_eq_true', decide_eq_false_iff_not]
    cases before.comments.commentRepo.find id with
    | none => simp
    | some c =>
        simp only [Option.some.injEq, exists_eq_left']
        by_cases flagged : c.hashRank = true
        · by_cases earlier : c.articleUuid ∈ first.uuids
          · simp [earlier, flagged]
          · simp [earlier, flagged]
        · simp [flagged]
  tag := by
    intro key
    rw [right.tag, left.tag, Option.map_map]
    congr 1
    funext row
    exact List.foldl_append.symm

end Cleans

/-! ## When nothing is left -/

/-- Nothing of the articles is in the tables that cleanups share. -/
structure Cleared (uuids : List String) (before after : Database) : Prop where
  brief : ∀ uuid ∈ uuids, after.artBriefRepo.find uuid = none
  comment : ∀ c ∈ after.comments.commentRepo.rows, c.articleUuid ∉ uuids
  rank : ∀ c ∈ before.comments.commentRepo.rows, c.articleUuid ∈ uuids →
    after.comments.rankRepo.find c.id = none
  tag : ∀ row ∈ after.tags.artTagRepo.rows, row.userUuid = publicUuid →
    ∀ uuid ∈ uuids, uuid ∉ row.ranks

variable (sha1) in
/-- The cleanups are enough: a comment that has a rank says so, and no public tag lists an article
more often than it is taken from that tag. -/
structure Covered (cleanups : Cleanups) (db : Database) : Prop where
  rank : ∀ c ∈ db.comments.commentRepo.rows, c.articleUuid ∈ cleanups.uuids →
    c.hashRank = false → db.comments.rankRepo.find c.id = none
  tag : ∀ row ∈ db.tags.artTagRepo.rows, row.userUuid = publicUuid →
    ∀ uuid ∈ cleanups.uuids, row.ranks.count uuid ≤
      cleanups.countP fun cleanup =>
        decide (cleanup.1 = uuid ∧ publicKey sha1 cleanup.2 = some row.tagOid)

@[simp] theorem unrankedRow_userUuid (row : ArtTag) (cleanup : String × Option Octets) :
    (unrankedRow sha1 row cleanup).userUuid = row.userUuid := by
  unfold unrankedRow
  split
  · rfl
  · rfl

theorem count_unrankedRow (row : ArtTag) (cleanup : String × Option Octets) (uuid : String) :
    (unrankedRow sha1 row cleanup).ranks.count uuid =
      row.ranks.count uuid -
        if cleanup.1 = uuid ∧ publicKey sha1 cleanup.2 = some row.tagOid then 1 else 0 := by
  unfold unrankedRow
  split
  case isTrue named =>
    rw [ArtTag.ranks_removeArtRank, Profile.removeFrom_eq, List.count_erase]
    simp only [named, and_true, beq_iff_eq]
  case isFalse unnamed => simp only [unnamed, and_false, if_false, Nat.sub_zero]

variable (sha1) in
/-- Every cleanup takes one entry from its tag. -/
theorem foldl_unrankedRow (cleanups : Cleanups) : ∀ row : ArtTag,
    (cleanups.foldl (unrankedRow sha1) row).userUuid = row.userUuid ∧
      ∀ uuid, (cleanups.foldl (unrankedRow sha1) row).ranks.count uuid =
        row.ranks.count uuid - cleanups.countP fun cleanup =>
          decide (cleanup.1 = uuid ∧ publicKey sha1 cleanup.2 = some row.tagOid) := by
  induction cleanups with
  | nil => exact fun row => ⟨rfl, fun uuid => rfl⟩
  | cons cleanup rest ih =>
      intro row
      obtain ⟨user, counts⟩ := ih (unrankedRow sha1 row cleanup)
      refine ⟨user.trans (unrankedRow_userUuid row cleanup), ?_⟩
      intro uuid
      rw [List.foldl_cons, counts, count_unrankedRow, unrankedRow_tagOid, List.countP_cons]
      simp only [decide_eq_true_eq]
      omega

theorem Cleans.cleared_iff {cleanups : Cleanups} {before after : Database}
    (cleans : Cleans sha1 cleanups before after) :
    Cleared cleanups.uuids before after ↔ Covered sha1 cleanups before := by
  constructor
  · intro cleared
    constructor
    · intro c inside subject unflagged
      have gone := cleared.rank c inside subject
      rw [cleans.rank, if_neg] at gone
      · exact gone
      · rintro ⟨other, found, -, flagged⟩
        rw [show c.id = Entity.key c from rfl, Repository.find_of_mem inside] at found
        cases found
        rw [unflagged] at flagged
        cases flagged
    · intro row inside isPublic uuid subject
      obtain ⟨user, counts⟩ := foldl_unrankedRow sha1 cleanups row
      have later := cleans.tag (Entity.key row)
      rw [Repository.find_of_mem inside] at later
      have unlisted := cleared.tag _ (Repository.mem_of_find later)
        (user.trans isPublic) uuid subject
      have none := List.count_eq_zero.mpr unlisted
      rw [counts] at none
      omega
  · intro covered
    constructor
    · intro uuid subject
      rw [cleans.brief, if_pos subject]
    · intro c inside
      have found := cleans.comment c.id
      rw [show c.id = Entity.key c from rfl, Repository.find_of_mem inside] at found
      have kept := (Option.filter_eq_some_iff.mp found.symm).2
      exact of_decide_eq_true kept
    · intro c inside subject
      have found : before.comments.commentRepo.find c.id = some c := Repository.find_of_mem inside
      rw [cleans.rank]
      by_cases flagged : c.hashRank = true
      · rw [if_pos ⟨c, found, subject, flagged⟩]
      · split
        · rfl
        · exact covered.rank c inside subject (by simpa using flagged)
    · intro later inside isPublic uuid subject listed
      have found := cleans.tag (Entity.key later)
      rw [Repository.find_of_mem inside] at found
      obtain ⟨row, there, rfl⟩ := Option.map_eq_some_iff.mp found.symm
      obtain ⟨user, counts⟩ := foldl_unrankedRow sha1 cleanups row
      have bound := covered.tag row (Repository.mem_of_find there) (user.symm.trans isPublic) uuid
        subject
      have many := List.count_pos_iff.mpr listed
      rw [counts] at many
      omega

/-! ## Other articles -/

/-- A tag with the entries of other articles. -/
def without (uuids : List String) (row : ArtTag) : ArtTag :=
  { row with tagArtRanks := row.tagArtRanks.map fun ranks => ranks.filter (· ∉ uuids) }

/-- No comment of the articles has the id. -/
def Foreign (uuids : List String) (db : Database) (id : Int) : Prop :=
  ∀ c, db.comments.commentRepo.find id = some c → c.articleUuid ∉ uuids

/-- The records of all other articles are what they were. -/
structure Elsewhere (uuids : List String) (before after : Database) : Prop where
  post : ∀ uuid ∉ uuids, after.artPostRepo.find uuid = before.artPostRepo.find uuid
  brief : ∀ uuid ∉ uuids, after.artBriefRepo.find uuid = before.artBriefRepo.find uuid
  base : ∀ uuid ∉ uuids, after.artBaseRepo.find uuid = before.artBaseRepo.find uuid
  attr : ∀ uuid ∉ uuids, after.artAttrRepo.find uuid = before.artAttrRepo.find uuid
  product : ∀ uuid ∉ uuids, after.artProdRepo.find uuid = before.artProdRepo.find uuid
  ads : ∀ uuid ∉ uuids, after.artAdsRepo.find uuid = before.artAdsRepo.find uuid
  room : ∀ uuid ∉ uuids, after.adRoomRepo.find uuid = before.adRoomRepo.find uuid
  address : ∀ uuid ∉ uuids, after.addrRepo.find uuid = before.addrRepo.find uuid
  comment : ∀ id, Foreign uuids before id →
    after.comments.commentRepo.find id = before.comments.commentRepo.find id
  rank : ∀ id, Foreign uuids before id →
    after.comments.rankRepo.find id = before.comments.rankRepo.find id
  tag : ∀ key, (after.tags.artTagRepo.find key).map (without uuids) =
    (before.tags.artTagRepo.find key).map (without uuids)
  authorTag : after.tags.authorTagRepo = before.tags.authorTagRepo
  author : after.authorRepo = before.authorRepo

namespace Elsewhere

variable {uuids : List String}

theorem refl (uuids : List String) (db : Database) : Elsewhere uuids db db where
  post := fun _ _ => rfl
  brief := fun _ _ => rfl
  base := fun _ _ => rfl
  attr := fun _ _ => rfl
  product := fun _ _ => rfl
  ads := fun _ _ => rfl
  room := fun _ _ => rfl
  address := fun _ _ => rfl
  comment := fun _ _ => rfl
  rank := fun _ _ => rfl
  tag := fun _ => rfl
  authorTag := rfl
  author := rfl

theorem trans {before between after : Database} (left : Elsewhere uuids before between)
    (right : Elsewhere uuids between after) : Elsewhere uuids before after := by
  have foreign {id : Int} (still : Foreign uuids before id) : Foreign uuids between id := by
    rw [Foreign, left.comment id still]
    exact still
  exact
    { post := fun uuid other => (right.post uuid other).trans (left.post uuid other)
      brief := fun uuid other => (right.brief uuid other).trans (left.brief uuid other)
      base := fun uuid other => (right.base uuid other).trans (left.base uuid other)
      attr := fun uuid other => (right.attr uuid other).trans (left.attr uuid other)
      product := fun uuid other => (right.product uuid other).trans (left.product uuid other)
      ads := fun uuid other => (right.ads uuid other).trans (left.ads uuid other)
      room := fun uuid other => (right.room uuid other).trans (left.room uuid other)
      address := fun uuid other => (right.address uuid other).trans (left.address uuid other)
      comment := fun id still => (right.comment id (foreign still)).trans (left.comment id still)
      rank := fun id still => (right.rank id (foreign still)).trans (left.rank id still)
      tag := fun key => (right.tag key).trans (left.tag key)
      authorTag := right.authorTag.trans left.authorTag
      author := right.author.trans left.author }

/-- What is deleted under a uuid of the articles is under no other one. -/
theorem find_delete {Row : Type} [Entity Row String] {repo : Repository Row} {artUuid : String}
    (inside : artUuid ∈ uuids) :
    ∀ uuid ∉ uuids, (repo.delete artUuid).find uuid = repo.find uuid := by
  intro uuid other
  apply Repository.find_delete_of_ne
  rintro rfl
  exact other inside

theorem without_unrankedRow {artUuid : String} (inside : artUuid ∈ uuids) (tag : Option Octets)
    (row : ArtTag) : without uuids (unrankedRow sha1 row (artUuid, tag)) = without uuids row := by
  have unlisted (ranks : List String) :
      (Profile.removeFrom ranks artUuid).2.filter (· ∉ uuids) = ranks.filter (· ∉ uuids) := by
    rw [Profile.removeFrom_eq, ← List.erase_filter]
    apply List.erase_of_not_mem
    simp [inside]
  unfold unrankedRow
  split
  · simp only [without, ArtTag.removeArtRank, Option.map_map, Function.comp_def, unlisted]
  · rfl

theorem cleaned {artUuid : String} (inside : artUuid ∈ uuids) (db : Database)
    (tag : Option Octets) : Elsewhere uuids db (cleaned sha1 db artUuid tag) :=
  { refl uuids db with
    brief := find_delete inside
    base := find_delete inside
    attr := find_delete inside
    comment := by
      intro id foreign
      refine (CommentService.deleteComment_comment _ artUuid id).trans ?_
      cases found : db.comments.commentRepo.find id with
      | none => rfl
      | some c =>
          apply Option.filter_eq_some_iff.mpr ⟨rfl, ?_⟩
          apply decide_eq_true
          rintro rfl
          exact foreign c found inside
    rank := by
      intro id foreign
      refine (CommentService.deleteComment_rank _ artUuid id).trans (if_neg ?_)
      rintro ⟨c, found, rfl, -⟩
      exact foreign c found inside
    tag := by
      intro key
      refine (congrArg _ (find_unranked db.tags.artTagRepo tag artUuid key)).trans ?_
      rw [Option.map_map]
      congr 1
      funext row
      exact without_unrankedRow inside tag row }

theorem deletePost {artUuid : String} (inside : artUuid ∈ uuids) (db : Database) :
    Elsewhere uuids db (db.deletePost artUuid) :=
  { refl uuids db with post := find_delete inside }

theorem deleteAds {artUuid : String} (inside : artUuid ∈ uuids) (db : Database) :
    Elsewhere uuids db (db.deleteAds artUuid) :=
  { refl uuids db with
    ads := find_delete inside
    base := find_delete inside
    attr := find_delete inside }

end Elsewhere

/-! ## One article -/

/-- Nothing of an article is left. -/
structure Gone (artUuid : String) (before after : Database) : Prop
    extends Cleared [artUuid] before after where
  post : after.artPostRepo.find artUuid = none
  ads : after.artAdsRepo.find artUuid = none
  product : after.artProdRepo.find artUuid = none

/-- An article is gone and no other one changed, or there is no answer and no change. -/
def Right (before : Database) (artUuid : String) :
    Except Exception (Database × Option DeletedPost) → Prop
  | .error _ => True
  | .ok (after, none) => after = before
  | .ok (after, some _) => Gone artUuid before after ∧ Elsewhere [artUuid] before after

/-- The article is neither an ad nor a product. -/
def Plain (db : Database) (artUuid : String) : Prop :=
  db.artAdsRepo.find artUuid = none ∧ db.artProdRepo.find artUuid = none

variable (sha1 db)

/-- What there is of a post that is deleted: without a base the post is all, and a cleanup by the
tag of the base is enough. -/
def WholePost (artUuid : String) : Prop :=
  match db.artBaseRepo.find artUuid with
  | none => Cleared [artUuid] db db ∧ Plain db artUuid
  | some base =>
      Accepted sha1 db base.publicTag →
        Covered sha1 [(artUuid, base.publicTag)] db ∧ Plain db artUuid

/-- What there is of an article without a post: an ad has its record, a product is none that is
deleted here, and a cleanup is enough. -/
def WholeBrief (artUuid : String) (base : ArticleBase) : Prop :=
  ∀ artTag, base.artTag = some artTag →
    if artTag = "ads" then
      ∃ ads, db.artAdsRepo.find artUuid = some ads ∧
        (Accepted sha1 db ads.busCat →
          Covered sha1 [(artUuid, ads.busCat)] db ∧ db.artProdRepo.find artUuid = none)
    else artTag ≠ "estore" ∧
      (Accepted sha1 db base.publicTag →
        Covered sha1 [(artUuid, base.publicTag)] db ∧ Plain db artUuid)

/-- The records of the article are all there, as its kind has them. -/
def Whole (artUuid : String) (owner : UserUuid) : Prop :=
  match db.artPostRepo.find artUuid with
  | some post => post.authorUuid = owner → WholePost sha1 db artUuid
  | none => db.artBriefRepo.find artUuid ≠ none → ∀ base, db.artBaseRepo.find artUuid = some base →
      WholeBrief sha1 db artUuid base

variable {sha1 db}

theorem Cleans.congr {cleanups : Cleanups} {before after later : Database}
    (cleans : Cleans sha1 cleanups before after) (brief : later.artBriefRepo = after.artBriefRepo)
    (comments : later.comments = after.comments) (tags : later.tags = after.tags) :
    Cleans sha1 cleanups before later := by
  constructor
  · rw [brief]
    exact cleans.brief
  · rw [comments]
    exact cleans.comment
  · rw [comments]
    exact cleans.rank
  · rw [tags]
    exact cleans.tag

/-- A cleanup with the removal of one more record. -/
theorem right_commonDelete (finish : Database → Database) {artUuid : String}
    {tag : Option Octets} {result : DeletedPost} {rest : Prop}
    (brief : ∀ db, (finish db).artBriefRepo = db.artBriefRepo)
    (comments : ∀ db, (finish db).comments = db.comments)
    (tags : ∀ db, (finish db).tags = db.tags)
    (elsewhere : ∀ db, Elsewhere [artUuid] db (finish db))
    (others : (finish (cleaned sha1 db artUuid tag)).artPostRepo.find artUuid = none ∧
        Plain (finish (cleaned sha1 db artUuid tag)) artUuid ↔ rest) :
    Right db artUuid (((commonDelete sha1 db artUuid tag).map finish).map fun db =>
        (db, some result)) ↔
      (Accepted sha1 db tag → Covered sha1 [(artUuid, tag)] db ∧ rest) := by
  by_cases accepted : Accepted sha1 db tag
  · have cleans : Cleans sha1 [(artUuid, tag)] db (finish (cleaned sha1 db artUuid tag)) :=
      (Cleans.cleaned db artUuid tag).congr (brief _) (comments _) (tags _)
    have exactly := cleans.cleared_iff
    rw [commonDelete_accepted accepted]
    change Gone artUuid db _ ∧ Elsewhere [artUuid] db _ ↔ _
    constructor
    · rintro ⟨gone, -⟩ -
      exact ⟨exactly.mp gone.toCleared, others.mp ⟨gone.post, gone.ads, gone.product⟩⟩
    · intro whole
      obtain ⟨covered, still⟩ := whole accepted
      obtain ⟨post, ads, product⟩ := others.mpr still
      refine ⟨⟨exactly.mpr covered, post, ads, product⟩, ?_⟩
      exact (Elsewhere.cleaned (List.mem_singleton.mpr rfl) db tag).trans (elsewhere _)
  · rw [commonDelete_refused accepted]
    exact iff_of_true trivial (absurd · accepted)

private theorem right_deleteStoredPost {artUuid : String} {post : ArticlePost}
    (found : db.artPostRepo.find artUuid = some post) :
    Right db artUuid ((deleteStoredPost sha1 db post).map fun db => (db, some (.stored post))) ↔
      WholePost sha1 db artUuid := by
  have key : post.articleUuid = artUuid := Repository.key_of_find found
  have elsewhere := Elsewhere.deletePost (List.mem_singleton.mpr (Eq.refl artUuid))
  unfold deleteStoredPost WholePost
  rw [key]
  cases stored : db.artBaseRepo.find artUuid with
  | none =>
      change Gone artUuid db _ ∧ Elsewhere [artUuid] db _ ↔ _
      constructor
      · rintro ⟨gone, -⟩
        exact ⟨⟨gone.brief, gone.comment, gone.rank, gone.tag⟩, gone.ads, gone.product⟩
      · rintro ⟨cleared, ads, product⟩
        refine ⟨⟨⟨cleared.brief, cleared.comment, cleared.rank, cleared.tag⟩, ?_, ads, product⟩,
          elsewhere db⟩
        exact Repository.find_delete_self _ artUuid
  | some base =>
      have same : base.articleUuid = artUuid := Repository.key_of_find stored
      simp only [same]
      apply right_commonDelete (fun db => db.deletePost artUuid) (fun _ => rfl) (fun _ => rfl)
        (fun _ => rfl) elsewhere
      exact and_iff_right (Repository.find_delete_self _ artUuid)

private theorem right_deleteArtAds {artUuid : String} {ads : ArtAds} (result : DeletedPost)
    (found : db.artAdsRepo.find artUuid = some ads) (noPost : db.artPostRepo.find artUuid = none) :
    Right db artUuid ((deleteArtAds sha1 db ads).map fun db => (db, some result)) ↔
      (Accepted sha1 db ads.busCat →
        Covered sha1 [(artUuid, ads.busCat)] db ∧ db.artProdRepo.find artUuid = none) := by
  have key : ads.articleUuid = artUuid := Repository.key_of_find found
  unfold deleteArtAds
  rw [key]
  apply right_commonDelete (fun db => db.deleteAds artUuid) (fun _ => rfl) (fun _ => rfl)
    (fun _ => rfl) (Elsewhere.deleteAds (List.mem_singleton.mpr rfl))
  constructor
  · rintro ⟨-, -, product⟩
    exact product
  · exact fun product => ⟨noPost, Repository.find_delete_self _ artUuid, product⟩

theorem right_deleteArticleBrief {artUuid : String} {brief : ArticleBrief} {base : ArticleBase}
    (result : DeletedPost) (found : db.artBriefRepo.find artUuid = some brief) :
    Right db artUuid ((deleteArticleBrief sha1 db brief base).map fun db => (db, some result)) ↔
      (Accepted sha1 db base.publicTag →
        Covered sha1 [(artUuid, base.publicTag)] db ∧ Plain db artUuid) := by
  have key : brief.articleUuid = artUuid := Repository.key_of_find found
  unfold deleteArticleBrief
  rw [key]
  apply right_commonDelete (fun db => db.deletePost artUuid) (fun _ => rfl) (fun _ => rfl)
    (fun _ => rfl) (Elsewhere.deletePost (List.mem_singleton.mpr rfl))
  exact and_iff_right (Repository.find_delete_self _ artUuid)

/-- An answer for a brief that stays is wrong. -/
theorem not_right_self {artUuid : String} {brief : ArticleBrief} (result : DeletedPost)
    (found : db.artBriefRepo.find artUuid = some brief) :
    ¬ Right db artUuid (.ok (db, some result)) := by
  rintro ⟨gone, -⟩
  have none := gone.brief artUuid (List.mem_singleton.mpr rfl)
  rw [found] at none
  cases none

variable (sha1 db) in
/-- The ways through a deletion. -/
inductive Way (artUuid : String) (owner : UserUuid) :
    Except Exception (Database × Option DeletedPost) → Prop where
  | refused {post : ArticlePost} (stored : db.artPostRepo.find artUuid = some post)
      (other : post.authorUuid ≠ owner) : Way artUuid owner (.ok (db, none))
  | post {post : ArticlePost} (stored : db.artPostRepo.find artUuid = some post)
      (own : post.authorUuid = owner) :
      Way artUuid owner ((deleteStoredPost sha1 db post).map fun db => (db, some (.stored post)))
  | missing (noPost : db.artPostRepo.find artUuid = none)
      (noBrief : db.artBriefRepo.find artUuid = none) : Way artUuid owner (.ok (db, none))
  | failed (noPost : db.artPostRepo.find artUuid = none)
      (untagged : ∀ base ∈ db.artBaseRepo.find artUuid, base.artTag = none) :
      Way artUuid owner (.error .nullPointer)
  | bareAds {brief : ArticleBrief} {base : ArticleBase}
      (noPost : db.artPostRepo.find artUuid = none)
      (found : db.artBriefRepo.find artUuid = some brief)
      (based : db.artBaseRepo.find artUuid = some base) (kind : base.artTag = some "ads")
      (noRecord : db.artAdsRepo.find artUuid = none) :
      Way artUuid owner (.ok (db, some .default))
  | ads {brief : ArticleBrief} {base : ArticleBase} {ads : ArtAds}
      (noPost : db.artPostRepo.find artUuid = none)
      (found : db.artBriefRepo.find artUuid = some brief)
      (based : db.artBaseRepo.find artUuid = some base) (kind : base.artTag = some "ads")
      (record : db.artAdsRepo.find artUuid = some ads) :
      Way artUuid owner ((deleteArtAds sha1 db ads).map fun db => (db, some .default))
  | product {brief : ArticleBrief} {base : ArticleBase}
      (noPost : db.artPostRepo.find artUuid = none)
      (found : db.artBriefRepo.find artUuid = some brief)
      (based : db.artBaseRepo.find artUuid = some base) (kind : base.artTag = some "estore") :
      Way artUuid owner (.ok (db, some .default))
  | brief {brief : ArticleBrief} {base : ArticleBase} {artTag : String}
      (noPost : db.artPostRepo.find artUuid = none)
      (found : db.artBriefRepo.find artUuid = some brief)
      (based : db.artBaseRepo.find artUuid = some base) (kind : base.artTag = some artTag)
      (noAds : artTag ≠ "ads") (noProduct : artTag ≠ "estore") :
      Way artUuid owner
        ((deleteArticleBrief sha1 db brief base).map fun db => (db, some (.ofOwner owner)))

variable (sha1 db) in
theorem deleteArticlePost_way (artUuid : String) (owner : UserUuid) :
    Way sha1 db artUuid owner (deleteArticlePost sha1 db artUuid owner) := by
  unfold deleteArticlePost
  cases stored : db.artPostRepo.find artUuid with
  | some post =>
      simp only []
      by_cases own : post.authorUuid = owner
      · rw [if_neg (not_not.mpr own)]
        exact .post stored own
      · rw [if_pos own]
        exact .refused stored own
  | none =>
      simp only [Database.findBrief]
      cases found : db.artBriefRepo.find artUuid with
      | none => exact .missing stored found
      | some brief =>
          simp only [Option.map_some]
          cases based : db.artBaseRepo.find artUuid with
          | none => exact .failed stored (based ▸ (by simp))
          | some base =>
              cases kind : base.artTag with
              | none =>
                  simp only [kind]
                  refine .failed stored ?_
                  rintro other there
                  cases based.symm.trans there
                  exact kind
              | some artTag =>
                  simp only [kind]
                  by_cases isAds : artTag = "ads"
                  · subst isAds
                    rw [if_pos rfl]
                    cases record : db.artAdsRepo.find artUuid with
                    | none => exact .bareAds stored found based kind record
                    | some ads => exact .ads stored found based kind record
                  · rw [if_neg isAds]
                    by_cases isProduct : artTag = "estore"
                    · subst isProduct
                      exact .product stored found based kind
                    · rw [if_neg isProduct]
                      exact .brief stored found based kind isAds isProduct

private theorem whole_iff_of_brief {artUuid : String} {owner : UserUuid} {brief : ArticleBrief}
    {base : ArticleBase} {artTag : String} (noPost : db.artPostRepo.find artUuid = none)
    (found : db.artBriefRepo.find artUuid = some brief)
    (based : db.artBaseRepo.find artUuid = some base) (kind : base.artTag = some artTag) :
    Whole sha1 db artUuid owner ↔
      if artTag = "ads" then
        ∃ ads, db.artAdsRepo.find artUuid = some ads ∧
          (Accepted sha1 db ads.busCat →
            Covered sha1 [(artUuid, ads.busCat)] db ∧ db.artProdRepo.find artUuid = none)
      else artTag ≠ "estore" ∧
        (Accepted sha1 db base.publicTag →
          Covered sha1 [(artUuid, base.publicTag)] db ∧ Plain db artUuid) := by
  simp only [Whole, noPost, found, based, WholeBrief, kind, ne_eq, reduceCtorEq,
    not_false_eq_true, true_imp_iff, Option.some.injEq, forall_eq']

/-- **A deletion is right exactly when what it clears is all that there is of the article.** -/
theorem right_iff_whole (sha1 : Sha1) (db : Database) (artUuid : String) (owner : UserUuid) :
    Right db artUuid (deleteArticlePost sha1 db artUuid owner) ↔ Whole sha1 db artUuid owner := by
  have way := deleteArticlePost_way sha1 db artUuid owner
  generalize deleteArticlePost sha1 db artUuid owner = result at way ⊢
  cases way with
  | refused stored other =>
      simp only [Whole, stored]
      exact iff_of_true rfl (absurd · other)
  | post stored own =>
      simp only [Whole, stored, own, true_imp_iff]
      exact right_deleteStoredPost stored
  | missing noPost noBrief =>
      simp only [Whole, noPost, noBrief]
      exact iff_of_true rfl (absurd rfl)
  | failed noPost untagged =>
      simp only [Whole, noPost]
      refine iff_of_true trivial ?_
      intro _ base based artTag kind
      rw [untagged base based] at kind
      cases kind
  | bareAds noPost found based kind noRecord =>
      rw [whole_iff_of_brief noPost found based kind, if_pos rfl, noRecord]
      exact iff_of_false (not_right_self _ found) (by simp)
  | ads noPost found based kind record =>
      rw [whole_iff_of_brief noPost found based kind, if_pos rfl, record]
      simp only [Option.some.injEq, exists_eq_left']
      exact right_deleteArtAds _ record noPost
  | product noPost found based kind =>
      rw [whole_iff_of_brief noPost found based kind, if_neg (by decide)]
      exact iff_of_false (not_right_self _ found) fun whole => whole.1 rfl
  | brief noPost found based kind noAds noProduct =>
      rw [whole_iff_of_brief noPost found based kind, if_neg noAds, and_iff_right noProduct]
      exact right_deleteArticleBrief _ found

def lampBase : ArticleBase where
  articleUuid := "lamp"
  authorId := none
  permMask := 0
  artTitle := none
  publicTag := none
  artTag := some "estore"
  contentOid := none
  contentLinkUrl := none

def lamp : LiveProduct where
  product :=
    { articleUuid := "lamp", authorUuid := publicUuid, logoTag := none, prodPrice := some 0
      priceUnit := none, prodCat := none, prodName := none, prodNotice := none, prodTitle := none
      prodSub := none, publicTag := none, prodDesc := none, prodDetail := none, prodSpec := none
      pending := false }
  artBase := some lampBase
  artAttr := some (ArticleAttr.new "lamp")

def lampBrief : LiveBrief where
  brief :=
    { articleUuid := "lamp", authorUuid := publicUuid, tagHash := "", tag := none
      prevArticle := none, nextArticle := none, topArticle := none, contentBrief := none
      favorite := false, hasArticle := true }
  artBase := some lampBase
  artAttr := some (ArticleAttr.new "lamp")

/-- A product with its brief. -/
def store : Database := (Database.empty.saveProduct lamp).saveBrief lampBrief

/-- The deletion of a product is answered, and the product stays. -/
theorem lamp_stays :
    ¬ Right store "lamp" (deleteArticlePost plainSha1 store "lamp" publicUuid) := by
  rintro ⟨gone, -⟩
  exact absurd gone.product (by decide +kernel)

end Tvntd.ArticleSvc
