import Tvntd.Java.Database
import Tvntd.Java.RawByte
import Tvntd.Java.TagRanks

/-! # The request that ranks the tags of a user

The request numbers the submitted tags and writes to three tables. The tags of
the user are saved anew, the tags of the author are loaded and saved with their
ranks, and so are the briefs that the form lists, whoever wrote them. What was
saved stays where a later part fails.
-/

namespace Tvntd.TagRanking

open Function

open TagForm (TagRank RankHeap SortOf)

structure ArtRankInfo where
  tagName : Option Text
  artUuid : Option String
  order : Option Int64
deriving DecidableEq

structure TagArtRank where
  tagName : Option Text
  artUuid : Option (List (Option String))
  artRanks : Option (List (Option ArtRankInfo))
deriving DecidableEq

/-- The uuid is null where the text is no uuid. -/
structure TagForm (Ref : Type) where
  userUuid : Option UserUuid
  tagRanks : Option (List (Option Ref))
  artList : Option (List (Option TagArtRank))

/-- The database, and when each tag was last updated. -/
structure RankSite where
  db : Database
  lastUpdate : String → Int

inductive Response where
  | noProfile
  | tagOrder (userUuid : UserUuid) (tagRanks : Option (List (Option TagRank)))
      (artList : Option (List (Option TagArtRank)))

variable {Ref : Type} (sha1 : Sha1) (malformed : Octets → Nat)

/-! ## The tags -/

/-- `new ArtTag(uuid, tag, parent, rank)` -/
def newArtTag (uuid : UserUuid) (tag : Text) (parent : Option Text) (rank : Option Int64) :
    ArtTag where
  tagOid := toSha1Key sha1 (Text.getBytes tag) uuid
  userUuid := uuid
  tagName := Text.getBytes tag
  rankScore := rank.map Int64.toInt
  tagArtRanks := none
  parentTag := (parent.filter fun parent => !parent.isEmpty).map Text.getBytes
  tagKind := none
  imgOid := none
  routeLink := none

def RankSite.saveTag (site : RankSite) (now : Int) (uuid : UserUuid) (tag : Text)
    (parent : Option Text) (rank : Option Int64) : RankSite where
  db :=
    { site.db with
      tags :=
        { site.db.tags with
          artTagRepo := site.db.tags.artTagRepo.save (newArtTag sha1 uuid tag parent rank) } }
  lastUpdate :=
    update site.lastUpdate (newArtTag sha1 uuid tag parent rank).tagOid now

/-- Saves the tags that are neither public nor of articles. -/
def saveRanks (now : Int) (uuid : UserUuid) (heap : RankHeap Ref) :
    RankSite → List (Option Ref) → RankSite × Except Exception Unit
  | site, [] => (site, .ok ())
  | site, none :: _ => (site, .error .nullPointer)
  | site, some r :: rest =>
      if (heap r).pubTag = false ∧ (heap r).article = false then
        match (heap r).tagName with
        | none => (site, .error .nullPointer)
        | some tag =>
            saveRanks now uuid heap (site.saveTag sha1 now uuid tag (heap r).parent (heap r).rank)
              rest
      else saveRanks now uuid heap site rest

/-! ## The tags of an author -/

def saveAuthorTag (db : Database) (tag : AuthorTag) : Database :=
  { db with tags := { db.tags with authorTagRepo := db.tags.authorTagRepo.save tag } }

def rankAuthorTag (heap : RankHeap Ref) (dict : HashMap (Option Text) Ref) (db : Database)
    (t : AuthorTag) : Database :=
  match dict.lookup (some (fromRawByte malformed (some t.tagName))) with
  | none => db
  | some r => saveAuthorTag db { t with rank := (heap r).rank.map Int64.toInt }

/-! ## The briefs of articles -/

/-- The uuids of an entry in their order. -/
def orderUuids (tagName : Option Text) (order : Int64)
    (artOrder : HashMap (Option String) ArtRankInfo) :
    List (Option String) → HashMap (Option String) ArtRankInfo
  | [] => artOrder
  | s :: rest =>
      orderUuids tagName (order + 1) (AList.insert s ⟨tagName, s, some order⟩ artOrder) rest

def orderRanks (artUuids : List (Option String)) (artOrder : HashMap (Option String) ArtRankInfo) :
    List (Option ArtRankInfo) →
      Except Exception (List (Option String) × HashMap (Option String) ArtRankInfo)
  | [] => .ok (artUuids, artOrder)
  | none :: _ => .error .nullPointer
  | some info :: rest =>
      orderRanks (artUuids ++ [info.artUuid]) (AList.insert info.artUuid info artOrder) rest

/-- The uuids that an entry lists, and what it says of each. -/
def readEntry (r : TagArtRank) :
    Except Exception (List (Option String) × HashMap (Option String) ArtRankInfo) :=
  let uuidList := r.artUuid.getD []
  orderRanks uuidList (orderUuids r.tagName 10 ∅ uuidList) (r.artRanks.getD [])

def getArticleBriefDTO (db : Database) (artUuids : List (Option String)) : List LiveBrief :=
  (db.artBriefRepo.findAll fun brief => decide (some brief.articleUuid ∈ artUuids)).map
    fun brief => ⟨brief, db.artBaseRepo.find brief.articleUuid,
      db.artAttrRepo.find brief.articleUuid⟩

def setRank (live : LiveBrief) (rank : Option Int) : Except Exception LiveBrief :=
  match live.artAttr with
  | none => .error .nullPointer
  | some attr => .ok { live with artAttr := some { attr with rank := rank } }

def setTagName (live : LiveBrief) (tag : Option Text) : LiveBrief :=
  { live with brief := { live.brief with tag := toRawByte tag 64 } }

def rankBrief (artOrder : HashMap (Option String) ArtRankInfo) (rank : LiveBrief) :
    Except Exception LiveBrief :=
  match artOrder.lookup (some rank.brief.articleUuid) with
  | none => setRank rank (some 10)
  | some info =>
      (setRank rank (info.order.map Int64.toInt)).map fun rank => setTagName rank info.tagName

/-- Ranks the briefs behind those that are done; every turn saves all of them. -/
def rankBriefs (artOrder : HashMap (Option String) ArtRankInfo) (db : Database)
    (done : List LiveBrief) : List LiveBrief → Database × Except Exception Unit
  | [] => (db, .ok ())
  | rank :: rest =>
      match rankBrief artOrder rank with
      | .error error => (db, .error error)
      | .ok rank =>
          rankBriefs artOrder ((done ++ rank :: rest).foldl Database.saveBrief db)
            (done ++ [rank]) rest

def rankArticles : Database → List (Option TagArtRank) → Database × Except Exception Unit
  | db, [] => (db, .ok ())
  | db, none :: _ => (db, .error .nullPointer)
  | db, some r :: rest =>
      match readEntry r with
      | .error error => (db, .error error)
      | .ok (artUuids, artOrder) =>
          match rankBriefs artOrder db [] (getArticleBriefDTO db artUuids) with
          | (db, .error error) => (db, .error error)
          | (db, .ok ()) => rankArticles db rest

/-! ## The request -/

/-- What is done with numbered tags. -/
def rankAll (site : RankSite) (user : UserUuid) (heap : RankHeap Ref)
    (dict : HashMap (Option Text) Ref) (form : TagForm Ref) (now : Int) :
    RankSite × Except Exception Response :=
  match saveRanks sha1 now user heap site (form.tagRanks.getD []) with
  | (site, .error error) => (site, .error error)
  | (site, .ok ()) =>
      let tags := site.db.tags.authorTagRepo.findAll fun tag => decide (tag.authorUuid = user)
      let db := tags.foldl (rankAuthorTag malformed heap dict) site.db
      match form.artList with
      | none => ({ site with db := db }, .error .nullPointer)
      | some artList =>
          let (db, ranked) := rankArticles db artList
          ({ site with db := db }, ranked.map fun _ =>
            .tagOrder user (form.tagRanks.map fun ranks => ranks.map fun r => r.map heap)
              form.artList)

def updateTagRanking [DecidableEq Ref] (sort : SortOf Ref) (site : RankSite)
    (profile : Option UserUuid) (heap : RankHeap Ref) (form : TagForm Ref) (now : Int) : RankSite × Except Exception Response :=
  match profile with
  | none => (site, .ok .noProfile)
  | some user =>
      if form.userUuid = some user then
        match heap.fixupTagList sort form.tagRanks with
        | .error error => (site, .error error)
        | .ok (heap, dict) => rankAll sha1 malformed site user heap dict form now
      else (site, .ok .noProfile)

/-! ## What is asked of the request -/

/-- A tag has kept all but its rank and its parent. Whether the time of its last update is to be
kept as well is said by `times`. -/
structure KeptTag (times : Bool) (before after : String → Int) (tag later : ArtTag) : Prop where
  tagOid : later.tagOid = tag.tagOid
  userUuid : later.userUuid = tag.userUuid
  tagName : later.tagName = tag.tagName
  ranks : later.ranks = tag.ranks
  tagKind : later.tagKind = tag.tagKind
  imgOid : later.imgOid = tag.imgOid
  routeLink : later.routeLink = tag.routeLink
  lastUpdate : times = true → after tag.tagOid = before tag.tagOid

/-- A row has not changed, or it is a row of the user and only one of its fields has. -/
def ChangedAt {Row Key : Type} [Entity Row Key] [DecidableEq Key]
    (before after : Repository Row) (id : Key) (own : Row → Prop) (change : Row → Row → Prop) :
    Prop :=
  after.find id = before.find id ∨ ∃ row later, before.find id = some row ∧ own row ∧
    after.find id = some later ∧ change row later

/-- Only the ranks and the parents of the tags of the user changed, the ranks of their tags as an
author, and the ranks and the names of the tags of their briefs. Tags that were added are theirs. -/
structure Framed (times : Bool) (user : UserUuid) (before after : RankSite) : Prop where
  tags : ∀ id tag, before.db.tags.artTagRepo.find id = some tag → ∃ later,
    after.db.tags.artTagRepo.find id = some later ∧
      KeptTag times before.lastUpdate after.lastUpdate tag later ∧
      (tag.userUuid ≠ user → later = tag ∧ after.lastUpdate id = before.lastUpdate id)
  added : ∀ id later, before.db.tags.artTagRepo.find id = none →
    after.db.tags.artTagRepo.find id = some later → later.userUuid = user
  authorTags : ∀ id, ChangedAt before.db.tags.authorTagRepo after.db.tags.authorTagRepo id
    (fun tag => tag.authorUuid = user) fun tag later => ∃ rank, later = { tag with rank := rank }
  briefs : ∀ id, ChangedAt before.db.artBriefRepo after.db.artBriefRepo id
    (fun brief => brief.authorUuid = user) fun brief later =>
      ∃ tag, later = { brief with tag := tag }
  attrs : ∀ id, ChangedAt before.db.artAttrRepo after.db.artAttrRepo id
    (fun _ => ∃ brief, before.db.artBriefRepo.find id = some brief ∧ brief.authorUuid = user)
    fun attr later => ∃ rank, later = { attr with rank := rank }
  others : after.db =
    { before.db with
      tags := after.db.tags
      artBriefRepo := after.db.artBriefRepo
      artAttrRepo := after.db.artAttrRepo }

/-- The names of the tags that are saved: those in front of the first one without a name. -/
def savedNames (heap : RankHeap Ref) : List (Option Ref) → List Text
  | [] => []
  | none :: _ => []
  | some r :: rest =>
      if (heap r).pubTag = false ∧ (heap r).article = false then
        match (heap r).tagName with
        | none => []
        | some tag => tag :: savedNames heap rest
      else savedNames heap rest

/-- All tags that are saved have names. -/
def AllNamed (heap : RankHeap Ref) (ranks : List (Option Ref)) : Prop :=
  ∀ r ∈ ranks, ∃ tag, r = some tag ∧
    ((heap tag).pubTag = false → (heap tag).article = false → (heap tag).tagName ≠ none)

/-- The briefs of an entry that are reached: those in front of the first one without attributes. -/
def reached (db : Database) (artUuids : List (Option String)) : List LiveBrief :=
  (getArticleBriefDTO db artUuids).takeWhile fun live => live.artAttr.isSome

/-- What the entries say last of a brief, of those that are reached. -/
def lastInfo (db : Database) : List (Option TagArtRank) → String → Option ArtRankInfo
  | [], _ => none
  | none :: _, _ => none
  | some r :: rest, id =>
      match readEntry r with
      | .error _ => none
      | .ok (artUuids, artOrder) =>
          let here := if id ∈ (reached db artUuids).map fun live => live.brief.articleUuid then
              artOrder.lookup (some id)
            else none
          if (getArticleBriefDTO db artUuids).all fun live => live.artAttr.isSome then
            (lastInfo db rest id).or here
          else here

/-- A stored tag that differs from a new one of its name in its rank and its parent at most. -/
structure AsNew (times : Bool) (site : RankSite) (user : UserUuid) (now : Int) (name : Octets)
    (tag : ArtTag) : Prop where
  userUuid : tag.userUuid = user
  tagName : tag.tagName = name
  ranks : tag.ranks = []
  tagKind : tag.tagKind = none
  imgOid : tag.imgOid = none
  routeLink : tag.routeLink = none
  lastUpdate : times = true → site.lastUpdate tag.tagOid = now

/-- The tags that are saved are not stored yet, or as new ones; and what is said last of a brief of
another user is what it has. -/
structure Careful (times : Bool) (site : RankSite) (user : UserUuid) (heap : RankHeap Ref)
    (form : TagForm Ref) (now : Int) : Prop where
  tags : ∀ name ∈ savedNames heap (form.tagRanks.getD []), ∀ tag,
    site.db.tags.artTagRepo.find (toSha1Key sha1 (Text.getBytes name) user) = some tag →
      AsNew times site user now (Text.getBytes name) tag
  briefs : AllNamed heap (form.tagRanks.getD []) → ∀ artList, form.artList = some artList →
    ∀ id brief, site.db.artBriefRepo.find id = some brief → brief.authorUuid ≠ user →
      ∀ info, lastInfo site.db artList id = some info →
        brief.tag = toRawByte info.tagName 64 ∧ ∀ attr, site.db.artAttrRepo.find id = some attr →
          attr.rank = info.order.map Int64.toInt

/-! ## Saved tags -/

section Tags

variable {sha1} {user : UserUuid} {now : Int} {times : Bool} {before after site : RankSite}
  {names : List Text}

/-- What saving tags did. -/
structure Saved (sha1 : Sha1) (user : UserUuid) (now : Int) (names : List Text)
    (before after : RankSite) : Prop where
  others : ∀ id, (∀ name ∈ names, toSha1Key sha1 (Text.getBytes name) user ≠ id) →
    after.db.tags.artTagRepo.find id = before.db.tags.artTagRepo.find id ∧
      after.lastUpdate id = before.lastUpdate id
  saved : ∀ name ∈ names, ∃ other parent rank, Text.getBytes other = Text.getBytes name ∧
    after.db.tags.artTagRepo.find (toSha1Key sha1 (Text.getBytes name) user) =
      some (newArtTag sha1 user other parent rank) ∧
    after.lastUpdate (toSha1Key sha1 (Text.getBytes name) user) = now
  db : after.db = { before.db with
    tags := { before.db.tags with artTagRepo := after.db.tags.artTagRepo } }

private theorem saved_refl (site : RankSite) : Saved sha1 user now [] site site where
  others := fun _ _ => ⟨rfl, rfl⟩
  saved := fun _ inside => absurd inside List.not_mem_nil
  db := rfl

theorem Saved.cons {tag : Text} {parent : Option Text} {rank : Option Int64}
    (later : Saved sha1 user now names (site.saveTag sha1 now user tag parent rank) after) :
    Saved sha1 user now (tag :: names) site after := by
  obtain ⟨others, saved, db⟩ := later
  have here : (newArtTag sha1 user tag parent rank).tagOid =
      toSha1Key sha1 (Text.getBytes tag) user := rfl
  refine ⟨?_, ?_, db⟩
  · intro id apart
    obtain ⟨found, time⟩ := others id fun name inside => apart name (List.mem_cons_of_mem _ inside)
    have other := apart tag List.mem_cons_self
    refine ⟨found.trans (Repository.find_save_of_ne (Ne.symm other)), time.trans ?_⟩
    exact update_of_ne (Ne.symm other) _ _
  · intro name inside
    by_cases again : name ∈ names
    · exact saved name again
    · obtain rfl := (List.mem_cons.mp inside).resolve_right again
      by_cases shared : ∃ other ∈ names, toSha1Key sha1 (Text.getBytes other) user =
          toSha1Key sha1 (Text.getBytes name) user
      · obtain ⟨other, inside, same⟩ := shared
        obtain ⟨third, parent, rank, bytes, found, time⟩ := saved other inside
        rw [same] at found time
        exact ⟨third, parent, rank,
          bytes.trans (ArtTagService.toSha1Key_inj.mp same).1, found, time⟩
      · obtain ⟨found, time⟩ := others (toSha1Key sha1 (Text.getBytes name) user)
          fun other inside same => shared ⟨other, inside, same⟩
        refine ⟨name, parent, rank, rfl, found.trans ?_, time.trans ?_⟩
        · exact Repository.find_save_self _ _
        · exact update_self _ _ _

private theorem saveRanks_saved (sha1 : Sha1) (user : UserUuid) (now : Int) (heap : RankHeap Ref)
    (ranks : List (Option Ref)) (site : RankSite) :
    Saved sha1 user now (savedNames heap ranks) site
      (saveRanks sha1 now user heap site ranks).1 ∧
    ((saveRanks sha1 now user heap site ranks).2 = .ok () ↔ AllNamed heap ranks) := by
  induction ranks generalizing site with
  | nil => exact ⟨saved_refl site, ⟨fun _ r inside => absurd inside List.not_mem_nil, fun _ => rfl⟩⟩
  | cons r rest ih =>
      cases r with
      | none =>
          refine ⟨saved_refl site, ⟨fun failed => (by cases failed), fun named => ?_⟩⟩
          obtain ⟨tag, same, -⟩ := named none List.mem_cons_self
          cases same
      | some r =>
          have named_cons : AllNamed heap (some r :: rest) ↔
              ((heap r).pubTag = false → (heap r).article = false → (heap r).tagName ≠ none) ∧
                AllNamed heap rest := by
            unfold AllNamed
            simp
          rw [saveRanks, savedNames, named_cons]
          by_cases kept : (heap r).pubTag = false ∧ (heap r).article = false
          · rw [if_pos kept, if_pos kept]
            cases named : (heap r).tagName with
            | none =>
                refine ⟨saved_refl site, ⟨fun failed => (by cases failed), fun both => ?_⟩⟩
                exact absurd rfl (both.1 kept.1 kept.2)
            | some tag =>
                obtain ⟨saved, through⟩ := ih
                  (site.saveTag sha1 now user tag (heap r).parent (heap r).rank)
                refine ⟨saved.cons, through.trans ?_⟩
                exact ⟨fun rest => ⟨fun _ _ => by simp, rest⟩, fun both => both.2⟩
          · rw [if_neg kept, if_neg kept]
            obtain ⟨saved, through⟩ := ih site
            refine ⟨saved, through.trans ?_⟩
            exact ⟨fun rest => ⟨fun pub art => absurd ⟨pub, art⟩ kept, rest⟩, fun both => both.2⟩

/-- Saved tags are framed exactly if those that were stored are as new. -/
theorem Saved.framed_iff (times : Bool) (saved : Saved sha1 user now names before after) :
    (∀ id tag, before.db.tags.artTagRepo.find id = some tag → ∃ later,
      after.db.tags.artTagRepo.find id = some later ∧
        KeptTag times before.lastUpdate after.lastUpdate tag later ∧
        (tag.userUuid ≠ user → later = tag ∧ after.lastUpdate id = before.lastUpdate id)) ↔
    ∀ name ∈ names, ∀ tag,
      before.db.tags.artTagRepo.find (toSha1Key sha1 (Text.getBytes name) user) = some tag →
        AsNew times before user now (Text.getBytes name) tag := by
  constructor
  · intro framed name inside tag found
    obtain ⟨later, there, kept, -⟩ := framed _ tag found
    obtain ⟨other, parent, rank, bytes, last, time⟩ := saved.saved name inside
    cases there.symm.trans last
    have key := Repository.key_of_find found
    refine ⟨kept.userUuid.symm, kept.tagName.symm.trans bytes, kept.ranks.symm,
      kept.tagKind.symm, kept.imgOid.symm, kept.routeLink.symm, fun timed => ?_⟩
    exact (kept.lastUpdate timed).symm.trans ((congrArg after.lastUpdate key).trans time)
  · intro fresh id tag found
    have key : tag.tagOid = id := Repository.key_of_find found
    by_cases listed : ∃ name ∈ names, toSha1Key sha1 (Text.getBytes name) user = id
    · obtain ⟨name, inside, rfl⟩ := listed
      obtain ⟨userUuid, tagName, ranks, tagKind, imgOid, routeLink, lastUpdate⟩ :=
        fresh name inside tag found
      obtain ⟨other, parent, rank, bytes, last, time⟩ := saved.saved name inside
      refine ⟨_, last, ⟨?_, userUuid.symm, bytes.trans tagName.symm, ranks.symm, tagKind.symm,
        imgOid.symm, routeLink.symm, fun timed => ?_⟩, fun other => absurd userUuid other⟩
      · exact (congrArg (fun bytes => toSha1Key sha1 bytes user) bytes).trans key.symm
      · rw [lastUpdate timed, key, time]
    · obtain ⟨same, time⟩ := saved.others id fun name inside here => listed ⟨name, inside, here⟩
      refine ⟨tag, same.trans found, ⟨rfl, rfl, rfl, rfl, rfl, rfl, rfl, fun _ => ?_⟩,
        fun _ => ⟨rfl, time⟩⟩
      rw [key, time]

theorem Saved.added (saved : Saved sha1 user now names before after) {id : String} {later : ArtTag}
    (absent : before.db.tags.artTagRepo.find id = none)
    (found : after.db.tags.artTagRepo.find id = some later) : later.userUuid = user := by
  by_cases listed : ∃ name ∈ names, toSha1Key sha1 (Text.getBytes name) user = id
  · obtain ⟨name, inside, rfl⟩ := listed
    obtain ⟨other, parent, rank, -, last, -⟩ := saved.saved name inside
    cases found.symm.trans last
    rfl
  · have same := (saved.others id fun name inside here => listed ⟨name, inside, here⟩).1
    rw [same, absent] at found
    cases found

end Tags

/-! ## Tags of the author -/

section AuthorTags

variable {user : UserUuid} {before db : Database}

/-- What ranking the tags of an author did. -/
structure AuthorRanked (user : UserUuid) (before after : Database) : Prop where
  changed : ∀ id, ChangedAt before.tags.authorTagRepo after.tags.authorTagRepo id
    (fun tag => tag.authorUuid = user) fun tag later => ∃ rank, later = { tag with rank := rank }
  others : after =
    { before with tags := { before.tags with authorTagRepo := after.tags.authorTagRepo } }

private theorem AuthorRanked.rankAuthorTag {heap : RankHeap Ref} {dict : HashMap (Option Text) Ref}
    {t : AuthorTag} (ranked : AuthorRanked user before db)
    (stored : before.tags.authorTagRepo.find t.tagOid = some t) (own : t.authorUuid = user) :
    AuthorRanked user before (rankAuthorTag malformed heap dict db t) := by
  obtain ⟨changed, others⟩ := ranked
  unfold TagRanking.rankAuthorTag
  split
  · exact ⟨changed, others⟩
  case h_2 r _ =>
    refine ⟨fun id => ?_, ?_⟩
    · by_cases here : id = t.tagOid
      · subst here
        let later : AuthorTag := { t with rank := (heap r).rank.map Int64.toInt }
        have saved : (db.tags.authorTagRepo.save later).find t.tagOid = some later :=
          Repository.find_save_self _ later
        exact Or.inr ⟨t, later, stored, own, saved, _, rfl⟩
      · have same : (db.tags.authorTagRepo.save
            { t with rank := (heap r).rank.map Int64.toInt }).find id =
              db.tags.authorTagRepo.find id := Repository.find_save_of_ne here
        unfold ChangedAt saveAuthorTag
        rw [same]
        exact changed id
    · rw [others]
      rfl

private theorem rankAuthorTags_ranked (heap : RankHeap Ref) (dict : HashMap (Option Text) Ref)
    {tags : List AuthorTag} (stored : ∀ t ∈ tags,
      before.tags.authorTagRepo.find t.tagOid = some t ∧ t.authorUuid = user)
    (ranked : AuthorRanked user before db) :
    AuthorRanked user before (tags.foldl (rankAuthorTag malformed heap dict) db) := by
  induction tags generalizing db with
  | nil => exact ranked
  | cons t rest ih =>
      obtain ⟨here, own⟩ := stored t List.mem_cons_self
      exact ih (fun later inside => stored later (List.mem_cons_of_mem _ inside))
        (ranked.rankAuthorTag malformed here own)

end AuthorTags

/-! ## Ranked briefs -/

section Briefs

variable {before after last db : Database} {artOrder : HashMap (Option String) ArtRankInfo}

def tagged (info : Option ArtRankInfo) (brief : ArticleBrief) : ArticleBrief :=
  match info with
  | none => brief
  | some info => { brief with tag := toRawByte info.tagName 64 }

def rankedBy (info : Option ArtRankInfo) (attr : ArticleAttr) : ArticleAttr :=
  match info with
  | none => attr
  | some info => { attr with rank := info.order.map Int64.toInt }

/-- Every brief has the tag and the rank that are said of it. -/
structure Ranked (before after : Database) (said : String → Option ArtRankInfo) : Prop where
  briefs : ∀ id, after.artBriefRepo.find id = (before.artBriefRepo.find id).map (tagged (said id))
  attrs : ∀ id, after.artAttrRepo.find id = (before.artAttrRepo.find id).map (rankedBy (said id))
  order : after.artBriefRepo.rows.map ArticleBrief.articleUuid =
    before.artBriefRepo.rows.map ArticleBrief.articleUuid
  others : after = { before with
    artBriefRepo := after.artBriefRepo
    artAttrRepo := after.artAttrRepo }

private theorem ranked_refl (db : Database) : Ranked db db fun _ => none where
  briefs := fun _ => Option.map_id'.symm
  attrs := fun _ => Option.map_id'.symm
  order := rfl
  others := rfl

theorem Ranked.trans {first second : String → Option ArtRankInfo} (one : Ranked before after first)
    (two : Ranked after last second) :
    Ranked before last fun id => (second id).or (first id) where
  briefs := by
    intro id
    rw [two.briefs, one.briefs, Option.map_map]
    congr 1
    funext brief
    cases second id with
    | none => rfl
    | some info => cases first id <;> rfl
  attrs := by
    intro id
    rw [two.attrs, one.attrs, Option.map_map]
    congr 1
    funext attr
    cases second id with
    | none => rfl
    | some info => cases first id <;> rfl
  order := two.order.trans one.order
  others := by
    rw [two.others, one.others]

/-- A brief as it is stored. -/
def Stored (db : Database) (live : LiveBrief) : Prop :=
  db.findBrief live.brief.articleUuid = some live

theorem Stored.parts {live : LiveBrief} (stored : Stored db live) :
    db.artBriefRepo.find live.brief.articleUuid = some live.brief ∧
      db.artBaseRepo.find live.brief.articleUuid = live.artBase ∧
        db.artAttrRepo.find live.brief.articleUuid = live.artAttr := by
  obtain ⟨brief, found, same⟩ := Option.map_eq_some_iff.mp stored
  exact ⟨found.trans (congrArg (fun live => some live.brief) same),
    congrArg LiveBrief.artBase same, congrArg LiveBrief.artAttr same⟩

/-- Saving what is stored changes nothing. -/
theorem Stored.saveBrief {live : LiveBrief} (stored : Stored db live) : db.saveBrief live = db := by
  obtain ⟨brief, base, attr⟩ := stored.parts
  have bases : live.artBase.elim db.artBaseRepo db.artBaseRepo.save = db.artBaseRepo := by
    cases there : live.artBase with
    | none => rfl
    | some artBase => exact Repository.save_eq_self (base.trans there)
  have attrs : live.artAttr.elim db.artAttrRepo db.artAttrRepo.save = db.artAttrRepo := by
    cases there : live.artAttr with
    | none => rfl
    | some artAttr => exact Repository.save_eq_self (attr.trans there)
  unfold Database.saveBrief Database.saveOwned
  rw [bases, attrs, Repository.save_eq_self brief]

private theorem foldl_saveBrief {lives : List LiveBrief} (stored : ∀ live ∈ lives, Stored db live) :
    lives.foldl Database.saveBrief db = db := by
  induction lives with
  | nil => rfl
  | cons live rest ih =>
      rw [List.foldl_cons, (stored live List.mem_cons_self).saveBrief]
      exact ih fun later inside => stored later (List.mem_cons_of_mem _ inside)

/-- A brief with what is said of it. -/
def assigned (info : ArtRankInfo) (live : LiveBrief) : LiveBrief :=
  { live with
    brief := tagged (some info) live.brief
    artAttr := live.artAttr.map (rankedBy (some info)) }

@[simp] theorem assigned_articleUuid (info : ArtRankInfo) (live : LiveBrief) :
    (assigned info live).brief.articleUuid = live.brief.articleUuid := rfl

private theorem rankBrief_eq {live : LiveBrief} {info : ArtRankInfo} {attr : ArticleAttr}
    (said : artOrder.lookup (some live.brief.articleUuid) = some info)
    (there : live.artAttr = some attr) : rankBrief artOrder live = .ok (assigned info live) := by
  rw [rankBrief, said]
  simp only [setRank, assigned, there]
  rfl

/-- A row that is stored under its key keeps its place. -/
theorem map_key_put {row old : ArticleBrief} {rows : List ArticleBrief} (inside : old ∈ rows)
    (same : old.articleUuid = row.articleUuid) :
    (Repository.put row rows).map ArticleBrief.articleUuid =
      rows.map ArticleBrief.articleUuid := by
  induction rows with
  | nil => cases inside
  | cons first rest ih =>
      by_cases here : first.articleUuid = row.articleUuid
      · have put : Repository.put row (first :: rest) = row :: rest := if_pos here
        rw [put, List.map_cons, List.map_cons, here]
      · have put : Repository.put row (first :: rest) = first :: Repository.put row rest :=
          if_neg here
        have later : old ∈ rest := by
          refine (List.mem_cons.mp inside).resolve_left fun equal => here ?_
          rw [← equal, same]
        rw [put, List.map_cons, List.map_cons, ih later]

/-- What saving a brief with what is said of it does. -/
structure Assigned (db after : Database) (info : ArtRankInfo) (live : LiveBrief) : Prop where
  ranked : Ranked db after fun id => if id = live.brief.articleUuid then some info else none
  stored : Stored after (assigned info live)
  others : ∀ other, Stored db other → other.brief.articleUuid ≠ live.brief.articleUuid →
    Stored after other

theorem Stored.assigned {live : LiveBrief} (stored : Stored db live) (info : ArtRankInfo)
    {attr : ArticleAttr} (there : live.artAttr = some attr) :
    Assigned db (db.saveBrief (assigned info live)) info live := by
  obtain ⟨brief, base, attrs⟩ := stored.parts
  have bases : live.artBase.elim db.artBaseRepo db.artBaseRepo.save = db.artBaseRepo := by
    cases there : live.artBase with
    | none => rfl
    | some artBase => exact Repository.save_eq_self (base.trans there)
  have attrKey : attr.articleUuid = live.brief.articleUuid :=
    Repository.key_of_find (attrs.trans there)
  have after : db.saveBrief (TagRanking.assigned info live) = { db with
      artBriefRepo := db.artBriefRepo.save (tagged (some info) live.brief)
      artAttrRepo := db.artAttrRepo.save (rankedBy (some info) attr) } := by
    unfold Database.saveBrief Database.saveOwned TagRanking.assigned
    simp only [bases, there]
    rfl
  have briefs : ∀ id, (db.artBriefRepo.save (tagged (some info) live.brief)).find id =
      if id = live.brief.articleUuid then some (tagged (some info) live.brief)
      else db.artBriefRepo.find id := fun id => Repository.find_save _ _ id
  have attrRows : ∀ id, (db.artAttrRepo.save (rankedBy (some info) attr)).find id =
      if id = live.brief.articleUuid then some (rankedBy (some info) attr)
      else db.artAttrRepo.find id := by
    intro id
    rw [← attrKey]
    exact Repository.find_save _ _ id
  rw [after]
  refine ⟨⟨fun id => ?_, fun id => ?_, ?_, rfl⟩, ?_, ?_⟩
  · refine (briefs id).trans ?_
    by_cases here : id = live.brief.articleUuid
    · rw [if_pos here, if_pos here, here, brief]
      rfl
    · rw [if_neg here, if_neg here]
      exact Option.map_id'.symm
  · refine (attrRows id).trans ?_
    by_cases here : id = live.brief.articleUuid
    · rw [if_pos here, if_pos here, here, attrs, there]
      rfl
    · rw [if_neg here, if_neg here]
      exact Option.map_id'.symm
  · exact map_key_put (Repository.mem_of_find brief) rfl
  · have key : (TagRanking.assigned info live).brief.articleUuid = live.brief.articleUuid := rfl
    rw [Stored, key, Database.findBrief]
    simp only [briefs, attrRows, if_true, base, Option.map_some, TagRanking.assigned, there]
  · intro other held apart
    rw [Stored, Database.findBrief]
    simp only [briefs, attrRows, if_neg apart]
    exact held

/-- Ranking the briefs of one entry changes those in front of the first one without attributes. -/
theorem rankBriefs_ranked {done rest : List LiveBrief}
    (stored : ∀ live ∈ done ++ rest, Stored db live)
    (distinct : ((done ++ rest).map fun live => live.brief.articleUuid).Nodup)
    (said : ∀ live ∈ rest, (artOrder.lookup (some live.brief.articleUuid)).isSome) :
    Ranked db (rankBriefs artOrder db done rest).1 (fun id =>
      if id ∈ (rest.takeWhile fun live => live.artAttr.isSome).map
          fun live => live.brief.articleUuid then artOrder.lookup (some id) else none) ∧
    ((rankBriefs artOrder db done rest).2 = .ok () ↔
      (rest.all fun live => live.artAttr.isSome) = true) := by
  induction rest generalizing db done with
  | nil => exact ⟨by simpa [rankBriefs] using ranked_refl db, by simp [rankBriefs]⟩
  | cons live rest ih =>
      obtain ⟨info, here⟩ := Option.isSome_iff_exists.mp (said live List.mem_cons_self)
      have own : Stored db live := stored live (by simp)
      cases there : live.artAttr with
      | none =>
          have failed : rankBrief artOrder live = .error .nullPointer := by
            rw [rankBrief, here]
            simp only [setRank, there]
            rfl
          rw [rankBriefs, failed, List.takeWhile_cons, List.all_cons, there]
          exact ⟨by simpa using ranked_refl db, by simp⟩
      | some attr =>
          have ranked := rankBrief_eq here there
          obtain ⟨change, kept, others⟩ := own.assigned info there
          have apart : ∀ other ∈ done ++ rest,
              other.brief.articleUuid ≠ live.brief.articleUuid := by
            rw [List.map_append, List.map_cons, List.nodup_middle, ← List.map_append] at distinct
            intro other inside same
            exact (List.nodup_cons.mp distinct).1 (same ▸ List.mem_map_of_mem inside)
          have still : ∀ other ∈ done ++ rest, Stored (db.saveBrief (assigned info live)) other :=
            fun other inside => others other
              (stored other (by
                rcases List.mem_append.mp inside with before | behind
                · exact List.mem_append_left _ before
                · exact List.mem_append_right _ (List.mem_cons_of_mem _ behind)))
              (apart other inside)
          have saves : (done ++ assigned info live :: rest).foldl Database.saveBrief db =
              db.saveBrief (assigned info live) := by
            rw [List.foldl_append,
              foldl_saveBrief fun other inside => stored other (List.mem_append_left _ inside),
              List.foldl_cons]
            exact foldl_saveBrief fun other inside => still other (List.mem_append_right _ inside)
          have all : ∀ other ∈ done ++ [assigned info live] ++ rest,
              Stored (db.saveBrief (assigned info live)) other := by
            intro other inside
            rw [List.append_assoc, List.mem_append, List.mem_append, List.mem_singleton] at inside
            rcases inside with before | rfl | behind
            · exact still other (List.mem_append_left _ before)
            · exact kept
            · exact still other (List.mem_append_right _ behind)
          have names : ((done ++ [assigned info live] ++ rest).map
              fun live => live.brief.articleUuid).Nodup := by
            simpa using distinct
          obtain ⟨later, through⟩ := ih all names
            fun other inside => said other (List.mem_cons_of_mem _ inside)
          rw [rankBriefs, ranked]
          simp only [saves]
          refine ⟨?_, by simpa [there] using through⟩
          have both := change.trans later
          refine cast (congrArg _ (funext fun id => ?_)) both
          rw [List.takeWhile_cons, there]
          by_cases equal : id = live.brief.articleUuid
          · have gone : id ∉ (rest.takeWhile fun live => live.artAttr.isSome).map
                fun live => live.brief.articleUuid := by
              intro inside
              obtain ⟨other, within, same⟩ := List.mem_map.mp inside
              exact apart other (List.mem_append_right _ ((List.takeWhile_sublist _).subset within))
                (same.trans equal)
            rw [if_neg gone, if_pos equal, if_pos (by simp [equal]), equal, here]
            rfl
          · simp [equal]

private theorem orderUuids_isSome {tagName : Option Text} {order : Int64} {s : Option String}
    {uuids : List (Option String)}
    (known : s ∈ uuids ∨ (artOrder.lookup s).isSome) :
    ((orderUuids tagName order artOrder uuids).lookup s).isSome := by
  induction uuids generalizing order artOrder with
  | nil => exact known.resolve_left List.not_mem_nil
  | cons first rest ih =>
      refine ih ?_
      by_cases here : s = first
      · exact Or.inr (by rw [here, AList.lookup_insert]; rfl)
      · rcases known with inside | before
        · exact Or.inl ((List.mem_cons.mp inside).resolve_left here)
        · exact Or.inr (by rw [AList.lookup_insert_ne here]; exact before)

private theorem orderRanks_isSome {infos : List (Option ArtRankInfo)}
    {uuids artUuids : List (Option String)} {read : HashMap (Option String) ArtRankInfo}
    (known : ∀ s ∈ uuids, (artOrder.lookup s).isSome)
    (done : orderRanks uuids artOrder infos = .ok (artUuids, read)) :
    ∀ s ∈ artUuids, (read.lookup s).isSome := by
  induction infos generalizing uuids artOrder with
  | nil =>
      cases done
      exact known
  | cons first rest ih =>
      cases first with
      | none => cases done
      | some info =>
          refine ih (fun s inside => ?_) done
          by_cases here : s = info.artUuid
          · rw [here, AList.lookup_insert]
            rfl
          · rw [AList.lookup_insert_ne here]
            refine known s ((List.mem_append.mp inside).resolve_right fun last => here ?_)
            exact List.mem_singleton.mp last

/-- An entry says something of every uuid that it lists. -/
theorem readEntry_isSome {r : TagArtRank} {artUuids : List (Option String)}
    (done : readEntry r = .ok (artUuids, artOrder)) :
    ∀ s ∈ artUuids, (artOrder.lookup s).isSome :=
  orderRanks_isSome (fun _ inside => orderUuids_isSome (Or.inl inside)) done

private theorem mem_getArticleBriefDTO {live : LiveBrief} {artUuids : List (Option String)}
    (inside : live ∈ getArticleBriefDTO db artUuids) :
    Stored db live ∧ some live.brief.articleUuid ∈ artUuids := by
  obtain ⟨brief, found, rfl⟩ := List.mem_map.mp inside
  obtain ⟨row, listed⟩ := Repository.mem_findAll.mp found
  refine ⟨?_, of_decide_eq_true listed⟩
  have there : db.artBriefRepo.find brief.articleUuid = some brief := Repository.find_of_mem row
  rw [Stored, Database.findBrief, there]
  rfl

private theorem map_getArticleBriefDTO (db : Database) (artUuids : List (Option String)) :
    (getArticleBriefDTO db artUuids).map (fun live => live.brief.articleUuid) =
      (db.artBriefRepo.rows.map ArticleBrief.articleUuid).filter
        fun id => decide (some id ∈ artUuids) := by
  rw [getArticleBriefDTO, List.map_map, List.filter_map]
  rfl

/-- Whether a brief has attributes is said by its uuid. -/
theorem all_getArticleBriefDTO (db : Database) (artUuids : List (Option String)) :
    ((getArticleBriefDTO db artUuids).all fun live => live.artAttr.isSome) =
      ((db.artBriefRepo.rows.map ArticleBrief.articleUuid).filter
        fun id => decide (some id ∈ artUuids)).all fun id => (db.artAttrRepo.find id).isSome := by
  rw [← map_getArticleBriefDTO, getArticleBriefDTO, List.map_map, List.all_map, List.all_map]
  rfl

private theorem map_reached (db : Database) (artUuids : List (Option String)) :
    (reached db artUuids).map (fun live => live.brief.articleUuid) =
      ((db.artBriefRepo.rows.map ArticleBrief.articleUuid).filter
        fun id => decide (some id ∈ artUuids)).takeWhile
          fun id => (db.artAttrRepo.find id).isSome := by
  rw [← map_getArticleBriefDTO, reached, getArticleBriefDTO, List.map_map, List.takeWhile_map,
    List.takeWhile_map, List.map_map]
  rfl

/-- What is said last of a brief depends on which briefs there are, and which have attributes. -/
theorem lastInfo_congr
    (order : after.artBriefRepo.rows.map ArticleBrief.articleUuid =
      before.artBriefRepo.rows.map ArticleBrief.articleUuid)
    (attrs : ∀ id, (after.artAttrRepo.find id).isSome = (before.artAttrRepo.find id).isSome)
    (artList : List (Option TagArtRank)) : lastInfo after artList = lastInfo before artList := by
  induction artList with
  | nil => rfl
  | cons r rest ih =>
      cases r with
      | none => rfl
      | some r =>
          funext id
          simp only [lastInfo, map_reached, all_getArticleBriefDTO, order, attrs, ih]

theorem Ranked.lastInfo_eq {said : String → Option ArtRankInfo} (ranked : Ranked before after said)
    (artList : List (Option TagArtRank)) : lastInfo after artList = lastInfo before artList :=
  lastInfo_congr ranked.order (fun id => by rw [ranked.attrs, Option.isSome_map]) artList

/-- What is said is said of a stored brief. -/
theorem find_of_lastInfo {artList : List (Option TagArtRank)} {id : String} {info : ArtRankInfo}
    (said : lastInfo db artList id = some info) :
    ∃ brief, db.artBriefRepo.find id = some brief := by
  induction artList with
  | nil => cases said
  | cons r rest ih =>
      cases r with
      | none => cases said
      | some r =>
          cases entry : readEntry r with
          | error error =>
              simp only [lastInfo, entry] at said
              cases said
          | ok read =>
              obtain ⟨artUuids, artOrder⟩ := read
              by_cases inside : id ∈ (reached db artUuids).map fun live => live.brief.articleUuid
              · obtain ⟨live, within, rfl⟩ := List.mem_map.mp inside
                have listed := (List.takeWhile_sublist _).subset within
                exact ⟨_, (mem_getArticleBriefDTO listed).1.parts.1⟩
              · simp only [lastInfo, entry, if_neg inside, Option.or_none] at said
                split at said
                · exact ih said
                · cases said

/-- Ranking all entries gives every brief what is said of it last. -/
theorem rankArticles_ranked (db : Database) (artList : List (Option TagArtRank)) :
    Ranked db (rankArticles db artList).1 (lastInfo db artList) := by
  induction artList generalizing db with
  | nil => exact ranked_refl db
  | cons r rest ih =>
      cases r with
      | none => exact ranked_refl db
      | some r =>
          cases entry : readEntry r with
          | error error =>
              have said : lastInfo db (some r :: rest) = fun _ => none := by
                funext id
                simp only [lastInfo, entry]
              rw [rankArticles, entry, said]
              exact ranked_refl db
          | ok read =>
              obtain ⟨artUuids, artOrder⟩ := read
              have distinct : ((getArticleBriefDTO db artUuids).map
                  fun live => live.brief.articleUuid).Nodup := by
                rw [map_getArticleBriefDTO]
                exact db.artBriefRepo.distinct.filter _
              obtain ⟨ranked, through⟩ := @rankBriefs_ranked db artOrder []
                (getArticleBriefDTO db artUuids)
                (fun live inside => (mem_getArticleBriefDTO inside).1) distinct
                fun live inside => readEntry_isSome entry _ (mem_getArticleBriefDTO inside).2
              rw [rankArticles, entry]
              dsimp only
              cases outcome : rankBriefs artOrder db [] (getArticleBriefDTO db artUuids) with
              | mk next result =>
                  rw [outcome] at ranked through
                  cases result with
                  | error error =>
                      have missing := mt through.mpr (by simp)
                      refine cast (congrArg _ (funext fun id => ?_)) ranked
                      simp only [lastInfo, entry, if_neg missing, reached]
                      exact if_congr Iff.rfl rfl rfl
                  | ok done =>
                      have all := through.mp rfl
                      have both := ranked.trans (ih next)
                      rw [ranked.lastInfo_eq rest] at both
                      refine cast (congrArg _ (funext fun id => ?_)) both
                      simp only [lastInfo, entry, if_pos all, reached]
                      exact congrArg _ (if_congr Iff.rfl rfl rfl)

end Briefs

/-! ## The exact condition -/

section Request

variable {sha1 malformed} {sort : SortOf Ref} {user : UserUuid} {now : Int} {times : Bool}
  {heap : RankHeap Ref} {form : TagForm Ref} {site : RankSite}

private theorem framed_refl (site : RankSite) : Framed times user site site where
  tags := fun _ tag found => ⟨tag, found, ⟨rfl, rfl, rfl, rfl, rfl, rfl, rfl, fun _ => rfl⟩,
    fun _ => ⟨rfl, rfl⟩⟩
  added := fun id later absent found => by
    rw [absent] at found
    cases found
  authorTags := fun _ => Or.inl rfl
  briefs := fun _ => Or.inl rfl
  attrs := fun _ => Or.inl rfl
  others := rfl

/-- The frame is kept exactly if the saved tags were as new, and if what is said of the briefs of
other users is what they have. -/
theorem framed_iff (times : Bool) {mid : RankSite} {db last : Database} {names : List Text}
    {said : String → Option ArtRankInfo} (saved : Saved sha1 user now names site mid)
    (author : AuthorRanked user mid.db db) (ranked : Ranked db last said)
    (live : ∀ id info, said id = some info → ∃ brief, site.db.artBriefRepo.find id = some brief) :
    Framed times user site ⟨last, mid.lastUpdate⟩ ↔
      (∀ name ∈ names, ∀ tag,
        site.db.tags.artTagRepo.find (toSha1Key sha1 (Text.getBytes name) user) = some tag →
          AsNew times site user now (Text.getBytes name) tag) ∧
      ∀ id brief, site.db.artBriefRepo.find id = some brief → brief.authorUuid ≠ user →
        ∀ info, said id = some info → brief.tag = toRawByte info.tagName 64 ∧
          ∀ attr, site.db.artAttrRepo.find id = some attr →
            attr.rank = info.order.map Int64.toInt := by
  have tables : last.tags = db.tags := by rw [ranked.others]
  have tagTable : last.tags.artTagRepo = mid.db.tags.artTagRepo := by rw [tables, author.others]
  have authorTable : mid.db.tags.authorTagRepo = site.db.tags.authorTagRepo := by rw [saved.db]
  have briefTable : db.artBriefRepo = site.db.artBriefRepo := by rw [author.others, saved.db]
  have attrTable : db.artAttrRepo = site.db.artAttrRepo := by rw [author.others, saved.db]
  have briefs := ranked.briefs
  have attrs := ranked.attrs
  rw [briefTable] at briefs
  rw [attrTable] at attrs
  have tagsFramed := saved.framed_iff times
  constructor
  · intro framed
    refine ⟨tagsFramed.mp ?_, ?_⟩
    · intro id tag found
      obtain ⟨later, there, kept, other⟩ := framed.tags id tag found
      have there : mid.db.tags.artTagRepo.find id = some later := tagTable ▸ there
      exact ⟨later, there, kept, other⟩
    · intro id brief found other info here
      constructor
      · rcases framed.briefs id with same | ⟨row, later, there, own, -⟩
        · rw [briefs, found, here] at same
          exact (congrArg ArticleBrief.tag (Option.some.inj same)).symm
        · cases found.symm.trans there
          exact absurd own other
      · intro attr there
        rcases framed.attrs id with same | ⟨row, later, -, ⟨mine, stored, own⟩, -⟩
        · rw [attrs, there, here] at same
          exact (congrArg ArticleAttr.rank (Option.some.inj same)).symm
        · cases found.symm.trans stored
          exact absurd own other
  · rintro ⟨fresh, agrees⟩
    refine ⟨?_, ?_, ?_, ?_, ?_, ?_⟩
    · intro id tag found
      obtain ⟨later, there, kept, other⟩ := tagsFramed.mpr fresh id tag found
      exact ⟨later, (congrArg (fun repo => repo.find id) tagTable).trans there, kept, other⟩
    · intro id later absent found
      exact saved.added absent (tagTable ▸ found)
    · intro id
      have changed := author.changed id
      rw [authorTable, ← tables] at changed
      exact changed
    · intro id
      cases here : said id with
      | none =>
          refine Or.inl ((briefs id).trans ?_)
          rw [here]
          exact Option.map_id'
      | some info =>
          obtain ⟨brief, found⟩ := live id info here
          by_cases own : brief.authorUuid = user
          · refine Or.inr
              ⟨brief, tagged (some info) brief, found, own, (briefs id).trans ?_, _, rfl⟩
            rw [here, found]
            rfl
          · refine Or.inl ((briefs id).trans ?_)
            rw [here, found, Option.map_some, tagged, ← (agrees id brief found own info here).1]
    · intro id
      cases here : said id with
      | none =>
          refine Or.inl ((attrs id).trans ?_)
          rw [here]
          exact Option.map_id'
      | some info =>
          obtain ⟨brief, found⟩ := live id info here
          cases there : site.db.artAttrRepo.find id with
          | none =>
              refine Or.inl ((attrs id).trans ?_)
              rw [there]
              rfl
          | some attr =>
              by_cases own : brief.authorUuid = user
              · refine Or.inr ⟨attr, rankedBy (some info) attr, there, ⟨brief, found, own⟩,
                  (attrs id).trans ?_, _, rfl⟩
                rw [here, there]
                rfl
              · refine Or.inl ((attrs id).trans ?_)
                rw [here, there, Option.map_some, rankedBy,
                  ← (agrees id brief found own info here).2 attr there]
    · rw [ranked.others, author.others, saved.db]

/-- What is done with numbered tags keeps the frame exactly if it is careful. -/
theorem rankAll_framed_iff (site : RankSite) (user : UserUuid) (heap : RankHeap Ref)
    (dict : HashMap (Option Text) Ref) (form : TagForm Ref) (now : Int) :
    Framed times user site (rankAll sha1 malformed site user heap dict form now).1 ↔
      Careful sha1 times site user heap form now := by
  obtain ⟨saved, through⟩ :=
    saveRanks_saved sha1 user now heap (form.tagRanks.getD []) site
  unfold rankAll
  cases outcome : saveRanks sha1 now user heap site (form.tagRanks.getD []) with
  | mk mid result =>
      rw [outcome] at saved through
      cases result with
      | error error =>
          have unnamed : ¬ AllNamed heap (form.tagRanks.getD []) := mt through.mpr (by simp)
          have parts := framed_iff times saved
            (⟨fun _ => Or.inl rfl, rfl⟩ : AuthorRanked user mid.db mid.db) (ranked_refl mid.db)
            fun id info said => by cases said
          refine parts.trans ⟨fun both => ⟨both.1, fun named => absurd named unnamed⟩, ?_⟩
          exact fun careful => ⟨careful.tags, fun id brief _ _ info said => by cases said⟩
      | ok done =>
          have named := through.mp rfl
          have stored : ∀ t ∈ mid.db.tags.authorTagRepo.findAll
              (fun tag => decide (tag.authorUuid = user)),
              mid.db.tags.authorTagRepo.find t.tagOid = some t ∧ t.authorUuid = user := by
            intro t inside
            obtain ⟨row, own⟩ := Repository.mem_findAll.mp inside
            exact ⟨Repository.find_of_mem row, of_decide_eq_true own⟩
          have author := rankAuthorTags_ranked malformed heap dict stored
            ⟨fun _ => Or.inl rfl, rfl⟩
          dsimp only
          generalize (mid.db.tags.authorTagRepo.findAll
            fun tag => decide (tag.authorUuid = user)).foldl
              (rankAuthorTag malformed heap dict) mid.db = db at author ⊢
          cases list : form.artList with
          | none =>
              have parts := framed_iff times saved author (ranked_refl _)
                fun id info said => by cases said
              refine parts.trans ⟨fun both => ⟨both.1, fun _ artList there => ?_⟩, ?_⟩
              · rw [list] at there
                cases there
              · exact fun careful => ⟨careful.tags, fun id brief _ _ info said => by cases said⟩
          | some artList =>
              have ranked := rankArticles_ranked db artList
              have same : lastInfo db artList = lastInfo site.db artList :=
                lastInfo_congr (by rw [author.others, saved.db])
                  (fun id => by rw [author.others, saved.db]) artList
              rw [same] at ranked
              refine (framed_iff times saved author ranked
                fun id info said => find_of_lastInfo said).trans ?_
              constructor
              · rintro ⟨tags, briefs⟩
                refine ⟨tags, fun _ other there => ?_⟩
                rw [list] at there
                cases there
                exact briefs
              · exact fun careful => ⟨careful.tags, careful.briefs named artList list⟩

theorem savedNames_congr {before after : RankHeap Ref} (same : TagForm.SameButRanks before after)
    (ranks : List (Option Ref)) : savedNames after ranks = savedNames before ranks := by
  induction ranks with
  | nil => rfl
  | cons r rest ih =>
      cases r with
      | none => rfl
      | some r =>
          obtain ⟨rank, here⟩ := same r
          simp only [savedNames, here, ih]

theorem allNamed_congr {before after : RankHeap Ref} (same : TagForm.SameButRanks before after)
    (ranks : List (Option Ref)) : AllNamed after ranks ↔ AllNamed before ranks := by
  have fields : ∀ r, (after r).pubTag = (before r).pubTag ∧
      (after r).article = (before r).article ∧ (after r).tagName = (before r).tagName := by
    intro r
    obtain ⟨rank, here⟩ := same r
    rw [here]
    exact ⟨rfl, rfl, rfl⟩
  simp only [AllNamed, fun r => (fields r).1, fun r => (fields r).2.1, fun r => (fields r).2.2]

theorem careful_congr {before after : RankHeap Ref} (same : TagForm.SameButRanks before after) :
    Careful sha1 times site user after form now ↔ Careful sha1 times site user before form now := by
  have names := savedNames_congr same (form.tagRanks.getD [])
  have named := allNamed_congr same (form.tagRanks.getD [])
  constructor
  · rintro ⟨tags, briefs⟩
    rw [names] at tags
    rw [named] at briefs
    exact ⟨tags, briefs⟩
  · rintro ⟨tags, briefs⟩
    rw [← names] at tags
    rw [← named] at briefs
    exact ⟨tags, briefs⟩

/-- For every database and every form that a user sends, the request keeps to the ranks and the
parents of their own tags, the ranks of their tags as an author and the ranks and tags of their own
briefs, exactly if it is refused, or its tags cannot be numbered, or it is careful. -/
theorem updateTagRanking_framed_iff [DecidableEq Ref] (sha1 : Sha1) (malformed : Octets → Nat)
    (sort : SortOf Ref) (times : Bool) (site : RankSite) (user : UserUuid) (heap : RankHeap Ref)
    (form : TagForm Ref) (now : Int) :
    Framed times user site
        (updateTagRanking sha1 malformed sort site (some user) heap form now).1 ↔
      (form.userUuid = some user → (∃ fixed, heap.fixupTagList sort form.tagRanks = .ok fixed) →
        Careful sha1 times site user heap form now) := by
  unfold updateTagRanking
  by_cases own : form.userUuid = some user
  · simp only [own, forall_const]
    cases fixed : heap.fixupTagList sort form.tagRanks with
    | error error => simpa using framed_refl site
    | ok pair =>
        obtain ⟨after, dict⟩ := pair
        refine (rankAll_framed_iff site user after dict form now).trans ?_
        refine (careful_congr (TagForm.sameButRanks_fixup fixed)).trans ?_
        exact ⟨fun careful _ => careful, fun careful => careful ⟨_, rfl⟩⟩
  · simp only [own, false_implies, iff_true]
    exact framed_refl site

end Request

/-! ## A tag of a kind -/

def blogName : Text := Text.ofString "blog"

/-- A tag with a kind, an image and a ranked article. -/
def blogTag : ArtTag where
  tagOid := toSha1Key ArtTagService.plainSha1 (Text.getBytes blogName) publicUuid
  userUuid := publicUuid
  tagName := Text.getBytes blogName
  rankScore := some 7
  tagArtRanks := some ["article"]
  parentTag := none
  tagKind := some "blog"
  imgOid := some "image"
  routeLink := none

def blogSite : RankSite where
  db :=
    { Database.empty with
      tags :=
        { artTagRepo := Repository.empty.save blogTag
          authorTagRepo := Repository.empty } }
  lastUpdate := fun _ => 0

/-- The only tag of the form is that one, which is moved to another rank. -/
def blogRank (_ : Unit) : TagRank where
  tagName := some blogName
  parent := none
  rank := some 5
  pubTag := false
  favorite := false
  article := false
  imgOid := none
  routeLink := none

def blogForm : TagForm Unit where
  userUuid := some publicUuid
  tagRanks := some [some ()]
  artList := some []

theorem blogTag_not_framed : ¬ Framed false publicUuid blogSite
    (updateTagRanking ArtTagService.plainSha1 (fun _ => 1) (fun _ list => .ok list) blogSite
      (some publicUuid) blogRank blogForm 0).1 := by
  intro framed
  have stored : blogSite.db.tags.artTagRepo.find blogTag.tagOid = some blogTag :=
    Repository.find_save_self _ blogTag
  obtain ⟨later, there, kept, -⟩ := framed.tags _ _ stored
  have kinds : ((updateTagRanking ArtTagService.plainSha1 (fun _ => 1) (fun _ list => .ok list)
      blogSite (some publicUuid) blogRank blogForm 0).1.db.tags.artTagRepo.find
        blogTag.tagOid).map ArtTag.tagKind = some none := by decide +kernel
  rw [there, Option.map_some, kept.tagKind] at kinds
  cases kinds

end Tvntd.TagRanking
