import Tvntd.Java.ArticleDelete
import Tvntd.Lib.Service

/-! # Deletion of ads

An ad is for a business or for a room, and each kind has a table of its own. An
ad for a business is not followed to its address.
-/

namespace Tvntd.ArticleSvc

open ArtTagService (plainSha1)

inductive ArtAdsDTO where
  | bus (ads : ArtAds)
  | room (ads : ArtRoomAds)
deriving DecidableEq

def ArtAdsDTO.articleUuid : ArtAdsDTO → String
  | .bus ads => ads.articleUuid
  | .room ads => ads.articleUuid

variable (sha1 : Sha1)

def deleteArtRoomAds (db : Database) (ads : ArtRoomAds) : Except Exception Database :=
  (commonDelete sha1 db ads.articleUuid none).map fun db => db.deleteRoomAds ads.articleUuid

def deleteAddress (db : Database) (artUuid : String) : Database :=
  match db.addrRepo.find artUuid with
  | none => db
  | some adr => { db with addrRepo := db.addrRepo.delete adr.articleUuid }

def deleteArtAdsDTO (db : Database) (adsDTO : ArtAdsDTO) : Except Exception Database :=
  match adsDTO with
  | .bus ads => deleteArtAds sha1 db ads
  | .room ads =>
      (deleteArtRoomAds sha1 db ads).map fun db => deleteAddress db adsDTO.articleUuid

def deleteArtAdsList (db : Database) : List ArtAdsDTO → Except Exception Database
  | [] => .ok db
  | ads :: adsList =>
      match deleteArtAdsDTO sha1 db ads with
      | .error error => .error error
      | .ok db => deleteArtAdsList db adsList

/-- The stored ads of an author for businesses. -/
def findByAuthorUuid (db : Database) (authorUuid : UserUuid) : List ArtAds :=
  db.artAdsRepo.findAll fun ads => decide (ads.authorUuid = authorUuid)

def deleteAnnonAds (db : Database) (authorUuid : UserUuid) : Except Exception Database :=
  deleteArtAdsList sha1 db ((findByAuthorUuid db authorUuid).map .bus)

inductive AdsRequest where
  | deleteArtAds (adsList : List ArtAdsDTO)
  | deleteAnnonAds (authorUuid : UserUuid)
deriving DecidableEq

def adsOperation (db : Database) : AdsRequest → Except Exception Database
  | .deleteArtAds adsList => deleteArtAdsList sha1 db adsList
  | .deleteAnnonAds authorUuid => deleteAnnonAds sha1 db authorUuid

def adsService : Service Database AdsRequest (Except Exception Unit) :=
  Service.transactional fun db request => (adsOperation sha1 db request).map fun db => (db, ())

/-! ## What is asked of a deletion -/

/-- The articles that a request is about. -/
def AdsRequest.uuids (db : Database) : AdsRequest → List String
  | .deleteArtAds adsList => adsList.map ArtAdsDTO.articleUuid
  | .deleteAnnonAds authorUuid =>
      (findByAuthorUuid db authorUuid).map ArtAds.articleUuid ++
        (db.adRoomRepo.findAll fun ads => decide (ads.authorUuid = authorUuid)).map
          ArtRoomAds.articleUuid

/-- Nothing of ads is left. -/
structure AdsGone (uuids : List String) (before after : Database) : Prop
    extends Cleared uuids before after where
  ads : ∀ uuid ∈ uuids, after.artAdsRepo.find uuid = none
  room : ∀ uuid ∈ uuids, after.adRoomRepo.find uuid = none
  address : ∀ uuid ∈ uuids, after.addrRepo.find uuid = none

/-- The ads of a request are gone, and no other article changed. -/
def AdsRight (request : AdsRequest) (before after : Database) : Prop :=
  AdsGone (request.uuids before) before after ∧ Elsewhere (request.uuids before) before after

/-! ## One ad after the other -/

def busUuids (adsList : List ArtAdsDTO) : List String :=
  adsList.filterMap fun
    | .bus ads => some ads.articleUuid
    | .room _ => none

def roomUuids (adsList : List ArtAdsDTO) : List String :=
  adsList.filterMap fun
    | .bus _ => none
    | .room ads => some ads.articleUuid

/-- The tags that ads are taken from: the category of a business, none for a room. -/
def cleanups (adsList : List ArtAdsDTO) : Cleanups :=
  adsList.map fun
    | .bus ads => (ads.articleUuid, ads.busCat)
    | .room ads => (ads.articleUuid, none)

private theorem uuids_cleanups (adsList : List ArtAdsDTO) :
    (cleanups adsList).uuids = adsList.map ArtAdsDTO.articleUuid := by
  rw [cleanups, Cleanups.uuids, List.map_map]
  congr 1
  funext ads
  cases ads with
  | bus ads => rfl
  | room ads => rfl

/-- What the deletion of ads does to the tables. -/
structure Deletes (adsList : List ArtAdsDTO) (before after : Database) : Prop where
  cleans : Cleans sha1 (cleanups adsList) before after
  ads : ∀ uuid, after.artAdsRepo.find uuid =
    if uuid ∈ busUuids adsList then none else before.artAdsRepo.find uuid
  room : ∀ uuid, after.adRoomRepo.find uuid =
    if uuid ∈ roomUuids adsList then none else before.adRoomRepo.find uuid
  address : ∀ uuid, after.addrRepo.find uuid =
    if uuid ∈ roomUuids adsList then none else before.addrRepo.find uuid
  elsewhere : ∀ uuids, (∀ ads ∈ adsList, ads.articleUuid ∈ uuids) → Elsewhere uuids before after

variable {sha1} {db : Database}

theorem Elsewhere.deleteRoomAds {uuids : List String} {artUuid : String} (inside : artUuid ∈ uuids)
    (db : Database) : Elsewhere uuids db (db.deleteRoomAds artUuid) :=
  { refl uuids db with
    room := find_delete inside
    base := find_delete inside }

private theorem deleteAddress_eq (db : Database) (artUuid : String) :
    deleteAddress db artUuid = { db with addrRepo := db.addrRepo.delete artUuid } := by
  unfold deleteAddress
  cases found : db.addrRepo.find artUuid with
  | none =>
      simp only
      rw [Repository.delete_eq_self found]
  | some adr =>
      simp only
      rw [show adr.articleUuid = artUuid from Repository.key_of_find found]

theorem Elsewhere.deleteAddress {uuids : List String} {artUuid : String} (inside : artUuid ∈ uuids)
    (db : Database) : Elsewhere uuids db (deleteAddress db artUuid) := by
  rw [deleteAddress_eq]
  exact { refl uuids db with address := find_delete inside }

theorem Deletes.refl (db : Database) : Deletes sha1 [] db db where
  cleans := Cleans.refl db
  ads := fun _ => rfl
  room := fun _ => rfl
  address := fun _ => rfl
  elsewhere := fun uuids _ => Elsewhere.refl uuids db

private theorem Deletes.ofBus (db : Database) (ads : ArtAds) :
    Deletes sha1 [.bus ads] db
      ((cleaned sha1 db ads.articleUuid ads.busCat).deleteAds ads.articleUuid) where
  cleans := (Cleans.cleaned db ads.articleUuid ads.busCat).congr rfl rfl rfl
  ads := by
    intro uuid
    simp only [busUuids, List.filterMap_cons, List.filterMap_nil, List.mem_singleton]
    exact Repository.find_delete _ ads.articleUuid uuid
  room := fun _ => rfl
  address := fun _ => rfl
  elsewhere := by
    intro uuids inside
    have own := inside _ (List.mem_singleton.mpr rfl)
    exact (Elsewhere.cleaned own db ads.busCat).trans (Elsewhere.deleteAds own _)

private theorem Deletes.ofRoom (db : Database) (ads : ArtRoomAds) :
    Deletes sha1 [.room ads] db
      (deleteAddress ((cleaned sha1 db ads.articleUuid none).deleteRoomAds ads.articleUuid)
        ads.articleUuid) where
  cleans := by
    rw [deleteAddress_eq]
    exact (Cleans.cleaned db ads.articleUuid none).congr rfl rfl rfl
  ads := by
    rw [deleteAddress_eq]
    exact fun _ => rfl
  room := by
    intro uuid
    rw [deleteAddress_eq]
    simp only [roomUuids, List.filterMap_cons, List.filterMap_nil, List.mem_singleton]
    exact Repository.find_delete _ ads.articleUuid uuid
  address := by
    intro uuid
    rw [deleteAddress_eq]
    simp only [roomUuids, List.filterMap_cons, List.filterMap_nil, List.mem_singleton]
    exact Repository.find_delete _ ads.articleUuid uuid
  elsewhere := by
    intro uuids inside
    have own := inside _ (List.mem_singleton.mpr rfl)
    exact ((Elsewhere.cleaned own db none).trans (Elsewhere.deleteRoomAds own _)).trans
      (Elsewhere.deleteAddress own _)

private theorem cleanups_append (first second : List ArtAdsDTO) :
    cleanups (first ++ second) = cleanups first ++ cleanups second :=
  List.map_append

@[simp] theorem mem_busUuids_append {uuid : String} {first second : List ArtAdsDTO} :
    uuid ∈ busUuids (first ++ second) ↔ uuid ∈ busUuids first ∨ uuid ∈ busUuids second := by
  rw [busUuids, List.filterMap_append, List.mem_append]
  rfl

@[simp] theorem mem_roomUuids_append {uuid : String} {first second : List ArtAdsDTO} :
    uuid ∈ roomUuids (first ++ second) ↔ uuid ∈ roomUuids first ∨ uuid ∈ roomUuids second := by
  rw [roomUuids, List.filterMap_append, List.mem_append]
  rfl

/-- Two deletions of rows, one after the other. -/
theorem ite_ite_none {Row : Type} {later earlier : Prop} [Decidable later] [Decidable earlier]
    (found : Option Row) :
    (if later then none else if earlier then none else found) =
      if earlier ∨ later then none else found := by
  by_cases now : later
  · rw [if_pos now, if_pos (Or.inr now)]
  · simp only [now, or_false, if_false]

theorem Deletes.trans {first second : List ArtAdsDTO} {before between after : Database}
    (left : Deletes sha1 first before between) (right : Deletes sha1 second between after) :
    Deletes sha1 (first ++ second) before after where
  cleans := by
    rw [cleanups_append]
    exact left.cleans.trans right.cleans
  ads := by
    intro uuid
    rw [right.ads, left.ads, ite_ite_none]
    simp only [mem_busUuids_append]
  room := by
    intro uuid
    rw [right.room, left.room, ite_ite_none]
    simp only [mem_roomUuids_append]
  address := by
    intro uuid
    rw [right.address, left.address, ite_ite_none]
    simp only [mem_roomUuids_append]
  elsewhere := by
    intro uuids inside
    have earlier := left.elsewhere uuids fun ads here => inside ads (List.mem_append_left _ here)
    have later := right.elsewhere uuids fun ads here => inside ads (List.mem_append_right _ here)
    exact earlier.trans later

/-- Cleanups delete no tags. -/
theorem Cleans.accepted_iff {list : Cleanups} {before after : Database}
    (cleans : Cleans sha1 list before after) (tag : Option Octets) :
    Accepted sha1 after tag ↔ Accepted sha1 before tag := by
  unfold Accepted
  simp only [cleans.tag, ne_eq, Option.map_eq_none_iff]

/-! ## A list of ads -/

variable (sha1 db) in
/-- Every tag that ads are taken from is stored, or there is none. -/
def AllAccepted (adsList : List ArtAdsDTO) : Prop :=
  ∀ cleanup ∈ cleanups adsList, Accepted sha1 db cleanup.2

private theorem deleteArtAdsDTO_accepted {ads : ArtAdsDTO} (accepted : AllAccepted sha1 db [ads]) :
    ∃ after, deleteArtAdsDTO sha1 db ads = .ok after ∧ Deletes sha1 [ads] db after := by
  have own := accepted _ (List.mem_singleton.mpr rfl)
  cases ads with
  | bus ads =>
      refine ⟨_, ?_, Deletes.ofBus db ads⟩
      rw [deleteArtAdsDTO, deleteArtAds, commonDelete_accepted own]
      rfl
  | room ads =>
      refine ⟨_, ?_, Deletes.ofRoom db ads⟩
      rw [deleteArtAdsDTO, deleteArtRoomAds, commonDelete_accepted own]
      rfl

private theorem deleteArtAdsDTO_refused {ads : ArtAdsDTO} (refused : ¬ AllAccepted sha1 db [ads]) :
    deleteArtAdsDTO sha1 db ads = .error .illegalArgument := by
  cases ads with
  | bus ads =>
      have own : ¬ Accepted sha1 db ads.busCat := by
        intro accepted
        apply refused
        intro cleanup here
        rw [List.mem_singleton.mp here]
        exact accepted
      rw [deleteArtAdsDTO, deleteArtAds, commonDelete_refused own]
      rfl
  | room ads =>
      apply absurd _ refused
      intro cleanup here
      rw [List.mem_singleton.mp here]
      exact nofun

private theorem allAccepted_cons {ads : ArtAdsDTO} {adsList : List ArtAdsDTO} :
    AllAccepted sha1 db (ads :: adsList) ↔
      AllAccepted sha1 db [ads] ∧ AllAccepted sha1 db adsList := by
  unfold AllAccepted
  rw [← List.singleton_append, cleanups_append]
  exact List.forall_mem_append

variable (sha1) in
/-- **A list of ads.** All tags are accepted and every ad is deleted, or one tag is refused and the
request fails. -/
theorem deleteArtAdsList_spec (adsList : List ArtAdsDTO) : ∀ db : Database,
    (AllAccepted sha1 db adsList →
      ∃ after, deleteArtAdsList sha1 db adsList = .ok after ∧ Deletes sha1 adsList db after) ∧
    (¬ AllAccepted sha1 db adsList → deleteArtAdsList sha1 db adsList = .error .illegalArgument) := by
  induction adsList with
  | nil => exact fun db => ⟨fun _ => ⟨db, rfl, Deletes.refl db⟩, absurd nofun⟩
  | cons ads rest ih =>
      intro db
      by_cases first : AllAccepted sha1 db [ads]
      · obtain ⟨between, done, deletes⟩ := deleteArtAdsDTO_accepted first
        obtain ⟨accepted, refused⟩ := ih between
        have still : AllAccepted sha1 between rest ↔ AllAccepted sha1 db rest := by
          unfold AllAccepted
          simp only [deletes.cleans.accepted_iff]
        rw [allAccepted_cons, deleteArtAdsList, done, and_iff_right first, ← still]
        refine ⟨?_, refused⟩
        intro all
        obtain ⟨after, ran, later⟩ := accepted all
        exact ⟨after, ran, deletes.trans later⟩
      · rw [allAccepted_cons, deleteArtAdsList, deleteArtAdsDTO_refused first]
        exact ⟨fun all => absurd all.1 first, fun _ => rfl⟩

variable (sha1 db) in
/-- All there is of the ads on a list is deleted. Where a tag is refused, there is nothing; else
the cleanups are enough, an ad has a record of the other kind only where that is on the list too,
and only what is on the list as a room has an address. -/
def WholeAds (adsList : List ArtAdsDTO) : Prop :=
  (AllAccepted sha1 db adsList → Covered sha1 (cleanups adsList) db ∧
    ∀ uuid ∈ adsList.map ArtAdsDTO.articleUuid,
      (uuid ∉ busUuids adsList → db.artAdsRepo.find uuid = none) ∧
      (uuid ∉ roomUuids adsList →
        db.adRoomRepo.find uuid = none ∧ db.addrRepo.find uuid = none)) ∧
  (¬ AllAccepted sha1 db adsList → AdsGone (adsList.map ArtAdsDTO.articleUuid) db db)

variable (sha1 db) in
/-- All that has to go can be deleted. -/
def WholeRequest : AdsRequest → Prop
  | .deleteArtAds adsList => WholeAds sha1 db adsList
  | .deleteAnnonAds authorUuid =>
      (∀ ads ∈ db.adRoomRepo.rows, ads.authorUuid ≠ authorUuid) ∧
        WholeAds sha1 db ((findByAuthorUuid db authorUuid).map .bus)

variable (sha1) in
/-- The database behind the deletion of a list. -/
def afterList (db : Database) (adsList : List ArtAdsDTO) : Database :=
  match deleteArtAdsList sha1 db adsList with
  | .ok after => after
  | .error _ => db

private theorem Deletes.adsGone_iff {adsList : List ArtAdsDTO} {after : Database}
    (deletes : Deletes sha1 adsList db after) :
    AdsGone (adsList.map ArtAdsDTO.articleUuid) db after ↔
      Covered sha1 (cleanups adsList) db ∧
        ∀ uuid ∈ adsList.map ArtAdsDTO.articleUuid,
          (uuid ∉ busUuids adsList → db.artAdsRepo.find uuid = none) ∧
          (uuid ∉ roomUuids adsList →
            db.adRoomRepo.find uuid = none ∧ db.addrRepo.find uuid = none) := by
  have exactly := deletes.cleans.cleared_iff
  rw [uuids_cleanups] at exactly
  constructor
  · intro gone
    refine ⟨exactly.mp gone.toCleared, ?_⟩
    intro uuid inside
    refine ⟨?_, ?_⟩
    · intro noBus
      have none := gone.ads uuid inside
      rwa [deletes.ads, if_neg noBus] at none
    · intro noRoom
      have noRecord := gone.room uuid inside
      have noAddress := gone.address uuid inside
      rw [deletes.room, if_neg noRoom] at noRecord
      rw [deletes.address, if_neg noRoom] at noAddress
      exact ⟨noRecord, noAddress⟩
  · rintro ⟨covered, others⟩
    refine ⟨exactly.mpr covered, ?_, ?_, ?_⟩
    · intro uuid inside
      rw [deletes.ads, ite_eq_left_iff]
      exact (others uuid inside).1
    · intro uuid inside
      rw [deletes.room, ite_eq_left_iff]
      exact fun noRoom => ((others uuid inside).2 noRoom).1
    · intro uuid inside
      rw [deletes.address, ite_eq_left_iff]
      exact fun noRoom => ((others uuid inside).2 noRoom).2

private theorem afterList_iff (adsList : List ArtAdsDTO) :
    (AdsGone (adsList.map ArtAdsDTO.articleUuid) db (afterList sha1 db adsList) ∧
        Elsewhere (adsList.map ArtAdsDTO.articleUuid) db (afterList sha1 db adsList)) ↔
      WholeAds sha1 db adsList := by
  obtain ⟨accepted, refused⟩ := deleteArtAdsList_spec sha1 adsList db
  by_cases all : AllAccepted sha1 db adsList
  · obtain ⟨after, done, deletes⟩ := accepted all
    have elsewhere := deletes.elsewhere _ fun ads inside => List.mem_map_of_mem inside
    simp only [afterList, done]
    rw [and_iff_left elsewhere, deletes.adsGone_iff]
    constructor
    · exact fun whole => ⟨fun _ => whole, absurd all⟩
    · exact fun whole => whole.1 all
  · simp only [afterList, refused all]
    rw [and_iff_left (Elsewhere.refl _ db)]
    constructor
    · exact fun gone => ⟨(absurd · all), fun _ => gone⟩
    · exact fun whole => whole.2 all

private theorem serve_deleteArtAds (db : Database) (adsList : List ArtAdsDTO) :
    ((adsService sha1).serve db (.deleteArtAds adsList)).1 = afterList sha1 db adsList := by
  simp only [adsService, Service.transactional, adsOperation, afterList]
  cases deleteArtAdsList sha1 db adsList with
  | error error => rfl
  | ok after => rfl

private theorem roomUuids_bus (ads : List ArtAds) : roomUuids (ads.map .bus) = [] := by
  rw [roomUuids, List.filterMap_map]
  exact List.filterMap_eq_nil_iff.mpr fun _ _ => rfl

/-- A list of ads for businesses leaves the rooms alone. -/
theorem adRoomRepo_afterList (db : Database) (ads : List ArtAds) (uuid : String) :
    (afterList sha1 db (ads.map .bus)).adRoomRepo.find uuid = db.adRoomRepo.find uuid := by
  obtain ⟨accepted, refused⟩ := deleteArtAdsList_spec sha1 (ads.map .bus) db
  by_cases all : AllAccepted sha1 db (ads.map .bus)
  · obtain ⟨after, done, deletes⟩ := accepted all
    simp only [afterList, done]
    rw [deletes.room, roomUuids_bus, if_neg List.not_mem_nil]
  · simp only [afterList, refused all]

/-- **The ads of a request are gone, and no other article changed, exactly when all there is of
them is what their kinds are deleted with.** -/
theorem adsRight_iff_whole (sha1 : Sha1) (db : Database) (request : AdsRequest) :
    AdsRight request db ((adsService sha1).serve db request).1 ↔ WholeRequest sha1 db request := by
  cases request with
  | deleteArtAds adsList =>
      rw [serve_deleteArtAds]
      exact afterList_iff adsList
  | deleteAnnonAds authorUuid =>
      have same : ((adsService sha1).serve db (.deleteAnnonAds authorUuid)).1 =
          afterList sha1 db ((findByAuthorUuid db authorUuid).map .bus) :=
        serve_deleteArtAds db _
      rw [same]
      by_cases none : ∀ ads ∈ db.adRoomRepo.rows, ads.authorUuid ≠ authorUuid
      · have noRooms : (db.adRoomRepo.findAll fun ads =>
            decide (ads.authorUuid = authorUuid)) = [] := by
          apply List.filter_eq_nil_iff.mpr
          intro ads inside
          simpa using none ads inside
        have uuids : AdsRequest.uuids db (.deleteAnnonAds authorUuid) =
            ((findByAuthorUuid db authorUuid).map ArtAdsDTO.bus).map ArtAdsDTO.articleUuid := by
          rw [AdsRequest.uuids, noRooms, List.map_nil, List.append_nil, List.map_map]
          rfl
        rw [AdsRight, uuids, afterList_iff, WholeRequest, and_iff_right none]
      · apply iff_of_false
        · rintro ⟨gone, -⟩
          apply none
          intro ads inside own
          have left := gone.room ads.articleUuid (by
            apply List.mem_append_right
            exact List.mem_map_of_mem (Repository.mem_findAll.mpr ⟨inside, decide_eq_true own⟩))
          rw [adRoomRepo_afterList] at left
          exact Option.some_ne_none ads ((Repository.find_of_mem inside).symm.trans left)
        · exact fun whole => none whole.1

/-- An ad for a business, with its address. -/
def bakery : ArtAds where
  articleUuid := "bakery"
  authorUuid := publicUuid
  busName := none
  busCat := none
  busDesc := none

def town : Database :=
  { Database.empty with
    artAdsRepo := Repository.empty.save bakery
    artBaseRepo := Repository.empty.save
      { articleUuid := "bakery", authorId := none, permMask := 0, artTitle := none
        publicTag := none, artTag := some "ads", contentOid := none, contentLinkUrl := none }
    addrRepo := Repository.empty.save ⟨"bakery", none⟩ }

/-- The address of a business stays behind. -/
theorem bakery_keeps_address :
    ¬ AdsRight (.deleteArtAds [.bus bakery]) town
      ((adsService plainSha1).serve town (.deleteArtAds [.bus bakery])).1 := by
  rintro ⟨gone, -⟩
  exact absurd (gone.address "bakery" (by decide +kernel)) (by decide +kernel)

end Tvntd.ArticleSvc
