import Tvntd.Java.Profile
import Tvntd.Java.Text
import Tvntd.Lib.Repository
import Tvntd.Lib.Service
import Mathlib.Data.Set.Insert

/-! # Tags and the articles ranked under them

A tag is stored under a hash of its name and its user. The tags of the public
user rank articles: an article enters the list of a tag, and leaves it when it
is deleted.
-/

namespace Tvntd

/-- A hash of bytes that no two inputs share. -/
structure Sha1 where
  digest : Octets → String
  injective : ∀ {first second}, digest first = digest second → first = second

def toSha1Key (sha1 : Sha1) (key : Octets) (uuid : UserUuid) : String :=
  sha1.digest (key ++ uuid.bytes)

structure ArtTag where
  tagOid : String
  userUuid : UserUuid
  tagName : Octets
  rankScore : Option Int
  tagArtRanks : Option (List String)
  parentTag : Option Octets
  tagKind : Option String
  imgOid : Option String
  routeLink : Option String
deriving DecidableEq

instance : Entity ArtTag String := ⟨ArtTag.tagOid⟩

structure AuthorTag where
  tagOid : String
  authorUuid : UserUuid
  tagName : Octets
  headNotif : Option String
  favorite : Bool
  published : Bool
  rank : Option Int
  notifCount : Int
  headChain : Option String
deriving DecidableEq

instance : Entity AuthorTag String := ⟨AuthorTag.tagOid⟩

namespace ArtTag

open Profile (removeFrom addUnique)

def addArtRank (tag : ArtTag) (rankKey : String) : ArtTag :=
  { tag with tagArtRanks := some (addUnique (tag.tagArtRanks.getD []) rankKey) }

/-- A key that is null equals none of the list. -/
def removeArtRank (tag : ArtTag) (rankKey : Option String) : ArtTag :=
  match rankKey with
  | none => tag
  | some rankKey =>
      { tag with tagArtRanks := tag.tagArtRanks.map fun ranks => (removeFrom ranks rankKey).2 }

def ranks (tag : ArtTag) : List String := tag.tagArtRanks.getD []

@[simp] theorem removeArtRank_tagOid (tag : ArtTag) (rankKey : Option String) :
    (tag.removeArtRank rankKey).tagOid = tag.tagOid := by
  cases rankKey with
  | none => rfl
  | some rankKey => rfl

private theorem ranks_addArtRank (tag : ArtTag) (rankKey : String) :
    (tag.addArtRank rankKey).ranks = addUnique tag.ranks rankKey := rfl

theorem ranks_removeArtRank (tag : ArtTag) (rankKey : String) :
    (tag.removeArtRank (some rankKey)).ranks = (removeFrom tag.ranks rankKey).2 := by
  unfold removeArtRank ranks
  cases tag.tagArtRanks with
  | none => rfl
  | some ranks => rfl

end ArtTag

/-- A tag with its sub tags. The tag is null where a lookup found none. -/
inductive ArtTagDTO where
  | mk (artTag : Option ArtTag) (subTags : List ArtTagDTO)

namespace ArtTagDTO

def addArtRank : ArtTagDTO → String → ArtTagDTO
  | .mk artTag subTags, rankKey => .mk (artTag.map fun tag => tag.addArtRank rankKey) subTags

def removeArtRank : ArtTagDTO → Option String → ArtTagDTO
  | .mk artTag subTags, artKey => .mk (artTag.map fun tag => tag.removeArtRank artKey) subTags

end ArtTagDTO

namespace ArtTagService

/-! ## The operations -/

mutual

/-- Saves a tag and all tags below it. -/
def saveTag (artTagRepo : Repository ArtTag) :
    ArtTagDTO → Except Exception (Repository ArtTag)
  | .mk none _ => .error .illegalArgument
  | .mk (some tag) sub => saveTags (artTagRepo.save tag) sub

def saveTags (artTagRepo : Repository ArtTag) :
    List ArtTagDTO → Except Exception (Repository ArtTag)
  | [] => .ok artTagRepo
  | tag :: rest =>
      match saveTag artTagRepo tag with
      | .error error => .error error
      | .ok artTagRepo => saveTags artTagRepo rest

end

variable (sha1 : Sha1)

/-- What a lookup gives: the test behind it is on the name, not on the record. -/
def getTag (artTagRepo : Repository ArtTag) (tag : Octets) (uuid : UserUuid) : Option ArtTagDTO :=
  some (.mk (artTagRepo.find (toSha1Key sha1 tag uuid)) [])

def addPublicTagPost (artTagRepo : Repository ArtTag) (pubTag : Option Text)
    (uuid : Option String) : Except Exception (Repository ArtTag × Option ArtTagDTO) :=
  match pubTag, uuid with
  | some pubTag, some uuid =>
      match getTag sha1 artTagRepo (Text.getBytes pubTag) publicUuid with
      | some pub =>
          let pub := pub.addArtRank uuid
          (saveTag artTagRepo pub).map fun artTagRepo => (artTagRepo, some pub)
      | none => .ok (artTagRepo, none)
  | _, _ => .ok (artTagRepo, none)

/-- By the bytes of the tag. -/
def deletePublicTagPost (artTagRepo : Repository ArtTag) (pubTag : Option Octets)
    (uuid : Option String) : Except Exception (Repository ArtTag × Bool) :=
  match pubTag with
  | none => .ok (artTagRepo, false)
  | some pubTag =>
      match getTag sha1 artTagRepo pubTag publicUuid with
      | some pub =>
          let pub := pub.removeArtRank uuid
          (saveTag artTagRepo pub).map fun artTagRepo => (artTagRepo, true)
      | none => .ok (artTagRepo, false)

/-- By the name of the tag. -/
def deletePublicTagPostByName (artTagRepo : Repository ArtTag) (pubTag : Option Text)
    (uuid : Option String) : Except Exception (Repository ArtTag × Bool) :=
  deletePublicTagPost sha1 artTagRepo (pubTag.map Text.getBytes) uuid

structure TagTables where
  artTagRepo : Repository ArtTag
  authorTagRepo : Repository AuthorTag

/-- Deletes the tag of a user and the tag of an author under the same key. -/
def deleteTag (tables : TagTables) (tag : Text) (uuid : UserUuid) : TagTables × Bool :=
  let key := toSha1Key sha1 (Text.getBytes tag) uuid
  (⟨tables.artTagRepo.delete key, tables.authorTagRepo.delete key⟩,
    (tables.artTagRepo.find key).isSome || (tables.authorTagRepo.find key).isSome)

mutual

/-- Every tag of a tree is there and has the key of its name and user. -/
def Keyed : ArtTagDTO → Prop
  | .mk none _ => False
  | .mk (some tag) sub => tag.tagOid = toSha1Key sha1 tag.tagName tag.userUuid ∧ AllKeyed sub

def AllKeyed : List ArtTagDTO → Prop
  | [] => True
  | tag :: rest => Keyed tag ∧ AllKeyed rest

end

/-- The calls of the service. -/
inductive Request where
  | saveTag (tree : { tree : ArtTagDTO // Keyed sha1 tree })
  | addPublicTagPost (pubTag : Option Text) (uuid : Option String)
  | deletePublicTagPost (pubTag : Option Octets) (uuid : Option String)
  | deletePublicTagPostByName (pubTag : Option Text) (uuid : Option String)
  | deleteTag (tag : Text) (uuid : UserUuid)

inductive Result where
  | saved
  | added (tag : Option ArtTagDTO)
  | removed (done : Bool)

def operation (tables : TagTables) : Request sha1 → Except Exception (TagTables × Result)
  | .saveTag tree =>
      (saveTag tables.artTagRepo tree.val).map fun artTagRepo =>
        ({ tables with artTagRepo := artTagRepo }, .saved)
  | .addPublicTagPost pubTag uuid =>
      (addPublicTagPost sha1 tables.artTagRepo pubTag uuid).map fun done =>
        ({ tables with artTagRepo := done.1 }, .added done.2)
  | .deletePublicTagPost pubTag uuid =>
      (deletePublicTagPost sha1 tables.artTagRepo pubTag uuid).map fun done =>
        ({ tables with artTagRepo := done.1 }, .removed done.2)
  | .deletePublicTagPostByName pubTag uuid =>
      (deletePublicTagPostByName sha1 tables.artTagRepo pubTag uuid).map fun done =>
        ({ tables with artTagRepo := done.1 }, .removed done.2)
  | .deleteTag tag uuid =>
      let done := deleteTag sha1 tables tag uuid
      .ok (done.1, .removed done.2)

def service : Service TagTables (Request sha1) (Except Exception Result) :=
  Service.transactional (operation sha1)

/-! ## A saved tree -/

mutual

/-- The tags of a tree in the order in which they are saved. -/
def flat : ArtTagDTO → List ArtTag
  | .mk tag sub => tag.toList ++ flats sub

def flats : List ArtTagDTO → List ArtTag
  | [] => []
  | tag :: rest => flat tag ++ flats rest

end

variable {sha1}

mutual

theorem saveTag_eq (artTagRepo : Repository ArtTag) : ∀ {tree : ArtTagDTO}, Keyed sha1 tree →
    saveTag artTagRepo tree = .ok ((flat tree).foldl Repository.save artTagRepo)
  | .mk none _, keyed => keyed.elim
  | .mk (some tag) sub, keyed => by
      rw [saveTag, saveTags_eq _ keyed.2]
      rfl

private theorem saveTags_eq (artTagRepo : Repository ArtTag) : ∀ {trees : List ArtTagDTO},
    AllKeyed sha1 trees →
      saveTags artTagRepo trees = .ok ((flats trees).foldl Repository.save artTagRepo)
  | [], _ => rfl
  | tree :: rest, keyed => by
      rw [saveTags, saveTag_eq artTagRepo keyed.1, flats, List.foldl_append]
      exact saveTags_eq _ keyed.2

end

mutual

private theorem tagOid_of_mem_flat : ∀ {tree : ArtTagDTO}, Keyed sha1 tree → ∀ tag ∈ flat tree,
    tag.tagOid = toSha1Key sha1 tag.tagName tag.userUuid
  | .mk none _, keyed => keyed.elim
  | .mk (some first) sub, keyed => by
      intro tag inside
      rw [flat, Option.toList_some, List.singleton_append] at inside
      rcases List.mem_cons.mp inside with rfl | below
      · exact keyed.1
      · exact tagOid_of_mem_flats keyed.2 tag below

private theorem tagOid_of_mem_flats : ∀ {trees : List ArtTagDTO}, AllKeyed sha1 trees →
    ∀ tag ∈ flats trees, tag.tagOid = toSha1Key sha1 tag.tagName tag.userUuid
  | [], _ => fun _ inside => absurd inside List.not_mem_nil
  | tree :: rest, keyed => by
      intro tag inside
      rcases List.mem_append.mp inside with here | later
      · exact tagOid_of_mem_flat keyed.1 tag here
      · exact tagOid_of_mem_flats keyed.2 tag later

end

/-- Users have uuids of one length, so that a key is of one name and one user. -/
theorem toSha1Key_inj {name other : Octets} {user owner : UserUuid} :
    toSha1Key sha1 name user = toSha1Key sha1 other owner ↔ name = other ∧ user = owner := by
  constructor
  · intro same
    have joined := sha1.injective same
    have lengths := user.length_eq.trans owner.length_eq.symm
    obtain ⟨names, users⟩ := List.append_inj' joined lengths
    exact ⟨names, UserUuid.ext users⟩
  · rintro ⟨rfl, rfl⟩
    rfl

/-! ## The articles that a history ranks -/

/-- The articles under each name. -/
abbrev Ledger := Octets → Option (Set String)

/-- The tag that a tree leaves under a public name. -/
def savedTag (tree : ArtTagDTO) (name : Octets) : Option ArtTag :=
  ((flat tree).filter fun tag => decide (tag.tagName = name ∧ tag.userUuid = publicUuid)).getLast?

def ranked (tag : ArtTag) : Set String := { uuid | uuid ∈ tag.ranks }

/-- A change of the articles under one name. -/
def atName (ledger : Ledger) (name : Option Octets) (change : Set String → Set String) : Ledger :=
  fun other => if name = some other then (ledger other).map change else ledger other

def record (ledger : Ledger) : Request sha1 → Ledger
  | .saveTag tree => fun name => ((savedTag tree.val name).map ranked).or (ledger name)
  | .addPublicTagPost pubTag (some uuid) => atName ledger (pubTag.map Text.getBytes) (insert uuid)
  | .addPublicTagPost _ none => ledger
  | .deletePublicTagPost pubTag uuid =>
      atName ledger pubTag fun ranks => ranks \ { item | some item = uuid }
  | .deletePublicTagPostByName pubTag uuid =>
      atName ledger (pubTag.map Text.getBytes) fun ranks => ranks \ { item | some item = uuid }
  | .deleteTag tag uuid => fun name =>
      if uuid = publicUuid ∧ name = Text.getBytes tag then none else ledger name

abbrev Step (sha1 : Sha1) := Request sha1 × Except Exception Result

/-- The articles under each name behind a history that started with no tags. -/
def expected (history : List (Step sha1)) : Ledger :=
  history.foldl (fun ledger step => record ledger step.1) fun _ => none

private theorem expected_concat (history : List (Step sha1)) (step : Step sha1) :
    expected (history ++ [step]) = record (expected history) step.1 := by
  simp [expected, List.foldl_append]

/-- The stored tags rank the articles of a ledger, none of them twice. -/
structure Agrees (artTagRepo : Repository ArtTag) (ledger : Ledger) : Prop where
  ranks : ∀ name, (artTagRepo.find (toSha1Key sha1 name publicUuid)).map ranked = ledger name
  nodup : ∀ name tag, artTagRepo.find (toSha1Key sha1 name publicUuid) = some tag → tag.ranks.Nodup

/-! ## What is asked of a request -/

/-- The request names a tag that is not stored. -/
def Unstored (tables : TagTables) : Request sha1 → Prop
  | .saveTag _ => False
  | .addPublicTagPost pubTag _ => ∀ tag ∈ pubTag,
      tables.artTagRepo.find (toSha1Key sha1 (Text.getBytes tag) publicUuid) = none
  | .deletePublicTagPost pubTag _ => ∀ tag ∈ pubTag,
      tables.artTagRepo.find (toSha1Key sha1 tag publicUuid) = none
  | .deletePublicTagPostByName pubTag _ => ∀ tag ∈ pubTag,
      tables.artTagRepo.find (toSha1Key sha1 (Text.getBytes tag) publicUuid) = none
  | .deleteTag tag uuid =>
      tables.artTagRepo.find (toSha1Key sha1 (Text.getBytes tag) uuid) = none ∧
        tables.authorTagRepo.find (toSha1Key sha1 (Text.getBytes tag) uuid) = none

/-- The request names a tag. -/
def Names (name : Octets) (user : UserUuid) : Request sha1 → Prop
  | .saveTag tree => ∃ tag ∈ flat tree.val, tag.tagName = name ∧ tag.userUuid = user
  | .addPublicTagPost pubTag _ => pubTag.map Text.getBytes = some name ∧ user = publicUuid
  | .deletePublicTagPost pubTag _ => pubTag = some name ∧ user = publicUuid
  | .deletePublicTagPostByName pubTag _ => pubTag.map Text.getBytes = some name ∧ user = publicUuid
  | .deleteTag tag uuid => Text.getBytes tag = name ∧ uuid = user

/-- What is promised of a step. -/
structure Promised (before : TagTables) (request : Request sha1) (after : TagTables)
    (history : List (Step sha1)) (reply : Except Exception Result) : Prop where
  agrees : @Agrees sha1 after.artTagRepo (expected history)
  unstored : Unstored before request →
    after = before ∧ (reply = .ok (.added none) ∨ reply = .ok (.removed false))
  others : ∀ name user, ¬ Names name user request →
    after.artTagRepo.find (toSha1Key sha1 name user) =
        before.artTagRepo.find (toSha1Key sha1 name user) ∧
      after.authorTagRepo.find (toSha1Key sha1 name user) =
        before.authorTagRepo.find (toSha1Key sha1 name user)

/-- Posts are added to stored tags and deleted from them, and trees rank no article twice under one
name. -/
def Careful (tables : TagTables) : Request sha1 → Prop
  | .saveTag tree => ∀ name, ∀ tag ∈ savedTag tree.val name, tag.ranks.Nodup
  | .addPublicTagPost pubTag uuid => ∀ tag ∈ pubTag, uuid.isSome →
      tables.artTagRepo.find (toSha1Key sha1 (Text.getBytes tag) publicUuid) ≠ none
  | .deletePublicTagPost pubTag _ => ∀ tag ∈ pubTag,
      tables.artTagRepo.find (toSha1Key sha1 tag publicUuid) ≠ none
  | .deletePublicTagPostByName pubTag _ => ∀ tag ∈ pubTag,
      tables.artTagRepo.find (toSha1Key sha1 (Text.getBytes tag) publicUuid) ≠ none
  | .deleteTag _ _ => True

/-! ## Posts of a tag -/

variable {tables : TagTables} {history : List (Step sha1)}

private theorem addPublicTagPost_stored {pubTag : Text} {tag : ArtTag}
    (found : tables.artTagRepo.find (toSha1Key sha1 (Text.getBytes pubTag) publicUuid) = some tag)
    (uuid : String) :
    addPublicTagPost sha1 tables.artTagRepo (some pubTag) (some uuid) =
      .ok (tables.artTagRepo.save (tag.addArtRank uuid), some (.mk (some (tag.addArtRank uuid)) [])) := by
  simp only [addPublicTagPost, getTag, found, ArtTagDTO.addArtRank, Option.map_some, saveTag,
    saveTags, Except.map]

/-- The record that was not found is saved. -/
theorem addPublicTagPost_unstored {pubTag : Text}
    (absent : tables.artTagRepo.find (toSha1Key sha1 (Text.getBytes pubTag) publicUuid) = none)
    (uuid : String) :
    addPublicTagPost sha1 tables.artTagRepo (some pubTag) (some uuid) =
      .error .illegalArgument := by
  simp only [addPublicTagPost, getTag, absent, ArtTagDTO.addArtRank, Option.map_none, saveTag,
    Except.map]

theorem deletePublicTagPost_stored {pubTag : Octets} {tag : ArtTag}
    (found : tables.artTagRepo.find (toSha1Key sha1 pubTag publicUuid) = some tag)
    (uuid : Option String) :
    deletePublicTagPost sha1 tables.artTagRepo (some pubTag) uuid =
      .ok (tables.artTagRepo.save (tag.removeArtRank uuid), true) := by
  simp only [deletePublicTagPost, getTag, found, ArtTagDTO.removeArtRank, Option.map_some, saveTag,
    saveTags, Except.map]

theorem deletePublicTagPost_unstored {pubTag : Octets}
    (absent : tables.artTagRepo.find (toSha1Key sha1 pubTag publicUuid) = none)
    (uuid : Option String) :
    deletePublicTagPost sha1 tables.artTagRepo (some pubTag) uuid = .error .illegalArgument := by
  simp only [deletePublicTagPost, getTag, absent, ArtTagDTO.removeArtRank, Option.map_none, saveTag,
    Except.map]

/-- A stored tag is saved with other articles. -/
theorem Agrees.save {artTagRepo : Repository ArtTag} {ledger : Ledger}
    (agrees : @Agrees sha1 artTagRepo ledger) {name : Octets} {tag later : ArtTag}
    (found : artTagRepo.find (toSha1Key sha1 name publicUuid) = some tag)
    (same : later.tagOid = tag.tagOid) {change : Set String → Set String}
    (changed : ranked later = change (ranked tag)) (nodup : later.ranks.Nodup) :
    @Agrees sha1 (artTagRepo.save later) (atName ledger (some name) change) := by
  have key : tag.tagOid = toSha1Key sha1 name publicUuid := Repository.key_of_find found
  have finds : ∀ other, (artTagRepo.save later).find (toSha1Key sha1 other publicUuid) =
      if name = other then some later
      else artTagRepo.find (toSha1Key sha1 other publicUuid) := by
    intro other
    rw [Repository.find_save]
    change (if toSha1Key sha1 other publicUuid = later.tagOid then _ else _) = _
    rw [same, key]
    by_cases here : name = other
    · rw [if_pos here, if_pos (toSha1Key_inj.mpr ⟨here.symm, rfl⟩)]
    · rw [if_neg here, if_neg fun equal => here (toSha1Key_inj.mp equal).1.symm]
  constructor
  · intro other
    rw [finds, atName]
    by_cases here : name = other
    · subst here
      rw [if_pos rfl, if_pos rfl, ← agrees.ranks, found, Option.map_some, Option.map_some,
        Option.map_some, changed]
    · rw [if_neg here, if_neg fun there => here (Option.some.inj there)]
      exact agrees.ranks other
  · intro other there held
    rw [finds] at held
    split at held
    case isTrue =>
      cases held
      exact nodup
    case isFalse => exact agrees.nodup other there held

private theorem ranked_addArtRank (tag : ArtTag) (uuid : String) :
    ranked (tag.addArtRank uuid) = insert uuid (ranked tag) := by
  ext item
  change item ∈ (tag.addArtRank uuid).ranks ↔ item = uuid ∨ item ∈ tag.ranks
  rw [ArtTag.ranks_addArtRank, Profile.mem_addUnique]
  exact or_comm

private theorem removeArtRank_spec {tag : ArtTag} (nodup : tag.ranks.Nodup) (uuid : Option String) :
    (tag.removeArtRank uuid).ranks.Nodup ∧
      ranked (tag.removeArtRank uuid) = ranked tag \ { item | some item = uuid } := by
  cases uuid with
  | none =>
      refine ⟨nodup, ?_⟩
      ext item
      change item ∈ tag.ranks ↔ item ∈ tag.ranks ∧ ¬ some item = none
      simp
  | some uuid =>
      rw [ArtTag.ranks_removeArtRank]
      refine ⟨Profile.nodup_removeFrom nodup uuid, ?_⟩
      ext item
      change item ∈ (tag.removeArtRank (some uuid)).ranks ↔ item ∈ tag.ranks ∧
        ¬ some item = some uuid
      rw [ArtTag.ranks_removeArtRank, Profile.mem_removeFrom nodup, Option.some.injEq]

/-- A save under one key is not seen under the key of another tag. -/
theorem find_save_other {artTagRepo : Repository ArtTag} {tag : ArtTag} {name other : Octets}
    {user : UserUuid} (key : tag.tagOid = toSha1Key sha1 name publicUuid)
    (apart : ¬ (other = name ∧ user = publicUuid)) :
    (artTagRepo.save tag).find (toSha1Key sha1 other user) =
      artTagRepo.find (toSha1Key sha1 other user) := by
  apply Repository.find_save_of_ne
  intro same
  exact apart (toSha1Key_inj.mp (same.trans key))

/-! ## One request -/

/-- The state and the answer of a step that does not fail. -/
theorem recorded_ok {request : Request sha1} {next : TagTables} {result : Result}
    (done : operation sha1 tables request = .ok (next, result)) :
    (service sha1).recorded.serve (tables, history) request =
      ((next, history ++ [(request, .ok result)]), .ok result) := by
  simp only [Service.recorded, service, Service.transactional_ok done]

theorem recorded_error {request : Request sha1} {error : Exception}
    (failed : operation sha1 tables request = .error error) :
    (service sha1).recorded.serve (tables, history) request =
      ((tables, history ++ [(request, .error error)]), .error error) := by
  simp only [Service.recorded, service, Service.transactional_error failed]

/-- What a step of the recorded service is held to. -/
def Right (before : TagTables × List (Step sha1)) (request : Request sha1)
    (after : TagTables × List (Step sha1)) (reply : Except Exception Result) : Prop :=
  Promised before.1 request after.1 after.2 reply

/-- The recorded step is right. -/
def Sound (tables : TagTables) (history : List (Step sha1)) (request : Request sha1) : Prop :=
  Right (tables, history) request ((service sha1).recorded.serve (tables, history) request).1
    ((service sha1).recorded.serve (tables, history) request).2

/-- A request that finds nothing to do. -/
theorem sound_of_quiet (agrees : @Agrees sha1 tables.artTagRepo (expected history))
    {request : Request sha1} {result : Result}
    (done : operation sha1 tables request = .ok (tables, result))
    (null : result = .added none ∨ result = .removed false)
    (same : record (expected history) request = expected history) :
    Sound tables history request := by
  rw [Sound, recorded_ok done]
  refine ⟨?_, ?_, fun _ _ _ => ⟨rfl, rfl⟩⟩
  · rw [expected_concat, same]
    exact agrees
  · intro _
    refine ⟨rfl, ?_⟩
    rcases null with rfl | rfl
    · exact Or.inl rfl
    · exact Or.inr rfl

private theorem not_sound_of_error {request : Request sha1} {error : Exception}
    (failed : operation sha1 tables request = .error error)
    (unstored : Unstored tables request) : ¬ Sound tables history request := by
  intro sound
  rw [Sound, recorded_error failed] at sound
  obtain ⟨-, null | null⟩ := sound.unstored unstored
  · cases null
  · cases null

/-- A stored tag is saved with other articles, and answered for. -/
theorem sound_of_saved (agrees : @Agrees sha1 tables.artTagRepo (expected history))
    {request : Request sha1} {result : Result} {name : Octets} {tag later : ArtTag}
    (found : tables.artTagRepo.find (toSha1Key sha1 name publicUuid) = some tag)
    (done : operation sha1 tables request =
      .ok ({ tables with artTagRepo := tables.artTagRepo.save later }, result))
    (same : later.tagOid = tag.tagOid) (change : Set String → Set String)
    (changed : ranked later = change (ranked tag)) (nodup : later.ranks.Nodup)
    (ledger : record (expected history) request = atName (expected history) (some name) change)
    (stored : ¬ Unstored tables request) (named : Names name publicUuid request) :
    Sound tables history request := by
  have key : later.tagOid = toSha1Key sha1 name publicUuid :=
    same.trans (Repository.key_of_find found)
  rw [Sound, recorded_ok done]
  refine ⟨?_, fun absent => absurd absent stored, ?_⟩
  · rw [expected_concat, ledger]
    exact agrees.save found same changed nodup
  · intro other user unnamed
    refine ⟨find_save_other key ?_, rfl⟩
    rintro ⟨rfl, rfl⟩
    exact unnamed named

theorem sound_iff_addPublicTagPost (agrees : @Agrees sha1 tables.artTagRepo (expected history))
    (pubTag : Option Text) (uuid : Option String) :
    Sound tables history (.addPublicTagPost pubTag uuid) ↔
      Careful tables (.addPublicTagPost pubTag uuid : Request sha1) := by
  cases uuid with
  | none =>
      have done : operation sha1 tables (.addPublicTagPost pubTag none) =
          .ok (tables, .added none) := by
        cases pubTag with
        | none => rfl
        | some pubTag => rfl
      refine iff_of_true (sound_of_quiet agrees done (Or.inl rfl) rfl) ?_
      intro _ _ given
      cases given
  | some uuid => cases pubTag with
    | none => exact iff_of_true (sound_of_quiet agrees rfl (Or.inl rfl) rfl) nofun
    | some pubTag =>
        cases found : tables.artTagRepo.find
            (toSha1Key sha1 (Text.getBytes pubTag) publicUuid) with
        | none =>
            have failed : operation sha1 tables (.addPublicTagPost (some pubTag) (some uuid)) =
                .error .illegalArgument := by
              simp only [operation, addPublicTagPost_unstored found, Except.map]
            refine iff_of_false (not_sound_of_error failed ?_) ?_
            · rintro tag ⟨⟩
              exact found
            · intro careful
              exact careful pubTag rfl rfl found
        | some tag =>
            have done : operation sha1 tables (.addPublicTagPost (some pubTag) (some uuid)) =
                .ok ({ tables with artTagRepo := tables.artTagRepo.save (tag.addArtRank uuid) },
                  .added (some (.mk (some (tag.addArtRank uuid)) []))) := by
              simp only [operation, addPublicTagPost_stored found, Except.map]
            refine iff_of_true ?_ ?_
            · apply sound_of_saved agrees found done rfl (insert uuid)
                (ranked_addArtRank tag uuid) ?_ rfl ?_ ⟨rfl, rfl⟩
              · exact Profile.nodup_addUnique (agrees.nodup _ tag found) uuid
              · intro unstored
                have absent := unstored pubTag rfl
                rw [found] at absent
                cases absent
            · rintro other ⟨⟩ _ absent
              rw [found] at absent
              cases absent

theorem sound_iff_deletePublicTagPost (agrees : @Agrees sha1 tables.artTagRepo (expected history))
    (pubTag : Option Octets) (uuid : Option String) :
    Sound tables history (.deletePublicTagPost pubTag uuid) ↔
      Careful tables (.deletePublicTagPost pubTag uuid : Request sha1) := by
  cases pubTag with
  | none => exact iff_of_true (sound_of_quiet agrees rfl (Or.inr rfl) rfl) nofun
  | some pubTag =>
      cases found : tables.artTagRepo.find (toSha1Key sha1 pubTag publicUuid) with
      | none =>
          have failed : operation sha1 tables (.deletePublicTagPost (some pubTag) uuid) =
              .error .illegalArgument := by
            simp only [operation, deletePublicTagPost_unstored found, Except.map]
          refine iff_of_false (not_sound_of_error failed ?_) ?_
          · rintro tag ⟨⟩
            exact found
          · intro careful
            exact careful pubTag rfl found
      | some tag =>
          have done : operation sha1 tables (.deletePublicTagPost (some pubTag) uuid) =
              .ok ({ tables with artTagRepo := tables.artTagRepo.save (tag.removeArtRank uuid) },
                .removed true) := by
            simp only [operation, deletePublicTagPost_stored found, Except.map]
          obtain ⟨nodup, changed⟩ := removeArtRank_spec (agrees.nodup _ tag found) uuid
          refine iff_of_true ?_ ?_
          · apply sound_of_saved agrees found done (tag.removeArtRank_tagOid uuid)
              (fun ranks => ranks \ { item | some item = uuid }) changed nodup rfl ?_
                ⟨rfl, rfl⟩
            intro unstored
            have absent := unstored pubTag rfl
            rw [found] at absent
            cases absent
          · rintro other ⟨⟩ absent
            rw [found] at absent
            cases absent

/-- The two ways to name a tag are one. -/
theorem sound_byName (pubTag : Option Text) (uuid : Option String) :
    Sound tables history (.deletePublicTagPostByName pubTag uuid) ↔
      Sound tables history (.deletePublicTagPost (pubTag.map Text.getBytes) uuid) := by
  have same : operation sha1 tables (.deletePublicTagPostByName pubTag uuid) =
      operation sha1 tables (.deletePublicTagPost (pubTag.map Text.getBytes) uuid) := rfl
  have unstored : Unstored tables (.deletePublicTagPostByName pubTag uuid : Request sha1) ↔
      Unstored tables (.deletePublicTagPost (pubTag.map Text.getBytes) uuid : Request sha1) := by
    cases pubTag with
    | none => exact iff_of_true nofun nofun
    | some pubTag => simp [Unstored]
  have moved : ∀ (next : TagTables) (reply : Except Exception Result),
      Promised tables (.deletePublicTagPostByName pubTag uuid) next
          (history ++ [(.deletePublicTagPostByName pubTag uuid, reply)]) reply ↔
        Promised tables (.deletePublicTagPost (pubTag.map Text.getBytes) uuid) next
          (history ++ [(.deletePublicTagPost (pubTag.map Text.getBytes) uuid, reply)]) reply := by
    intro next reply
    constructor
    · intro promised
      refine ⟨?_, fun absent => promised.unstored (unstored.mpr absent), promised.others⟩
      have agrees := promised.agrees
      rw [expected_concat] at agrees ⊢
      exact agrees
    · intro promised
      refine ⟨?_, fun absent => promised.unstored (unstored.mp absent), promised.others⟩
      have agrees := promised.agrees
      rw [expected_concat] at agrees ⊢
      exact agrees
  cases ran : operation sha1 tables (.deletePublicTagPost (pubTag.map Text.getBytes) uuid) with
  | error error =>
      rw [Sound, Sound, recorded_error ran, recorded_error (same.trans ran)]
      exact moved _ _
  | ok done =>
      obtain ⟨next, result⟩ := done
      rw [Sound, Sound, recorded_ok ran, recorded_ok (same.trans ran)]
      exact moved _ _

theorem find_saved (artTagRepo : Repository ArtTag) (tree : { tree : ArtTagDTO // Keyed sha1 tree })
    (name : Octets) :
    ((flat tree.val).foldl Repository.save artTagRepo).find (toSha1Key sha1 name publicUuid) =
      (savedTag tree.val name).or (artTagRepo.find (toSha1Key sha1 name publicUuid)) := by
  rw [Repository.find_foldl_save, savedTag]
  congr 2
  apply List.filter_congr
  intro tag inside
  apply decide_eq_decide.mpr
  rw [show Entity.key tag = _ from tagOid_of_mem_flat tree.property tag inside]
  exact toSha1Key_inj

private theorem sound_iff_saveTag (agrees : @Agrees sha1 tables.artTagRepo (expected history))
    (tree : { tree : ArtTagDTO // Keyed sha1 tree }) :
    Sound tables history (.saveTag tree) ↔ Careful tables (.saveTag tree : Request sha1) := by
  have done : operation sha1 tables (.saveTag tree) =
      .ok ({ tables with
        artTagRepo := (flat tree.val).foldl Repository.save tables.artTagRepo }, .saved) := by
    simp only [operation, saveTag_eq _ tree.property, Except.map]
  rw [Sound, recorded_ok done]
  constructor
  · intro promised name tag saved
    apply promised.agrees.nodup name tag
    rw [find_saved, show savedTag tree.val name = some tag from saved]
    rfl
  · intro careful
    refine ⟨?_, False.elim, ?_⟩
    · rw [expected_concat]
      constructor
      · intro name
        change _ = ((savedTag tree.val name).map ranked).or (expected history name)
        rw [find_saved, ← agrees.ranks]
        cases savedTag tree.val name with
        | none => rfl
        | some tag => rfl
      · intro name tag found
        rw [find_saved] at found
        cases saved : savedTag tree.val name with
        | none =>
            rw [saved] at found
            exact agrees.nodup name tag found
        | some last =>
            rw [saved] at found
            cases found
            exact careful name _ saved
    · intro name user unnamed
      refine ⟨?_, rfl⟩
      change ((flat tree.val).foldl Repository.save tables.artTagRepo).find _ = _
      rw [Repository.find_foldl_save, List.filter_eq_nil_iff.mpr]
      · rfl
      · intro tag inside
        rw [decide_eq_true_eq, show Entity.key tag = _ from
          tagOid_of_mem_flat tree.property tag inside, toSha1Key_inj]
        exact fun same => unnamed ⟨tag, inside, same⟩

theorem sound_deleteTag (agrees : @Agrees sha1 tables.artTagRepo (expected history)) (tag : Text)
    (uuid : UserUuid) : Sound tables history (.deleteTag tag uuid) := by
  rw [Sound, recorded_ok rfl]
  refine ⟨?_, ?_, ?_⟩
  · rw [expected_concat]
    constructor
    · intro name
      change ((tables.artTagRepo.delete _).find _).map ranked =
        if uuid = publicUuid ∧ name = Text.getBytes tag then none else expected history name
      rw [Repository.find_delete]
      by_cases here : uuid = publicUuid ∧ name = Text.getBytes tag
      · rw [if_pos here, if_pos (toSha1Key_inj.mpr ⟨here.2, here.1.symm⟩)]
        rfl
      · rw [if_neg here, if_neg]
        · exact agrees.ranks name
        · intro same
          obtain ⟨names, users⟩ := toSha1Key_inj.mp same
          exact here ⟨users.symm, names⟩
    · intro name other found
      change (tables.artTagRepo.delete _).find _ = some other at found
      rw [Repository.find_delete] at found
      split at found
      case isTrue => cases found
      case isFalse => exact agrees.nodup name other found
  · rintro ⟨noTag, noAuthorTag⟩
    constructor
    · change TagTables.mk (tables.artTagRepo.delete _) (tables.authorTagRepo.delete _) = tables
      rw [Repository.delete_eq_self noTag, Repository.delete_eq_self noAuthorTag]
    · right
      simp only [deleteTag, noTag, noAuthorTag]
      rfl
  · intro name user unnamed
    have apart : toSha1Key sha1 name user ≠ toSha1Key sha1 (Text.getBytes tag) uuid := by
      intro same
      obtain ⟨names, users⟩ := toSha1Key_inj.mp same
      exact unnamed ⟨names.symm, users.symm⟩
    exact ⟨Repository.find_delete_of_ne apart, Repository.find_delete_of_ne apart⟩

private theorem sound_iff (state : TagTables × List (Step sha1)) (request : Request sha1)
    (agrees : @Agrees sha1 state.1.artTagRepo (expected state.2)) :
    Right state request ((service sha1).recorded.serve state request).1
        ((service sha1).recorded.serve state request).2 ↔ Careful state.1 request := by
  obtain ⟨tables, history⟩ := state
  change Sound tables history request ↔ _
  cases request with
  | saveTag tree => exact sound_iff_saveTag agrees tree
  | addPublicTagPost pubTag uuid => exact sound_iff_addPublicTagPost agrees pubTag uuid
  | deletePublicTagPost pubTag uuid => exact sound_iff_deletePublicTagPost agrees pubTag uuid
  | deletePublicTagPostByName pubTag uuid =>
      rw [sound_byName, sound_iff_deletePublicTagPost agrees]
      cases pubTag with
      | none => exact iff_of_true nofun nofun
      | some pubTag => simp [Careful]
  | deleteTag tag uuid => exact iff_of_true (sound_deleteTag agrees tag uuid) trivial

/-! ## Histories -/

/-- No tags at first, and any tags of authors. -/
def start (authorTagRepo : Repository AuthorTag) : TagTables := ⟨Repository.empty, authorTagRepo⟩

/-- **Every step of a history of tags is right exactly when posts are added to stored tags and
deleted from them, and no saved tree ranks an article twice.** -/
theorem right_iff_careful (sha1 : Sha1) (authorTagRepo : Repository AuthorTag)
    (requests : List (Request sha1)) :
    (service sha1).recorded.Along Right (start authorTagRepo, []) requests ↔
      (service sha1).recorded.Meets (fun state request => Careful state.1 request)
        (start authorTagRepo, []) requests := by
  have begins : @Agrees sha1 (start authorTagRepo).artTagRepo (expected ([] : List (Step sha1))) :=
    ⟨fun _ => rfl, nofun⟩
  apply Service.along_iff_meets sound_iff ?_ begins
  intro state request agrees careful
  exact ((sound_iff state request agrees).mpr careful).agrees

/-- A hash that writes every byte as a character. -/
def plainSha1 : Sha1 where
  digest := fun octets => String.ofList (octets.map Char.ofUInt8)
  injective := by
    intro first second same
    apply List.map_injective_iff.mpr ?_ (String.ofList_injective same)
    intro left right equal
    exact UInt8.toUInt32_inj.mp (congrArg Char.val equal)

/-- A post is added under a name that no tag has. -/
theorem unstored_fails :
    ¬ (service plainSha1).recorded.Along Right (start Repository.empty, [])
      [.addPublicTagPost (some (Text.ofString "news")) (some "post")] := by
  rintro ⟨promised, -⟩
  obtain ⟨-, null | null⟩ := promised.unstored (fun _ _ => rfl)
  · cases null
  · cases null

end ArtTagService

end Tvntd
