import Tvntd.Java.Article
import Tvntd.Java.Profile
import Tvntd.Lib.Service

/-! # Comments and the users who like them

The users who like a comment are kept in a second table, under the id of the
comment. A flag in the comment says that there is such a record, and by it the
record is removed together with the comment.
-/

namespace Tvntd.CommentService

open Profile (removeFrom addUnique)

structure Comment where
  id : Int
  favorite : Bool
  hashRank : Bool
  content : Octets
  articleUuid : String
  userUuid : String
deriving DecidableEq

instance : Entity Comment Int := ⟨Comment.id⟩

structure CommentRank where
  commentId : Int
  userLiked : Option (List String)
deriving DecidableEq

instance : Entity CommentRank Int := ⟨CommentRank.commentId⟩

def CommentRank.addUserLiked (rank : CommentRank) (uuid : String) : CommentRank :=
  { rank with userLiked := some (addUnique (rank.userLiked.getD []) uuid) }

def CommentRank.removeUserLiked (rank : CommentRank) (uuid : String) : CommentRank :=
  { rank with userLiked := rank.userLiked.map fun users => (removeFrom users uuid).2 }

structure CommentTables where
  commentRepo : Repository Comment
  rankRepo : Repository CommentRank

/-- What a user gives of a new comment. -/
structure NewComment where
  content : Octets
  articleUuid : String
  userUuid : String
deriving DecidableEq

/-- Saves a new comment under the id that it is given. -/
def saveComment (tables : CommentTables) (id : Int) (comment : NewComment) :
    CommentTables × Comment :=
  let saved : Comment :=
    { id := id, favorite := false, hashRank := false, content := comment.content
      articleUuid := comment.articleUuid, userUuid := comment.userUuid }
  ({ tables with commentRepo := tables.commentRepo.save saved }, saved)

/-- One turn of the loop of `deleteComment`. -/
def deleteOne (tables : CommentTables) (c : Comment) : CommentTables where
  commentRepo := tables.commentRepo.delete c.id
  rankRepo := if c.hashRank then tables.rankRepo.delete c.id else tables.rankRepo

def deleteComment (tables : CommentTables) (articleUuid : String) : CommentTables :=
  let out := tables.commentRepo.findAll fun c => decide (c.articleUuid = articleUuid)
  out.foldl deleteOne tables

def updateComment (tables : CommentTables) (form : CommentChangeForm) (me : String) :
    Except Exception (CommentTables × Option ArticleAttr) :=
  let result := ArticleAttr.ofForm form
  match form.commentId with
  | none => .ok (tables, none)
  | some id =>
      match tables.commentRepo.find id with
      | none => .ok (tables, none)
      | some co =>
          if form.articleUuid ≠ co.articleUuid then .ok (tables, none)
          else
            let result := { result with commentId := some id, articleUuid := form.articleUuid }
            match form.kind with
            | none => .error .nullPointer
            | some kind =>
                if kind = "fav" then
                  let co := { co with favorite := form.favorite }
                  .ok ({ tables with commentRepo := tables.commentRepo.save co },
                    some { result with favorite := co.favorite })
                else if kind = "like" then
                  let rank := (tables.rankRepo.find id).getD ⟨id, none⟩
                  let commentRepo :=
                    if co.hashRank then tables.commentRepo
                    else tables.commentRepo.save { co with hashRank := true }
                  match form.amount with
                  | none => .error .nullPointer
                  | some amount =>
                      let rank :=
                        if 0 < amount then rank.addUserLiked me else rank.removeUserLiked me
                      .ok (⟨commentRepo, tables.rankRepo.save rank⟩,
                        some { result with userLiked := rank.userLiked })
                else .ok (tables, some result)

/-- The ids that the database hands out, none of them twice. -/
structure IdGenerator where
  nth : Nat → Int
  distinct : ∀ {first second}, nth first = nth second → first = second

structure State where
  tables : CommentTables
  issued : Nat

/-- The calls of the service. -/
inductive Request where
  | saveComment (comment : NewComment)
  | updateComment (form : CommentChangeForm) (me : String)
  | deleteComment (articleUuid : String)
deriving DecidableEq

inductive Result where
  | saved (comment : Comment)
  | updated (attr : Option ArticleAttr)
  | deleted
deriving DecidableEq

def operation (ids : IdGenerator) (state : State) :
    Request → Except Exception (State × Result)
  | .saveComment comment =>
      let saved := saveComment state.tables (ids.nth state.issued) comment
      .ok (⟨saved.1, state.issued + 1⟩, .saved saved.2)
  | .updateComment form me =>
      (updateComment state.tables form me).map fun done =>
        ({ state with tables := done.1 }, .updated done.2)
  | .deleteComment articleUuid =>
      .ok ({ state with tables := deleteComment state.tables articleUuid }, .deleted)

def service (ids : IdGenerator) : Service State Request (Except Exception Result) :=
  Service.transactional (operation ids)

def start : State := ⟨⟨Repository.empty, Repository.empty⟩, 0⟩

/-! ## What users said last -/

abbrev Step := Request × Except Exception Result

/-- What a step says of a user and a comment: an update that is answered with attributes and likes
the comment, or takes a like back. -/
def likeOf (id : Int) (user : String) : Step → Option Bool
  | (.updateComment form me, .ok (.updated (some _))) =>
      if form.commentId = some id ∧ form.kind = some "like" ∧ me = user then
        form.amount.map fun amount => decide (0 < amount)
      else none
  | _ => none

def lastLike (id : Int) (user : String) (history : List Step) : Option Bool :=
  (history.filterMap (likeOf id user)).getLast?

private theorem lastLike_concat (id : Int) (user : String) (history : List Step) (step : Step) :
    lastLike id user (history ++ [step]) =
      (likeOf id user step).or (lastLike id user history) := by
  rw [lastLike, List.filterMap_append]
  cases said : likeOf id user step with
  | none =>
      simp only [List.filterMap_cons, said, List.filterMap_nil, List.append_nil]
      rfl
  | some like =>
      simp only [List.filterMap_cons, said, List.filterMap_nil, List.getLast?_concat]
      rfl

private theorem lastLike_concat_of_none {id : Int} {user : String} {step : Step}
    (silent : likeOf id user step = none) (history : List Step) :
    lastLike id user (history ++ [step]) = lastLike id user history := by
  rw [lastLike_concat, silent]
  rfl

private theorem lastLike_liked {form : CommentChangeForm} {id amount : Int} (attr : ArticleAttr)
    (named : form.commentId = some id) (kind : form.kind = some "like")
    (given : form.amount = some amount) (history : List Step) (me : String) (other : Int)
    (user : String) :
    lastLike other user (history ++ [(.updateComment form me, .ok (.updated (some attr)))]) =
      if other = id ∧ user = me then some (decide (0 < amount))
      else lastLike other user history := by
  rw [lastLike_concat]
  simp only [likeOf, named, kind, given, Option.some.injEq, true_and, Option.map_some]
  by_cases here : other = id ∧ user = me
  · rw [if_pos here, if_pos ⟨here.1.symm, here.2.symm⟩]
    rfl
  · rw [if_neg here, if_neg fun there => here ⟨there.1.symm, there.2.symm⟩]
    rfl

/-! ## The loop of a deletion -/

private theorem foldl_deleteOne_comment (out : List Comment) (id : Int) (tables : CommentTables) :
    (out.foldl deleteOne tables).commentRepo.find id =
      if ∃ c ∈ out, c.id = id then none else tables.commentRepo.find id := by
  apply Repository.foldl_erases fun tables : CommentTables => tables.commentRepo.find id
  intro tables c
  change (tables.commentRepo.delete c.id).find id = _
  simp only [Repository.find_delete, eq_comm]

private theorem foldl_deleteOne_rank (out : List Comment) (id : Int) (tables : CommentTables) :
    (out.foldl deleteOne tables).rankRepo.find id =
      if ∃ c ∈ out, c.id = id ∧ c.hashRank = true then none else tables.rankRepo.find id := by
  apply Repository.foldl_erases fun tables : CommentTables => tables.rankRepo.find id
  intro tables c
  change (if c.hashRank then tables.rankRepo.delete c.id else tables.rankRepo).find id = _
  cases c.hashRank with
  | false => simp
  | true => simp [Repository.find_delete, eq_comm]

variable {tables : CommentTables}

theorem deleteComment_comment (tables : CommentTables) (articleUuid : String) (id : Int) :
    (deleteComment tables articleUuid).commentRepo.find id =
      (tables.commentRepo.find id).filter fun c => decide (c.articleUuid ≠ articleUuid) := by
  rw [deleteComment, foldl_deleteOne_comment]
  cases found : tables.commentRepo.find id with
  | none =>
      rw [if_neg]
      · rfl
      · rintro ⟨c, inside, same⟩
        exact Repository.find_eq_none.mp found c (Repository.mem_findAll.mp inside).1 same
  | some c =>
      have inside := Repository.mem_of_find found
      have key : c.id = id := Repository.key_of_find found
      by_cases article : c.articleUuid = articleUuid
      · rw [if_pos ⟨c, by simpa [article] using inside, key⟩]
        simp [Option.filter, article]
      · rw [if_neg]
        · simp [Option.filter, article]
        · rintro ⟨other, listed, same⟩
          obtain ⟨held, theirs⟩ := Repository.mem_findAll.mp listed
          obtain rfl := Repository.eq_of_mem_of_key held inside (same.trans key.symm)
          exact article (by simpa using theirs)

theorem deleteComment_rank (tables : CommentTables) (articleUuid : String) (id : Int) :
    (deleteComment tables articleUuid).rankRepo.find id =
      if ∃ c, tables.commentRepo.find id = some c ∧ c.articleUuid = articleUuid ∧
          c.hashRank = true then none
      else tables.rankRepo.find id := by
  rw [deleteComment, foldl_deleteOne_rank]
  congr 1
  apply propext
  simp only [Repository.mem_findAll, decide_eq_true_eq, Repository.find_eq_some]
  constructor
  · rintro ⟨c, ⟨inside, article⟩, same, flagged⟩
    exact ⟨c, ⟨inside, same⟩, article, flagged⟩
  · rintro ⟨c, ⟨inside, same⟩, article, flagged⟩
    exact ⟨c, ⟨inside, article⟩, same, flagged⟩

/-! ## What an update does -/

/-- The tables and the answer of an update that does not fail. -/
inductive Updated (tables : CommentTables) (form : CommentChangeForm) (me : String) :
    CommentTables → Option ArticleAttr → Prop where
  | mismatched
      (missed : ∀ id co, form.commentId = some id → tables.commentRepo.find id = some co →
        form.articleUuid ≠ co.articleUuid) :
      Updated tables form me tables none
  | changed {id : Int} {co later : Comment} {attr : ArticleAttr}
      (named : form.commentId = some id) (found : tables.commentRepo.find id = some co)
      (article : form.articleUuid = co.articleUuid) (kind : form.kind ≠ some "like")
      (same : later.id = co.id) (flag : later.hashRank = co.hashRank) :
      Updated tables form me { tables with commentRepo := tables.commentRepo.save later }
        (some attr)
  | liked {id amount : Int} {co : Comment} {attr : ArticleAttr}
      (named : form.commentId = some id) (found : tables.commentRepo.find id = some co)
      (article : form.articleUuid = co.articleUuid) (kind : form.kind = some "like")
      (given : form.amount = some amount) :
      Updated tables form me
        ⟨tables.commentRepo.save { co with hashRank := true }, tables.rankRepo.save
          (if 0 < amount then ((tables.rankRepo.find id).getD ⟨id, none⟩).addUserLiked me
          else ((tables.rankRepo.find id).getD ⟨id, none⟩).removeUserLiked me)⟩
        (some attr)

private theorem updateComment_mismatched {form : CommentChangeForm}
    (missed : ∀ id co, form.commentId = some id → tables.commentRepo.find id = some co →
      form.articleUuid ≠ co.articleUuid) (me : String) :
    updateComment tables form me = .ok (tables, none) := by
  unfold updateComment
  cases named : form.commentId with
  | none => rfl
  | some id =>
      cases found : tables.commentRepo.find id with
      | none => simp only [found]
      | some co => simp only [found, if_pos (missed id co named found)]

private theorem updateComment_like {form : CommentChangeForm} {id amount : Int} {co : Comment}
    (named : form.commentId = some id) (found : tables.commentRepo.find id = some co)
    (article : form.articleUuid = co.articleUuid) (kind : form.kind = some "like")
    (given : form.amount = some amount) (me : String) :
    ∃ attr, updateComment tables form me = .ok
      (⟨tables.commentRepo.save { co with hashRank := true }, tables.rankRepo.save
        (if 0 < amount then ((tables.rankRepo.find id).getD ⟨id, none⟩).addUserLiked me
        else ((tables.rankRepo.find id).getD ⟨id, none⟩).removeUserLiked me)⟩, some attr) := by
  -- A comment that is flagged already is stored as it is.
  have flagged : (if co.hashRank then tables.commentRepo
      else tables.commentRepo.save { co with hashRank := true }) =
      tables.commentRepo.save { co with hashRank := true } := by
    cases flag : co.hashRank with
    | false => rfl
    | true =>
        have same : { co with hashRank := true } = co := by rw [← flag]
        rw [same, Repository.save_eq_self found]
        rfl
  unfold updateComment
  simp only [named, found, article, ne_eq, not_true, if_false, kind, given, flagged]
  exact ⟨_, rfl⟩

theorem updateComment_updated {form : CommentChangeForm} {me : String} {next : CommentTables}
    {result : Option ArticleAttr} (done : updateComment tables form me = .ok (next, result)) :
    Updated tables form me next result := by
  by_cases matched : ∃ id co, form.commentId = some id ∧ tables.commentRepo.find id = some co ∧
      form.articleUuid = co.articleUuid
  · obtain ⟨id, co, named, found, article⟩ := matched
    by_cases kind : form.kind = some "like"
    · cases given : form.amount with
      | none =>
          simp only [updateComment, named, found, article, ne_eq, not_true, if_false, kind,
            given] at done
          cases done
      | some amount =>
          obtain ⟨attr, same⟩ := updateComment_like named found article kind given me
          rw [same] at done
          cases done
          exact .liked named found article kind given
    · simp only [updateComment, named, found, article, ne_eq, not_true, if_false] at done
      cases name : form.kind with
      | none => simp only [name] at done; cases done
      | some other =>
          have noLike : other ≠ "like" := fun like => kind (name.trans (congrArg some like))
          simp only [name, if_neg noLike] at done
          split at done
          case isTrue =>
            cases done
            exact .changed named found article kind rfl rfl
          case isFalse =>
            cases done
            have kept := @Updated.changed tables form me id co co
              { ArticleAttr.ofForm form with commentId := some id, articleUuid := co.articleUuid }
              named found article kind rfl rfl
            rw [Repository.save_eq_self found] at kept
            exact kept
  · have missed : ∀ id co, form.commentId = some id → tables.commentRepo.find id = some co →
        form.articleUuid ≠ co.articleUuid :=
      fun id co named found article => matched ⟨id, co, named, found, article⟩
    rw [updateComment_mismatched missed] at done
    cases done
    exact .mismatched missed

/-! ## The invariant -/

/-- The users who like a comment. -/
def likers (tables : CommentTables) (id : Int) : List String :=
  ((tables.rankRepo.find id).bind CommentRank.userLiked).getD []

/-- The ranks agree with the comments and with what was said of them. -/
structure Consistent (ids : IdGenerator) (state : State) (history : List Step) : Prop where
  flagged : ∀ {id rank}, state.tables.rankRepo.find id = some rank →
    ∃ co, state.tables.commentRepo.find id = some co ∧ co.hashRank = true
  nodup : ∀ id, (likers state.tables id).Nodup
  lastSaid : ∀ {id co}, state.tables.commentRepo.find id = some co →
    ∀ user, user ∈ likers state.tables id ↔ lastLike id user history = some true
  issued : ∀ {id co}, state.tables.commentRepo.find id = some co →
    ∃ turn < state.issued, ids.nth turn = id
  past : ∀ {id user}, lastLike id user history ≠ none → ∃ turn < state.issued, ids.nth turn = id

private theorem consistent_start (ids : IdGenerator) : Consistent ids start [] where
  flagged := fun found => absurd found nofun
  nodup := fun _ => List.nodup_nil
  lastSaid := fun found => absurd found nofun
  issued := fun found => absurd found nofun
  past := fun said => absurd rfl said

variable {ids : IdGenerator} {state : State} {history : List Step}

/-- A step that says nothing of likes. -/
theorem Consistent.silent (consistent : Consistent ids state history) {step : Step}
    (silent : ∀ id user, likeOf id user step = none) :
    Consistent ids state (history ++ [step]) where
  flagged := consistent.flagged
  nodup := consistent.nodup
  lastSaid := by
    intro id co found user
    rw [lastLike_concat_of_none (silent id user)]
    exact consistent.lastSaid found user
  issued := consistent.issued
  past := by
    intro id user said
    rw [lastLike_concat_of_none (silent id user)] at said
    exact consistent.past said

private theorem Consistent.saveComment (consistent : Consistent ids state history)
    (comment : NewComment) :
    Consistent ids
      ⟨(saveComment state.tables (ids.nth state.issued) comment).1, state.issued + 1⟩ history := by
  have next : ¬ ∃ turn < state.issued, ids.nth turn = ids.nth state.issued := by
    rintro ⟨turn, before, same⟩
    exact absurd (ids.distinct same) (Nat.ne_of_lt before)
  have fresh : state.tables.commentRepo.find (ids.nth state.issued) = none := by
    cases found : state.tables.commentRepo.find (ids.nth state.issued) with
    | none => rfl
    | some co => exact absurd (consistent.issued found) next
  have unranked : state.tables.rankRepo.find (ids.nth state.issued) = none := by
    cases found : state.tables.rankRepo.find (ids.nth state.issued) with
    | none => rfl
    | some rank =>
        obtain ⟨co, there, -⟩ := consistent.flagged found
        rw [fresh] at there
        cases there
  refine ⟨?_, consistent.nodup, ?_, ?_, ?_⟩
  · intro id rank found
    obtain ⟨co, there, flag⟩ := consistent.flagged found
    refine ⟨co, ?_, flag⟩
    rw [← there]
    apply Repository.find_save_of_ne
    rintro rfl
    exact absurd (there.symm.trans fresh) (by simp)
  · intro id co found user
    change (state.tables.commentRepo.save _).find id = some co at found
    rw [Repository.find_save] at found
    split at found
    case isTrue here =>
      obtain rfl : id = ids.nth state.issued := here
      apply iff_of_false
      · change user ∉ likers state.tables _
        rw [likers, unranked]
        exact List.not_mem_nil
      · intro said
        exact next (consistent.past (by rw [said]; simp))
    case isFalse => exact consistent.lastSaid found user
  · intro id co found
    change (state.tables.commentRepo.save _).find id = some co at found
    rw [Repository.find_save] at found
    split at found
    case isTrue here => exact ⟨state.issued, Nat.lt_succ_self _, here.symm⟩
    case isFalse =>
      obtain ⟨turn, before, same⟩ := consistent.issued found
      exact ⟨turn, Nat.lt_succ_of_lt before, same⟩
  · intro id user said
    obtain ⟨turn, before, same⟩ := consistent.past said
    exact ⟨turn, Nat.lt_succ_of_lt before, same⟩

theorem Consistent.deleteComment (consistent : Consistent ids state history)
    (articleUuid : String) :
    Consistent ids { state with tables := deleteComment state.tables articleUuid } history := by
  have kept : ∀ {id co}, (CommentService.deleteComment state.tables articleUuid).commentRepo.find id
      = some co → state.tables.commentRepo.find id = some co ∧ co.articleUuid ≠ articleUuid := by
    intro id co found
    rw [deleteComment_comment, Option.filter_eq_some_iff] at found
    exact ⟨found.1, by simpa using found.2⟩
  have ranks : ∀ {id}, (CommentService.deleteComment state.tables articleUuid).rankRepo.find id =
      none ∨ (CommentService.deleteComment state.tables articleUuid).rankRepo.find id =
        state.tables.rankRepo.find id := by
    intro id
    rw [deleteComment_rank]
    split
    · exact Or.inl rfl
    · exact Or.inr rfl
  refine ⟨?_, ?_, ?_, fun found => consistent.issued (kept found).1, consistent.past⟩
  · intro id rank found
    change (CommentService.deleteComment _ _).rankRepo.find id = some rank at found
    rw [deleteComment_rank] at found
    split at found
    case isTrue => cases found
    case isFalse spared =>
      obtain ⟨co, there, flag⟩ := consistent.flagged found
      refine ⟨co, ?_, flag⟩
      change (CommentService.deleteComment _ _).commentRepo.find id = some co
      rw [deleteComment_comment, there]
      have theirs : co.articleUuid ≠ articleUuid := fun same => spared ⟨co, there, same, flag⟩
      simp [Option.filter, theirs]
  · intro id
    rcases ranks with gone | same
    · rw [likers, gone]
      exact List.nodup_nil
    · rw [likers, same]
      exact consistent.nodup id
  · intro id co found user
    obtain ⟨there, theirs⟩ := kept found
    rw [← consistent.lastSaid there user, likers, likers, deleteComment_rank, if_neg]
    rintro ⟨other, again, same, -⟩
    rw [there] at again
    cases again
    exact theirs same

theorem Consistent.changed (consistent : Consistent ids state history) {id : Int}
    {co later : Comment} (found : state.tables.commentRepo.find id = some co)
    (same : later.id = co.id) (flag : later.hashRank = co.hashRank) :
    Consistent ids
      { state with tables :=
        { state.tables with commentRepo := state.tables.commentRepo.save later } } history := by
  have key : co.id = id := Repository.key_of_find found
  have place : later.id = id := same.trans key
  refine ⟨?_, consistent.nodup, ?_, ?_, consistent.past⟩
  · intro other rank ranked
    obtain ⟨there, held, set⟩ := consistent.flagged ranked
    by_cases here : other = later.id
    · subst here
      refine ⟨later, Repository.find_save_self _ later, ?_⟩
      rw [place, found] at held
      cases held
      exact flag.trans set
    · exact ⟨there, (Repository.find_save_of_ne here).trans held, set⟩
  · intro other there held user
    obtain ⟨before, held⟩ := Repository.exists_of_find_save held found place
    exact consistent.lastSaid held user
  · intro other there held
    obtain ⟨before, held⟩ := Repository.exists_of_find_save held found place
    exact consistent.issued held

/-- The list of a rank that a user enters or leaves. -/
theorem userLiked_turn (rank : Option CommentRank) (id amount : Int) (me : String) :
    ((if 0 < amount then (rank.getD ⟨id, none⟩).addUserLiked me
        else (rank.getD ⟨id, none⟩).removeUserLiked me).userLiked).getD [] =
      if 0 < amount then addUnique ((rank.bind CommentRank.userLiked).getD []) me
      else (removeFrom ((rank.bind CommentRank.userLiked).getD []) me).2 := by
  split
  case isTrue => cases rank with
    | none => rfl
    | some rank => rfl
  case isFalse => cases rank with
    | none => rfl
    | some rank => cases users : rank.userLiked with
      | none => simp [CommentRank.removeUserLiked, users, removeFrom]
      | some users' => simp [CommentRank.removeUserLiked, users]

theorem nodup_turned {users : List String} (nodup : users.Nodup) (amount : Int) (me : String) :
    (if 0 < amount then addUnique users me else (removeFrom users me).2).Nodup := by
  split
  · exact Profile.nodup_addUnique nodup me
  · exact Profile.nodup_removeFrom nodup me

theorem mem_turned {users : List String} (nodup : users.Nodup) (amount : Int) (me user : String) :
    user ∈ (if 0 < amount then addUnique users me else (removeFrom users me).2) ↔
      if user = me then 0 < amount else user ∈ users := by
  by_cases mine : user = me
  · rw [if_pos mine]
    split
    case isTrue up => simp [Profile.mem_addUnique, mine, up]
    case isFalse down => simp [Profile.mem_removeFrom nodup, mine, down]
  · rw [if_neg mine]
    split
    case isTrue => simp [Profile.mem_addUnique, mine]
    case isFalse => simp [Profile.mem_removeFrom nodup, mine]

private theorem commentId_getD (rankRepo : Repository CommentRank) (id : Int) :
    ((rankRepo.find id).getD ⟨id, none⟩).commentId = id := by
  cases found : rankRepo.find id with
  | none => rfl
  | some rank => exact Repository.key_of_find found

theorem commentId_turn {id : Int} {rank : CommentRank} (key : rank.commentId = id) (amount : Int)
    (me : String) :
    (if 0 < amount then rank.addUserLiked me else rank.removeUserLiked me).commentId = id := by
  split
  · exact key
  · exact key

/-- A user likes a comment or takes the like back. -/
theorem Consistent.liked (consistent : Consistent ids state history) {form : CommentChangeForm}
    {me : String} {id amount : Int} {co : Comment} {attr : ArticleAttr}
    (named : form.commentId = some id) (found : state.tables.commentRepo.find id = some co)
    (kind : form.kind = some "like") (given : form.amount = some amount) :
    Consistent ids
      { state with tables :=
        ⟨state.tables.commentRepo.save { co with hashRank := true }, state.tables.rankRepo.save
          (if 0 < amount then ((state.tables.rankRepo.find id).getD ⟨id, none⟩).addUserLiked me
          else ((state.tables.rankRepo.find id).getD ⟨id, none⟩).removeUserLiked me)⟩ }
      (history ++ [(.updateComment form me, .ok (.updated (some attr)))]) := by
  have key : co.id = id := Repository.key_of_find found
  have turned := commentId_turn (commentId_getD state.tables.rankRepo id) amount me
  have users := userLiked_turn (state.tables.rankRepo.find id) id amount me
  generalize (if 0 < amount then ((state.tables.rankRepo.find id).getD ⟨id, none⟩).addUserLiked me
    else ((state.tables.rankRepo.find id).getD ⟨id, none⟩).removeUserLiked me) = turn at *
  have said := lastLike_liked attr named kind given history me
  have ranks : ∀ other, (state.tables.rankRepo.save turn).find other =
      if other = id then some turn else state.tables.rankRepo.find other := by
    intro other
    rw [Repository.find_save, show Entity.key turn = id from turned]
  have comments : ∀ other, (state.tables.commentRepo.save { co with hashRank := true }).find other =
      if other = id then some { co with hashRank := true }
      else state.tables.commentRepo.find other := by
    intro other
    rw [Repository.find_save]
    change (if other = co.id then _ else _) = _
    rw [key]
  have listed : ∀ other, likers
      ⟨state.tables.commentRepo.save { co with hashRank := true },
        state.tables.rankRepo.save turn⟩ other =
      if other = id then
        if 0 < amount then addUnique (likers state.tables id) me
        else (removeFrom (likers state.tables id) me).2
      else likers state.tables other := by
    intro other
    simp only [likers, ranks]
    split
    · exact users
    · rfl
  have nodup := consistent.nodup id
  refine ⟨?_, ?_, ?_, ?_, ?_⟩
  · intro other rank there
    rw [ranks] at there
    split at there
    case isTrue here => exact ⟨_, by rw [comments, if_pos here], rfl⟩
    case isFalse apart =>
      obtain ⟨before, held, set⟩ := consistent.flagged there
      exact ⟨before, by rw [comments, if_neg apart, held], set⟩
  · intro other
    rw [listed]
    split
    · exact nodup_turned nodup amount me
    · exact consistent.nodup other
  · intro other there held user
    rw [listed, said]
    by_cases here : other = id
    · subst here
      rw [if_pos rfl, mem_turned nodup, consistent.lastSaid found user]
      by_cases mine : user = me
      · rw [if_pos mine, if_pos ⟨rfl, mine⟩, Option.some.injEq, decide_eq_true_eq]
      · rw [if_neg mine, if_neg fun both => mine both.2]
    · rw [if_neg here, if_neg fun both => here both.1]
      obtain ⟨before, held⟩ := Repository.exists_of_find_save held found key
      exact consistent.lastSaid held user
  · intro other there held
    obtain ⟨before, held⟩ := Repository.exists_of_find_save held found key
    exact consistent.issued held
  · intro other user spoken
    rw [said] at spoken
    split at spoken
    case isTrue both => exact both.1 ▸ consistent.issued found
    case isFalse => exact consistent.past spoken

/-! ## Histories -/

/-- What is promised of the step from one state to the next, and of the state behind it. -/
structure Promised (before : State) (request : Request) (after : State) (history : List Step)
    (reply : Except Exception Result) : Prop where
  /-- A rank is of a comment that is flagged. -/
  flagged : ∀ rank ∈ after.tables.rankRepo.rows,
    ∃ co ∈ after.tables.commentRepo.rows, co.id = rank.commentId ∧ co.hashRank = true
  /-- The users of a rank are those who liked the comment last. -/
  lastSaid : ∀ rank ∈ after.tables.rankRepo.rows, (rank.userLiked.getD []).Nodup ∧
    ∀ user, user ∈ rank.userLiked.getD [] ↔ lastLike rank.commentId user history = some true
  /-- So are, for every stored comment, the users who like it. -/
  liked : ∀ co ∈ after.tables.commentRepo.rows, ∀ user,
    user ∈ likers after.tables co.id ↔ lastLike co.id user history = some true
  /-- Likes of a comment under its article are accepted. -/
  accepted : ∀ form me, request = .updateComment form me →
    ∀ co ∈ before.tables.commentRepo.rows, form.commentId = some co.id →
      form.articleUuid = co.articleUuid → form.kind = some "like" → form.amount ≠ none →
        ∃ attr, reply = .ok (.updated (some attr))
  mismatched : ∀ form me, request = .updateComment form me →
    (∀ co ∈ before.tables.commentRepo.rows, form.commentId = some co.id →
      form.articleUuid ≠ co.articleUuid) → after = before ∧ reply = .ok (.updated none)
  deleted : ∀ articleUuid, request = .deleteComment articleUuid →
    (∀ co, co ∈ after.tables.commentRepo.rows ↔
      co ∈ before.tables.commentRepo.rows ∧ co.articleUuid ≠ articleUuid) ∧
    ∀ rank, rank ∈ after.tables.rankRepo.rows ↔ rank ∈ before.tables.rankRepo.rows ∧
      ∀ co ∈ before.tables.commentRepo.rows, co.id = rank.commentId →
        co.articleUuid ≠ articleUuid

private theorem serve_updateComment (ids : IdGenerator) (state : State) (form : CommentChangeForm)
    (me : String) :
    (service ids).serve state (.updateComment form me) =
      match updateComment state.tables form me with
      | .ok done => ({ state with tables := done.1 }, .ok (.updated done.2))
      | .error error => (state, .error error) := by
  simp only [service, Service.transactional, operation]
  cases updateComment state.tables form me with
  | ok done => rfl
  | error error => rfl

theorem Consistent.serve (state : State × List Step) (request : Request)
    (consistent : Consistent ids state.1 state.2) :
    Consistent ids ((service ids).recorded.serve state request).1.1
      ((service ids).recorded.serve state request).1.2 := by
  cases request with
  | saveComment comment => exact (consistent.saveComment comment).silent fun _ _ => rfl
  | deleteComment articleUuid => exact (consistent.deleteComment articleUuid).silent fun _ _ => rfl
  | updateComment form me =>
      simp only [Service.recorded, serve_updateComment]
      cases done : updateComment state.1.tables form me with
      | error error => exact consistent.silent fun _ _ => rfl
      | ok pair =>
          obtain ⟨next, result⟩ := pair
          cases updateComment_updated done with
          | mismatched => exact consistent.silent fun _ _ => rfl
          | changed named found article kind same flag =>
              apply (consistent.changed found same flag).silent
              intro id user
              simp [likeOf, kind]
          | liked named found article kind given => exact consistent.liked named found kind given

theorem Consistent.lastSaid_rank (consistent : Consistent ids state history) {rank : CommentRank}
    (inside : rank ∈ state.tables.rankRepo.rows) :
    (rank.userLiked.getD []).Nodup ∧ ∀ user, user ∈ rank.userLiked.getD [] ↔
      lastLike rank.commentId user history = some true := by
  have found : state.tables.rankRepo.find rank.commentId = some rank :=
    Repository.find_of_mem inside
  obtain ⟨co, there, -⟩ := consistent.flagged found
  have nodup := consistent.nodup rank.commentId
  have said := consistent.lastSaid there
  simp only [likers, found, Option.bind_some] at nodup said
  exact ⟨nodup, said⟩

private theorem deleteComment_promised (consistent : Consistent ids state history)
    (articleUuid : String) :
    (∀ co, co ∈ (deleteComment state.tables articleUuid).commentRepo.rows ↔
      co ∈ state.tables.commentRepo.rows ∧ co.articleUuid ≠ articleUuid) ∧
    ∀ rank, rank ∈ (deleteComment state.tables articleUuid).rankRepo.rows ↔
      rank ∈ state.tables.rankRepo.rows ∧
        ∀ co ∈ state.tables.commentRepo.rows, co.id = rank.commentId →
          co.articleUuid ≠ articleUuid := by
  constructor
  · intro co
    rw [← Repository.find_iff_mem, deleteComment_comment, Option.filter_eq_some_iff,
      Repository.find_iff_mem, decide_eq_true_eq]
  · intro rank
    rw [← Repository.find_iff_mem, deleteComment_rank, ← Repository.find_iff_mem]
    constructor
    · intro found
      split at found
      case isTrue => cases found
      case isFalse spared =>
        refine ⟨found, ?_⟩
        intro co inside same article
        obtain ⟨flagged, there, set⟩ := consistent.flagged found
        obtain rfl := Repository.eq_of_mem_of_key inside (Repository.mem_of_find there)
          (same.trans (Repository.key_of_find there).symm)
        exact spared ⟨co, there, article, set⟩
    · rintro ⟨found, spared⟩
      rw [if_neg, found]
      rintro ⟨co, there, article, -⟩
      exact spared co (Repository.mem_of_find there) (Repository.key_of_find there) article

/-- **Every history of comments keeps its promises.** -/
theorem promised_along (ids : IdGenerator) (requests : List Request) :
    (service ids).recorded.Along (fun before request after reply =>
      Promised before.1 request after.1 after.2 reply) (start, []) requests := by
  apply Service.along_of_invariant (fun state => Consistent ids state.1 state.2) ?_
    (consistent_start ids)
  intro state request consistent
  have still := Consistent.serve state request consistent
  refine ⟨still, ?_, fun rank inside => still.lastSaid_rank inside,
    fun co inside => still.lastSaid (Repository.find_of_mem inside), ?_, ?_, ?_⟩
  · intro rank inside
    obtain ⟨co, there, set⟩ := still.flagged (Repository.find_of_mem inside)
    exact ⟨co, Repository.mem_of_find there, Repository.key_of_find there, set⟩
  · rintro form me rfl co inside named article kind given
    obtain ⟨amount, given⟩ := Option.ne_none_iff_exists'.mp given
    obtain ⟨attr, done⟩ :=
      updateComment_like named (Repository.find_of_mem inside) article kind given me
    refine ⟨attr, ?_⟩
    simp only [Service.recorded, serve_updateComment, done]
  · rintro form me rfl missed
    have done : CommentService.updateComment state.1.tables form me =
        .ok (state.1.tables, none) := by
      apply updateComment_mismatched
      intro id co named found
      obtain rfl : co.id = id := Repository.key_of_find found
      exact missed co (Repository.mem_of_find found) named
    constructor
    · simp only [Service.recorded, serve_updateComment, done]
    · simp only [Service.recorded, serve_updateComment, done]
  · rintro articleUuid rfl
    exact deleteComment_promised consistent articleUuid

end Tvntd.CommentService
