import Tvntd.Java.Article
import Tvntd.Java.Profile
import Tvntd.Lib.Service

/-! # Likes and shares of an article

A user toggles a like or a share of an article, which enters the user in a list
or removes it, and counts. The increments of a brief change the same two counts.
-/

namespace Tvntd.ArticleRank

open Profile (isInList removeFrom addUnique)

structure ArticleForm where
  articleUuid : String
  likeInc : Option Int
  shareInc : Option Int
  prevArticle : Option String
  nextArticle : Option String
  topArticle : Option String
deriving DecidableEq

structure Tables where
  artBriefRepo : Repository ArticleBrief
  artAttrRepo : Repository ArticleAttr

def Tables.saveAttr (tables : Tables) (attr : ArticleAttr) : Tables :=
  { tables with artAttrRepo := tables.artAttrRepo.save attr }

/-! ## Increments -/

/-- A count after an increment, of which only the sign is taken. -/
def applyInc (inc count : Option Int) : Except Exception (Option Int) :=
  match inc with
  | none => .error .nullPointer
  | some inc =>
      if 0 < inc then
        match count with
        | none => .error .nullPointer
        | some count => .ok (some (count + 1))
      else if inc < 0 then
        match count with
        | none => .error .nullPointer
        | some count => .ok (some (if 0 < count then count - 1 else count))
      else .ok count

def updateArtBrief (tables : Tables) (form : ArticleForm) :
    Except Exception (Tables × Option ArticleBrief) :=
  match tables.artBriefRepo.find form.articleUuid with
  | none => .ok (tables, none)
  | some brief =>
      match tables.artAttrRepo.find form.articleUuid with
      | none => .error .nullPointer
      | some attr => do
          let likes ← applyInc form.likeInc attr.likes
          let shared ← applyInc form.shareInc attr.shared
          let brief :=
            { brief with
              prevArticle := form.prevArticle.or brief.prevArticle
              nextArticle := form.nextArticle.or brief.nextArticle
              topArticle := form.topArticle.or brief.topArticle }
          let attr := { attr with likes := likes, shared := shared }
          .ok (⟨tables.artBriefRepo.save brief, tables.artAttrRepo.save attr⟩, some brief)

/-! ## Toggles -/

def toggleList (users : List String) (val : Int) (myUuid : String) : List String × Int :=
  if isInList users myUuid = none then (addUnique users myUuid, val + 1)
  else ((removeFrom users myUuid).2, val - 1)

/-- The list behind a toggle and the new count. -/
def toggle (users : Option (List String)) (count : Option Int) (myUuid : String) :
    Except Exception (List String × Int) :=
  match count with
  | none => .error .nullPointer
  | some val => .ok (toggleList (users.getD []) val myUuid)

/-- The form comes back with the new count as its amount. -/
def updateArtAttr (tables : Tables) (form : CommentChangeForm) (userUuid : String) :
    Except Exception (Tables × CommentChangeForm × Option ArticleAttr) :=
  match tables.artAttrRepo.find form.articleUuid with
  | none => .ok (tables, form, none)
  | some attr =>
      match form.kind with
      | none => .error .nullPointer
      | some kind =>
          if kind = "like" then do
            let (users, val) ← toggle attr.userLiked attr.likes userUuid
            let attr := { attr with userLiked := some users, likes := some val }
            .ok (tables.saveAttr attr, { form with amount := some val }, some attr)
          else if kind = "share" then do
            let (users, val) ← toggle attr.userShared attr.shared userUuid
            let attr := { attr with userShared := some users, shared := some val }
            .ok (tables.saveAttr attr, { form with amount := some val }, some attr)
          else if kind = "fav" then
            let attr := { attr with favorite := true }
            .ok (tables.saveAttr attr, form, some attr)
          else .ok (tables, form, some attr)

/-- The calls of the service. -/
inductive Request where
  | updateArtBrief (form : ArticleForm)
  | updateArtAttr (form : CommentChangeForm) (userUuid : String)
deriving DecidableEq

inductive Result where
  | brief (brief : Option ArticleBrief)
  | attr (form : CommentChangeForm) (attr : Option ArticleAttr)
deriving DecidableEq

def operation (tables : Tables) : Request → Except Exception (Tables × Result)
  | .updateArtBrief form => (updateArtBrief tables form).map fun done => (done.1, .brief done.2)
  | .updateArtAttr form userUuid =>
      (updateArtAttr tables form userUuid).map fun done => (done.1, .attr done.2.1 done.2.2)

def service : Service Tables Request (Except Exception Result) :=
  Service.transactional operation

/-! ## A toggled list -/

/-- A count agrees with a list of users that has none of them twice. -/
structure Counts (users : Option (List String)) (count : Option Int) : Prop where
  counted : count = some ((users.getD []).length : Int)
  nodup : (users.getD []).Nodup

theorem Counts.nonneg {users : Option (List String)} {count : Option Int}
    (counts : Counts users count) : ∃ val, count = some val ∧ 0 ≤ val :=
  ⟨_, counts.counted, Int.natCast_nonneg _⟩

private theorem toggleList_spec {users : List String} (nodup : users.Nodup) (myUuid : String) :
    (toggleList users users.length myUuid).1.Nodup ∧
      (toggleList users users.length myUuid).2 = (toggleList users users.length myUuid).1.length ∧
        ∀ user, user ∈ (toggleList users users.length myUuid).1 ↔
          (user ∈ users ↔ user ≠ myUuid) := by
  unfold toggleList
  by_cases inside : myUuid ∈ users
  · have listed : isInList users myUuid ≠ none := by simpa using inside
    have shorter := List.length_erase_of_mem inside
    have positive := List.length_pos_of_mem inside
    rw [if_neg listed]
    refine ⟨Profile.nodup_removeFrom nodup myUuid, ?_, ?_⟩
    · rw [Profile.removeFrom_eq]
      simp only
      omega
    · intro user
      rw [Profile.mem_removeFrom nodup]
      by_cases same : user = myUuid
      · simp [same, inside]
      · simp [same]
  · have unlisted : isInList users myUuid = none := by simpa using inside
    rw [if_pos unlisted]
    refine ⟨Profile.nodup_addUnique nodup myUuid, ?_, ?_⟩
    · rw [addUnique, if_pos unlisted, List.length_append]
      rfl
    · intro user
      rw [Profile.mem_addUnique]
      by_cases same : user = myUuid
      · simp [same, inside]
      · simp [same]

private theorem toggle_spec {users : Option (List String)} {count : Option Int}
    (counts : Counts users count)
    (myUuid : String) :
    ∃ list val, toggle users count myUuid = .ok (list, val) ∧ Counts (some list) (some val) ∧
      ∀ user, user ∈ list ↔ (user ∈ users.getD [] ↔ user ≠ myUuid) := by
  obtain ⟨rfl, nodup⟩ := counts
  obtain ⟨still, counted, members⟩ := toggleList_spec nodup myUuid
  exact ⟨_, _, rfl, ⟨congrArg some counted, still⟩, members⟩

/-! ## Increments of a count -/

/-- The increment leaves the count alone. -/
def Idle (inc count : Int) : Prop := inc = 0 ∨ inc < 0 ∧ count = 0

instance (inc count : Int) : Decidable (Idle inc count) := inferInstanceAs (Decidable (_ ∨ _))

/-- The count behind an increment. -/
def incremented (inc count : Int) : Int :=
  if 0 < inc then count + 1 else if inc < 0 ∧ 0 < count then count - 1 else count

private theorem applyInc_some (inc count : Int) :
    applyInc (some inc) (some count) = .ok (some (incremented inc count)) := by
  unfold applyInc incremented
  by_cases raised : 0 < inc
  · simp only [if_pos raised]
  · by_cases lowered : inc < 0
    · simp only [if_neg raised, lowered, true_and, if_true]
    · simp only [if_neg raised, lowered, false_and, if_false]

private theorem incremented_eq_self {inc count : Int} (nonneg : 0 ≤ count) :
    incremented inc count = count ↔ Idle inc count := by
  unfold incremented Idle
  split
  · omega
  · split
    · omega
    · omega

/-! ## The attributes of one article -/

/-- The request toggles the like of a user on an article. -/
def TogglesLike (uuid user : String) : Request → Prop
  | .updateArtBrief _ => False
  | .updateArtAttr form userUuid =>
      form.articleUuid = uuid ∧ form.kind = some "like" ∧ userUuid = user

instance (uuid user : String) : DecidablePred (TogglesLike uuid user)
  | .updateArtBrief _ => inferInstanceAs (Decidable False)
  | .updateArtAttr _ _ => inferInstanceAs (Decidable (_ ∧ _))

def toggles (uuid user : String) (history : List (Request × Except Exception Result)) : Nat :=
  history.countP fun step => decide (TogglesLike uuid user step.1)

/-- The counts of an article agree with its lists, and the users who like it are those who toggled
an odd number of times. -/
def Agrees (uuid : String) (state : Tables × List (Request × Except Exception Result)) : Prop :=
  ∃ attr, state.1.artAttrRepo.find uuid = some attr ∧
    Counts attr.userLiked attr.likes ∧ Counts attr.userShared attr.shared ∧
      ∀ user, user ∈ attr.userLiked.getD [] ↔ toggles uuid user state.2 % 2 = 1

variable {uuid : String} {tables : Tables}

/-! ## Requests on other articles -/

private theorem updateArtAttr_other {form : CommentChangeForm} (apart : uuid ≠ form.articleUuid)
    {userUuid : String} {next : Tables} {result : CommentChangeForm × Option ArticleAttr}
    (done : updateArtAttr tables form userUuid = .ok (next, result)) :
    next.artAttrRepo.find uuid = tables.artAttrRepo.find uuid := by
  unfold updateArtAttr at done
  cases found : tables.artAttrRepo.find form.articleUuid with
  | none =>
      rw [found] at done
      cases done
      rfl
  | some attr =>
      have key : attr.articleUuid = form.articleUuid := Repository.key_of_find found
      have kept : ∀ saved : ArticleAttr, saved.articleUuid = attr.articleUuid →
          (tables.artAttrRepo.save saved).find uuid = tables.artAttrRepo.find uuid := by
        intro saved same
        apply Repository.find_save_of_ne
        intro here
        exact apart (here.trans (same.trans key))
      rw [found] at done
      cases named : form.kind with
      | none => rw [named] at done; cases done
      | some kind =>
          simp only [named] at done
          split at done
          · cases flipped : toggle attr.userLiked attr.likes userUuid with
            | error error => rw [flipped] at done; cases done
            | ok pair =>
                rw [flipped] at done
                cases done
                exact kept _ rfl
          · split at done
            · cases flipped : toggle attr.userShared attr.shared userUuid with
              | error error => rw [flipped] at done; cases done
              | ok pair =>
                  rw [flipped] at done
                  cases done
                  exact kept _ rfl
            · split at done
              · cases done
                exact kept _ rfl
              · cases done
                rfl

private theorem updateArtBrief_other {form : ArticleForm} (apart : uuid ≠ form.articleUuid)
    {next : Tables} {result : Option ArticleBrief}
    (done : updateArtBrief tables form = .ok (next, result)) :
    next.artAttrRepo.find uuid = tables.artAttrRepo.find uuid := by
  unfold updateArtBrief at done
  cases present : tables.artBriefRepo.find form.articleUuid with
  | none =>
      rw [present] at done
      cases done
      rfl
  | some brief =>
      cases found : tables.artAttrRepo.find form.articleUuid with
      | none => rw [present, found] at done; cases done
      | some attr =>
          have key : attr.articleUuid = form.articleUuid := Repository.key_of_find found
          rw [present, found] at done
          cases liked : applyInc form.likeInc attr.likes with
          | error error => simp only [liked] at done; cases done
          | ok likes =>
              cases given : applyInc form.shareInc attr.shared with
              | error error => simp only [liked, given] at done; cases done
              | ok shared =>
                  simp only [liked, given] at done
                  cases done
                  apply Repository.find_save_of_ne
                  intro here
                  exact apart (here.trans key)

/-! ## Requests on the article -/

variable {history : List (Request × Except Exception Result)}

theorem toggles_concat (uuid user : String) (history : List (Request × Except Exception Result))
    (request : Request) (reply : Except Exception Result) :
    toggles uuid user (history ++ [(request, reply)]) =
      toggles uuid user history + if TogglesLike uuid user request then 1 else 0 := by
  simp [toggles, List.countP_append, List.countP_cons]

theorem Agrees.counted {state : Tables × List (Request × Except Exception Result)}
    (agrees : Agrees uuid state) :
    (state.1.artAttrRepo.find uuid).bind ArticleAttr.likes =
      some ((((state.1.artAttrRepo.find uuid).bind ArticleAttr.userLiked).getD []).length : Int) := by
  obtain ⟨attr, found, liked, -⟩ := agrees
  rw [found, Option.bind_some, Option.bind_some]
  exact liked.counted

/-- A request that is no like of the article and leaves its counts and lists alone. -/
theorem Agrees.quiet (agrees : Agrees uuid (tables, history)) {request : Request}
    (quiet : ∀ user, ¬ TogglesLike uuid user request) {next : Tables}
    {reply : Except Exception Result}
    (kept : ∀ attr, tables.artAttrRepo.find uuid = some attr →
      ∃ later, next.artAttrRepo.find uuid = some later ∧ later.userLiked = attr.userLiked ∧
        later.likes = attr.likes ∧ later.userShared = attr.userShared ∧
          later.shared = attr.shared) :
    Agrees uuid (next, history ++ [(request, reply)]) := by
  obtain ⟨attr, found, liked, shared, members⟩ := agrees
  obtain ⟨later, still, sameLiked, sameLikes, sameShares, sameShared⟩ := kept attr found
  refine ⟨later, still, ?_, ?_, ?_⟩
  · rw [sameLiked, sameLikes]
    exact liked
  · rw [sameShares, sameShared]
    exact shared
  · intro user
    rw [sameLiked, members user, toggles_concat, if_neg (quiet user), Nat.add_zero]

theorem Agrees.unchanged (agrees : Agrees uuid (tables, history)) {request : Request}
    (quiet : ∀ user, ¬ TogglesLike uuid user request) {next : Tables}
    {reply : Except Exception Result}
    (same : next.artAttrRepo.find uuid = tables.artAttrRepo.find uuid) :
    Agrees uuid (next, history ++ [(request, reply)]) := by
  apply agrees.quiet quiet
  intro attr found
  exact ⟨attr, same.trans found, rfl, rfl, rfl, rfl⟩

theorem find_save_here {attr later : ArticleAttr} (found : tables.artAttrRepo.find uuid = some attr)
    (same : later.articleUuid = attr.articleUuid) :
    (tables.artAttrRepo.save later).find uuid = some later := by
  have key : attr.articleUuid = uuid := Repository.key_of_find found
  rw [← key, ← same]
  exact Repository.find_save_self _ later

theorem find_saveAttr {attr later : ArticleAttr} (found : tables.artAttrRepo.find uuid = some attr)
    (same : later.articleUuid = attr.articleUuid) :
    (tables.saveAttr later).artAttrRepo.find uuid = some later :=
  find_save_here found same

theorem recorded_ok {request : Request} {next : Tables} {result : Result}
    (done : operation tables request = .ok (next, result)) :
    (service.recorded.serve (tables, history) request).1 =
      (next, history ++ [(request, .ok result)]) := by
  simp only [Service.recorded, service, Service.transactional_ok done]

theorem recorded_error {request : Request} {error : Exception}
    (failed : operation tables request = .error error) :
    (service.recorded.serve (tables, history) request).1 =
      (tables, history ++ [(request, .error error)]) := by
  simp only [Service.recorded, service, Service.transactional_error failed]

/-- A request that fails and is no like. -/
theorem Agrees.failed (agrees : Agrees uuid (tables, history)) {request : Request}
    {error : Exception} (failed : operation tables request = .error error)
    (quiet : ∀ user, ¬ TogglesLike uuid user request) :
    Agrees uuid (service.recorded.serve (tables, history) request).1 := by
  rw [recorded_error failed]
  exact agrees.unchanged quiet rfl

/-- A request that leaves the attributes of the article alone and is no like. -/
theorem Agrees.ran (agrees : Agrees uuid (tables, history)) {request : Request} {next : Tables}
    {result : Result} (done : operation tables request = .ok (next, result))
    (quiet : ∀ user, ¬ TogglesLike uuid user request)
    (same : next.artAttrRepo.find uuid = tables.artAttrRepo.find uuid) :
    Agrees uuid (service.recorded.serve (tables, history) request).1 := by
  rw [recorded_ok done]
  exact agrees.unchanged quiet same

theorem Agrees.like {form : CommentChangeForm} (agrees : Agrees form.articleUuid (tables, history))
    (named : form.kind = some "like") (userUuid : String) :
    Agrees form.articleUuid
      (service.recorded.serve (tables, history) (.updateArtAttr form userUuid)).1 := by
  obtain ⟨attr, found, liked, shared, members⟩ := agrees
  obtain ⟨list, val, flipped, counts, flips⟩ := toggle_spec liked userUuid
  have done : operation tables (.updateArtAttr form userUuid) =
      .ok (tables.saveAttr { attr with userLiked := some list, likes := some val },
        .attr { form with amount := some val }
          (some { attr with userLiked := some list, likes := some val })) := by
    simp only [operation, updateArtAttr, found, named, if_true, flipped]
    rfl
  rw [recorded_ok done]
  refine ⟨_, find_saveAttr found rfl, counts, shared, ?_⟩
  intro user
  rw [Option.getD_some, flips, members, toggles_concat]
  by_cases mine : userUuid = user
  · subst mine
    rw [if_pos ⟨rfl, named, rfl⟩]
    simp only [ne_eq, not_true, iff_false]
    omega
  · have others : ¬ TogglesLike form.articleUuid user (.updateArtAttr form userUuid) :=
      fun toggled => mine toggled.2.2
    simp [if_neg others, Ne.symm mine]

theorem Agrees.share {form : CommentChangeForm} (agrees : Agrees form.articleUuid (tables, history))
    (named : form.kind = some "share") (userUuid : String) :
    Agrees form.articleUuid
      (service.recorded.serve (tables, history) (.updateArtAttr form userUuid)).1 := by
  obtain ⟨attr, found, liked, shared, members⟩ := agrees
  obtain ⟨list, val, flipped, counts, -⟩ := toggle_spec shared userUuid
  have done : operation tables (.updateArtAttr form userUuid) =
      .ok (tables.saveAttr { attr with userShared := some list, shared := some val },
        .attr { form with amount := some val }
          (some { attr with userShared := some list, shared := some val })) := by
    simp only [operation, updateArtAttr, found, named, flipped]
    rfl
  rw [recorded_ok done]
  refine ⟨_, find_saveAttr found rfl, liked, counts, ?_⟩
  intro user
  rw [toggles_concat, if_neg (by simp [TogglesLike, named]), Nat.add_zero]
  exact members user

/-- What is neither a like nor a share leaves the counts and the lists alone. -/
theorem Agrees.other {form : CommentChangeForm} (agrees : Agrees form.articleUuid (tables, history))
    (like : form.kind ≠ some "like") (share : form.kind ≠ some "share") (userUuid : String) :
    Agrees form.articleUuid
      (service.recorded.serve (tables, history) (.updateArtAttr form userUuid)).1 := by
  have quiet : ∀ user, ¬ TogglesLike form.articleUuid user (.updateArtAttr form userUuid) :=
    fun user toggled => like toggled.2.1
  obtain ⟨attr, found, -⟩ := id agrees
  cases named : form.kind with
  | none =>
      have failed : operation tables (.updateArtAttr form userUuid) = .error .nullPointer := by
        simp only [operation, updateArtAttr, found, named]
        rfl
      exact agrees.failed failed quiet
  | some kind =>
      have noLike : kind ≠ "like" := fun same => like (named.trans (congrArg some same))
      have noShare : kind ≠ "share" := fun same => share (named.trans (congrArg some same))
      by_cases fav : kind = "fav"
      · have done : operation tables (.updateArtAttr form userUuid) =
            .ok (tables.saveAttr { attr with favorite := true },
              .attr form (some { attr with favorite := true })) := by
          simp only [operation, updateArtAttr, found, named, fav]
          rfl
        rw [recorded_ok done]
        apply agrees.quiet quiet
        intro other same
        rw [found] at same
        cases same
        exact ⟨_, find_saveAttr found rfl, rfl, rfl, rfl, rfl⟩
      · have done : operation tables (.updateArtAttr form userUuid) =
            .ok (tables, .attr form (some attr)) := by
          simp only [operation, updateArtAttr, found, named, noLike, noShare, fav, if_false]
          rfl
        exact agrees.ran done quiet rfl

/-- Toggles keep the counts and the lists of every article in agreement. -/
theorem Agrees.updateArtAttr (agrees : Agrees uuid (tables, history)) (form : CommentChangeForm)
    (userUuid : String) :
    Agrees uuid (service.recorded.serve (tables, history) (.updateArtAttr form userUuid)).1 := by
  by_cases here : uuid = form.articleUuid
  · subst here
    by_cases like : form.kind = some "like"
    · exact agrees.like like userUuid
    · by_cases share : form.kind = some "share"
      · exact agrees.share share userUuid
      · exact agrees.other like share userUuid
  · have quiet : ∀ user, ¬ TogglesLike uuid user (.updateArtAttr form userUuid) :=
      fun user toggled => here toggled.1.symm
    cases updated : ArticleRank.updateArtAttr tables form userUuid with
    | error error =>
        have failed : operation tables (.updateArtAttr form userUuid) = .error error := by
          rw [operation, updated]
          rfl
        exact agrees.failed failed quiet
    | ok done =>
        have ran : operation tables (.updateArtAttr form userUuid) =
            .ok (done.1, .attr done.2.1 done.2.2) := by
          rw [operation, updated]
          rfl
        exact agrees.ran ran quiet (updateArtAttr_other here updated)

/-! ## Histories -/

/-- The increments of a brief leave the counts of an article alone. -/
def LeavesCounts (uuid : String) (tables : Tables) : Request → Prop
  | .updateArtAttr _ _ => True
  | .updateArtBrief form =>
      form.articleUuid = uuid → (tables.artBriefRepo.find uuid).isSome →
        ∀ likeInc ∈ form.likeInc, ∀ shareInc ∈ form.shareInc,
          ∀ likes ∈ (tables.artAttrRepo.find uuid).bind ArticleAttr.likes,
            ∀ shared ∈ (tables.artAttrRepo.find uuid).bind ArticleAttr.shared,
              Idle likeInc likes ∧ Idle shareInc shared

instance (uuid : String) (tables : Tables) : DecidablePred (LeavesCounts uuid tables)
  | .updateArtAttr _ _ => inferInstanceAs (Decidable True)
  | .updateArtBrief form => inferInstanceAs (Decidable (form.articleUuid = uuid → _))

def withCounts (attr : ArticleAttr) (likes shared : Int) : ArticleAttr :=
  { attr with likes := some likes, shared := some shared }

/-- The increments of a brief, where all counts are given. -/
theorem updateArtBrief_done {form : ArticleForm} {brief : ArticleBrief} {attr : ArticleAttr}
    {likeInc shareInc likes shared : Int}
    (present : tables.artBriefRepo.find form.articleUuid = some brief)
    (found : tables.artAttrRepo.find form.articleUuid = some attr)
    (like : form.likeInc = some likeInc) (share : form.shareInc = some shareInc)
    (liked : attr.likes = some likes) (given : attr.shared = some shared) :
    ∃ briefs saved, operation tables (.updateArtBrief form) =
      .ok (⟨briefs, tables.artAttrRepo.save
        (withCounts attr (incremented likeInc likes) (incremented shareInc shared))⟩,
          .brief (some saved)) := by
  simp only [operation, updateArtBrief, present, found, like, share, liked, given, applyInc_some]
  exact ⟨_, _, rfl⟩

/-- Where the increments find both counts in agreement, they stay so if and only if they are
idle. -/
theorem Agrees.incremented_iff {form : ArticleForm} {brief : ArticleBrief} {attr : ArticleAttr}
    {likeInc shareInc : Int} (agrees : Agrees form.articleUuid (tables, history))
    (present : tables.artBriefRepo.find form.articleUuid = some brief)
    (found : tables.artAttrRepo.find form.articleUuid = some attr)
    (like : form.likeInc = some likeInc) (share : form.shareInc = some shareInc) :
    Agrees form.articleUuid (service.recorded.serve (tables, history) (.updateArtBrief form)).1 ↔
      Idle likeInc (attr.userLiked.getD []).length ∧
        Idle shareInc (attr.userShared.getD []).length := by
  obtain ⟨same, again, liked, shared, members⟩ := agrees
  obtain rfl : same = attr := Option.some.inj (again.symm.trans found)
  obtain ⟨briefs, saved, done⟩ :=
    updateArtBrief_done present found like share liked.counted shared.counted
  have stored := find_save_here found
    (rfl : (withCounts same (incremented likeInc (same.userLiked.getD []).length)
      (incremented shareInc (same.userShared.getD []).length)).articleUuid = same.articleUuid)
  rw [recorded_ok done, ← incremented_eq_self (Int.natCast_nonneg _),
    ← incremented_eq_self (Int.natCast_nonneg _)]
  constructor
  · rintro ⟨later, there, counts, shares, -⟩
    obtain rfl := Option.some.inj (stored.symm.trans there)
    exact ⟨Option.some.inj counts.counted, Option.some.inj shares.counted⟩
  · rintro ⟨sameLikes, sameShares⟩
    refine ⟨_, stored, ⟨congrArg some sameLikes, liked.nodup⟩,
      ⟨congrArg some sameShares, shared.nodup⟩, ?_⟩
    intro user
    rw [toggles_concat, if_neg (show ¬ TogglesLike _ user (.updateArtBrief form) from id),
      Nat.add_zero]
    exact members user

/-- The brief of the article itself is updated. -/
theorem Agrees.updateArtBrief_own {form : ArticleForm}
    (agrees : Agrees form.articleUuid (tables, history)) :
    Agrees form.articleUuid (service.recorded.serve (tables, history) (.updateArtBrief form)).1 ↔
      LeavesCounts form.articleUuid tables (.updateArtBrief form) := by
  have quiet : ∀ user, ¬ TogglesLike form.articleUuid user (.updateArtBrief form) := fun user => id
  cases present : tables.artBriefRepo.find form.articleUuid with
  | none =>
      have done : operation tables (.updateArtBrief form) = .ok (tables, .brief none) := by
        simp only [operation, ArticleRank.updateArtBrief, present]
        rfl
      refine iff_of_true (agrees.ran done quiet rfl) ?_
      intro _ found
      rw [present] at found
      cases found
  | some brief =>
      obtain ⟨attr, found, liked, shared, members⟩ := id agrees
      have counted := liked.counted
      have given := shared.counted
      cases like : form.likeInc with
      | none =>
          have failed : operation tables (.updateArtBrief form) = .error .nullPointer := by
            simp only [operation, ArticleRank.updateArtBrief, present, found, like]
            rfl
          refine iff_of_true (agrees.failed failed quiet) ?_
          intro _ _ likeInc same
          rw [like] at same
          cases same
      | some likeInc =>
          cases share : form.shareInc with
          | none =>
              have failed : operation tables (.updateArtBrief form) = .error .nullPointer := by
                simp only [operation, ArticleRank.updateArtBrief, present, found, like, share,
                  counted, applyInc_some]
                rfl
              refine iff_of_true (agrees.failed failed quiet) ?_
              intro _ _ _ _ shareInc same
              rw [share] at same
              cases same
          | some shareInc =>
              rw [agrees.incremented_iff present found like share]
              constructor
              · intro idle _ _ _ like' _ share' _ sameLikes _ sameShares
                rw [like] at like'
                rw [share] at share'
                rw [found, Option.bind_some, counted] at sameLikes
                rw [found, Option.bind_some, given] at sameShares
                cases like'
                cases share'
                cases sameLikes
                cases sameShares
                exact idle
              · intro leaves
                apply leaves rfl (by rw [present]; rfl) likeInc like shareInc share
                · rw [found]
                  exact counted
                · rw [found]
                  exact given

theorem Agrees.updateArtBrief (agrees : Agrees uuid (tables, history)) (form : ArticleForm) :
    Agrees uuid (service.recorded.serve (tables, history) (.updateArtBrief form)).1 ↔
      LeavesCounts uuid tables (.updateArtBrief form) := by
  by_cases here : form.articleUuid = uuid
  · subst here
    exact agrees.updateArtBrief_own
  · have quiet : ∀ user, ¬ TogglesLike uuid user (.updateArtBrief form) := fun user => id
    have apart : uuid ≠ form.articleUuid := fun same => here same.symm
    refine iff_of_true ?_ (fun same => absurd same here)
    cases updated : ArticleRank.updateArtBrief tables form with
    | error error =>
        have failed : operation tables (.updateArtBrief form) = .error error := by
          rw [operation, updated]
          rfl
        exact agrees.failed failed quiet
    | ok done =>
        have ran : operation tables (.updateArtBrief form) = .ok (done.1, .brief done.2) := by
          rw [operation, updated]
          rfl
        exact agrees.ran ran quiet (updateArtBrief_other apart updated)

/-- An article that starts with `ArticleAttr.new` and was not asked for yet. -/
theorem agrees_new (created : tables.artAttrRepo.find uuid = some (ArticleAttr.new uuid)) :
    Agrees uuid (tables, []) := by
  refine ⟨_, created, ⟨rfl, List.nodup_nil⟩, ⟨rfl, List.nodup_nil⟩, ?_⟩
  intro user
  exact iff_of_false List.not_mem_nil (by simp [toggles])

private theorem Agrees.serve_iff (uuid : String)
    (state : Tables × List (Request × Except Exception Result)) (request : Request)
    (agrees : Agrees uuid state) :
    Agrees uuid (service.recorded.serve state request).1 ↔ LeavesCounts uuid state.1 request := by
  obtain ⟨tables, history⟩ := state
  cases request with
  | updateArtAttr form userUuid => exact iff_of_true (agrees.updateArtAttr form userUuid) trivial
  | updateArtBrief form => exact agrees.updateArtBrief form

/-- **The counts of an article agree with its lists throughout a history exactly when no increment
of its brief moves one of them.** -/
theorem agrees_iff_leavesCounts (uuid : String) (tables : Tables)
    (created : tables.artAttrRepo.find uuid = some (ArticleAttr.new uuid))
    (requests : List Request) :
    service.recorded.Along (fun _ _ after _ => Agrees uuid after) (tables, []) requests ↔
      service.recorded.Meets (fun state request => LeavesCounts uuid state.1 request)
        (tables, []) requests := by
  apply Service.along_iff_meets (Agrees.serve_iff uuid) ?_ (agrees_new created)
  intro state request agrees leaves
  exact (Agrees.serve_iff uuid state request agrees).mpr leaves

/-- An article of which nothing is stored but its attributes and its brief. -/
def oneArticle (uuid : String) : Tables where
  artBriefRepo := Repository.empty.save
    { articleUuid := uuid, authorUuid := publicUuid, tagHash := "", tag := none, prevArticle := none
      nextArticle := none, topArticle := none, contentBrief := none, favorite := false
      hasArticle := false }
  artAttrRepo := Repository.empty.save (ArticleAttr.new uuid)

theorem oneArticle_agrees :
    service.recorded.Along (fun _ _ after _ => Agrees "post" after) (oneArticle "post", [])
      [.updateArtAttr ⟨some "like", none, false, none, "post"⟩ "u",
        .updateArtBrief ⟨"post", some 0, some (-1), none, none, none⟩,
        .updateArtAttr ⟨some "like", none, false, none, "post"⟩ "u"] :=
  (agrees_iff_leavesCounts "post" (oneArticle "post") rfl _).mpr (by decide +kernel)

/-- An increment counts a like that no user is listed for. -/
theorem increment_disagrees :
    ¬ service.recorded.Along (fun _ _ after _ => Agrees "post" after) (oneArticle "post", [])
      [.updateArtBrief ⟨"post", some 1, some 0, none, none, none⟩] := by
  rintro ⟨agrees, -⟩
  exact absurd agrees.counted (by decide +kernel)

end Tvntd.ArticleRank
