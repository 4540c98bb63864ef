import Mathlib.Data.List.Infix
import Mathlib.Data.List.Nodup
import Mathlib.Data.Option.Basic

/-! # Likes of a comment

The class `CommentAttr` of `tvntd/stores/CommentStore.jsx`. The users who liked
or shared a comment are kept in one object, with their number under the key
`count` beside their uuids. `_updateCount` makes a new object where the server
sends no user; otherwise it adds the users that were sent to those of the object
before, which must hold none for the view to be what was sent.
-/

namespace Tvntd.CommentAttr

abbrev Uuid := String

structure User where
  userUuid : Uuid
  deriving DecidableEq

/-- `UserStore.data`: the users known by now, each under its uuid. -/
structure UserStore where
  userMap : Uuid → Option User
  userSelf : Option User
  keyed : ∀ uuid user, userMap uuid = some user → user.userUuid = uuid

/-- `getUserByUuid` -/
def UserStore.getUserByUuid (store : UserStore) (uuid : Uuid) : Option User := store.userMap uuid

/-- What is under the key `count`: a number, or what an entry for the uuid `count` leaves there. -/
inductive Count where
  | num (value : Nat)
  | nan
  | user (entry : Option User)
  deriving DecidableEq

/-- `count++` -/
def Count.incr : Count → Count
  | .num value => .num (value + 1)
  | .nan => .nan
  | .user _ => .nan

/-- `count != null` -/
def Count.isSet : Count → Bool
  | .num _ => true
  | .nan => true
  | .user entry => entry.isSome

/-- `userLiked` and `userShared`: the properties of the object in the order they were first set. -/
structure Users where
  count : Count
  users : List (Uuid × Option User)

/-- `{ count: 0 }` -/
def noUsers : Users := ⟨.num 0, []⟩

/-- A property other than `count`. -/
def put (users : List (Uuid × Option User)) (uuid : Uuid) (user : Option User) :
    List (Uuid × Option User) :=
  if users.any fun entry => entry.1 = uuid then
    users.map fun entry => if entry.1 = uuid then (uuid, user) else entry
  else users ++ [(uuid, user)]

/-- `result[uuid] = user` -/
def Users.set (result : Users) (uuid : Uuid) (user : Option User) : Users :=
  if uuid = "count" then { result with count := .user user }
  else { result with users := put result.users uuid user }

/-- `result[uuid] != null` -/
def Users.has (result : Users) (uuid : Uuid) : Bool :=
  if uuid = "count" then result.count.isSet
  else result.users.any fun entry => entry.1 = uuid && entry.2.isSome

/-- The body of the loop in `_updateCount`. -/
def countUser (store : UserStore) (result : Users) (uuid : Uuid) : Users :=
  Users.set { result with count := result.count.incr } uuid (store.getUserByUuid uuid)

/-- `_updateCount`; a list may be absent. -/
def updateCount (store : UserStore) (result : Option Users) (list : Option (List Uuid)) : Users :=
  let sent := list.getD []
  sent.foldl (countUser store) (if sent.isEmpty then noUsers else result.getD noUsers)

/-- What the server sends about a comment. -/
structure Brief (Id Score : Type*) where
  articleUuid : Uuid
  commentId : Id
  userLiked : Option (List Uuid)
  userShared : Option (List Uuid)
  score : Score
  favorite : Bool

end CommentAttr

/-- `CommentAttr` -/
structure CommentAttr (Id Score : Type*) where
  articleUuid : CommentAttr.Uuid
  commentId : Id
  userLiked : CommentAttr.Users
  userShared : CommentAttr.Users
  score : Score
  favorite : Bool

namespace CommentAttr

variable {Id Score : Type*}

/-- The constructor: `updateAttr` on an object without users. -/
def ofBrief (store : UserStore) (brief : Brief Id Score) : CommentAttr Id Score where
  articleUuid := brief.articleUuid
  commentId := brief.commentId
  userLiked := updateCount store none brief.userLiked
  userShared := updateCount store none brief.userShared
  score := brief.score
  favorite := brief.favorite

/-- `updateAttr` -/
def updateAttr (store : UserStore) (comment : CommentAttr Id Score) (attr : Brief Id Score) :
    CommentAttr Id Score :=
  { comment with
    userLiked := updateCount store (some comment.userLiked) attr.userLiked
    userShared := updateCount store (some comment.userShared) attr.userShared
    score := attr.score
    favorite := attr.favorite }

def getLikedCount (comment : CommentAttr Id Score) : Count := comment.userLiked.count

def getSharedCount (comment : CommentAttr Id Score) : Count := comment.userShared.count

/-- `didILikeIt`; without a user of its own the store makes it fail. -/
def didILikeIt (store : UserStore) (comment : CommentAttr Id Score) : Option Bool :=
  store.userSelf.map fun me => comment.userLiked.has me.userUuid

inductive Kind where
  | like
  | share

/-- `userListIter`: the users handed to `iterFn`. -/
def userListIter (comment : CommentAttr Id Score) (kind : Kind) : List User :=
  let list := match kind with
    | .like => comment.userLiked
    | .share => comment.userShared
  list.users.filterMap Prod.snd

/-! ## Updates -/

/-- An update of the server, and the users known when it arrives. -/
structure Update (Id Score : Type*) where
  store : UserStore
  attr : Brief Id Score

namespace Update

variable (update : Update Id Score)

def liked : List Uuid := update.attr.userLiked.getD []

def shared : List Uuid := update.attr.userShared.getD []

end Update

/-- The first update makes the object. -/
def receive (comment : Option (CommentAttr Id Score)) (update : Update Id Score) :
    CommentAttr Id Score :=
  match comment with
  | none => ofBrief update.store update.attr
  | some comment => comment.updateAttr update.store update.attr

/-- The object after updates. -/
def after (updates : List (Update Id Score)) : Option (CommentAttr Id Score) :=
  updates.foldl (fun comment update => some (receive comment update)) none

/-- A list of users as it was sent: their number, and each of them reported. -/
def Shows (count : Count) (reported : List User) (sent : List Uuid) : Prop :=
  count = .num sent.length ∧ (reported.map User.userUuid).Perm sent

/-- The object shows the lists of the update. -/
structure Reports (comment : CommentAttr Id Score) (update : Update Id Score) : Prop where
  liked : Shows comment.getLikedCount (comment.userListIter .like) update.liked
  shared : Shows comment.getSharedCount (comment.userListIter .share) update.shared
  mine : ∀ me, update.store.userSelf = some me →
    comment.didILikeIt update.store = some (decide (me.userUuid ∈ update.liked))

/-- The object shows the lists of every update once it has it. -/
def ReportsAll (updates : List (Update Id Score)) : Prop :=
  ∀ before update, before ++ [update] <+: updates →
    ∃ comment, after (before ++ [update]) = some comment ∧ Reports comment update

/-- Users are sent behind none, and are all known. No uuid is the word `count`; the server makes
them, so that none is a name that objects inherit either. -/
def ListFits (store : UserStore) (previous sent : List Uuid) : Prop :=
  sent = [] ∨ previous = [] ∧ ∀ uuid ∈ sent, uuid ≠ "count" ∧ (store.userMap uuid).isSome

/-- The same of both lists, and of the user at the client. -/
structure Fits (before : List (Update Id Score)) (update : Update Id Score) : Prop where
  liked : ListFits update.store (before.getLast?.elim [] Update.liked) update.liked
  shared : ListFits update.store (before.getLast?.elim [] Update.shared) update.shared
  mine : ∀ me, update.store.userSelf = some me → me.userUuid ≠ "count"

def FitsAll (updates : List (Update Id Score)) : Prop :=
  ∀ before update, before ++ [update] <+: updates → Fits before update

instance (store : UserStore) (previous sent : List Uuid) :
    Decidable (ListFits store previous sent) := inferInstanceAs (Decidable (_ ∨ _))

instance (store : UserStore) :
    Decidable (∀ me, store.userSelf = some me → me.userUuid ≠ "count") :=
  match store.userSelf with
  | none => isTrue fun _ none => nomatch none
  | some me => decidable_of_iff (me.userUuid ≠ "count")
      ⟨fun named _ same => Option.some.inj same ▸ named, fun named => named me rfl⟩

instance (before : List (Update Id Score)) (update : Update Id Score) :
    Decidable (Fits before update) :=
  decidable_of_iff (_ ∧ _ ∧ _)
    ⟨fun fits => ⟨fits.1, fits.2.1, fits.2.2⟩, fun fits => ⟨fits.liked, fits.shared, fits.mine⟩⟩

/-- No list has a user twice. -/
def DuplicateFree (updates : List (Update Id Score)) : Prop :=
  ∀ update ∈ updates, update.liked.Nodup ∧ update.shared.Nodup

instance (updates : List (Update Id Score)) : Decidable (DuplicateFree updates) :=
  inferInstanceAs (Decidable (∀ update ∈ updates, _))

/-! ## One list -/

variable {store : UserStore} {result : Users} {held : Option Users} {sent previous : List Uuid}
  {list : Option (List Uuid)}

private theorem count_countUser (store : UserStore) (result : Users) (uuid : Uuid) :
    (countUser store result uuid).count =
      if uuid = "count" then .user (store.getUserByUuid uuid) else result.count.incr := by
  unfold countUser Users.set
  split <;> rfl

/-- A loop that leaves a number began with one, and met no uuid `count`. -/
theorem count_of_foldl {total : Nat}
    (counted : (sent.foldl (countUser store) result).count = .num total) :
    ∃ first, result.count = .num first ∧ total = first + sent.length ∧ "count" ∉ sent := by
  induction sent generalizing result with
  | nil => exact ⟨total, counted, rfl, List.not_mem_nil⟩
  | cons uuid rest ih =>
      obtain ⟨next, later, sum, plain⟩ := ih counted
      rw [count_countUser] at later
      by_cases word : uuid = "count"
      · rw [if_pos word] at later
        cases later
      · rw [if_neg word] at later
        cases before : result.count with
        | num first =>
            rw [before, Count.incr, Count.num.injEq] at later
            refine ⟨first, rfl, ?_, ?_⟩
            · rw [List.length_cons]
              omega
            · rw [List.mem_cons, not_or]
              exact ⟨fun same => word same.symm, plain⟩
        | nan =>
            rw [before] at later
            cases later
        | user user =>
            rw [before] at later
            cases later

private theorem put_of_fresh {users : List (Uuid × Option User)} {uuid : Uuid} {user : Option User}
    (fresh : ∀ entry ∈ users, entry.1 ≠ uuid) : put users uuid user = users ++ [(uuid, user)] := by
  have none : (users.any fun entry => entry.1 = uuid) = false := by
    rw [List.any_eq_false]
    intro entry member
    simpa using fresh entry member
  rw [put, none, if_neg Bool.false_ne_true]

/-- The loop over users that the object does not have. -/
theorem foldl_countUser {users : List (Uuid × Option User)} {first : Nat} (nodup : sent.Nodup)
    (plain : "count" ∉ sent) (fresh : ∀ entry ∈ users, entry.1 ∉ sent) :
    sent.foldl (countUser store) ⟨.num first, users⟩ =
      ⟨.num (first + sent.length),
        users ++ sent.map fun uuid => (uuid, store.getUserByUuid uuid)⟩ := by
  induction sent generalizing users first with
  | nil => simp
  | cons uuid rest ih =>
      rw [List.mem_cons, not_or] at plain
      obtain ⟨alone, nodup⟩ := List.nodup_cons.mp nodup
      have stored : countUser store ⟨.num first, users⟩ uuid =
          ⟨.num (first + 1), users ++ [(uuid, store.getUserByUuid uuid)]⟩ := by
        have new : ∀ entry ∈ users, entry.1 ≠ uuid := fun entry member same =>
          fresh entry member (same ▸ List.mem_cons_self)
        rw [countUser, Users.set, if_neg (Ne.symm plain.1), put_of_fresh new]
        rfl
      have later : ∀ entry ∈ users ++ [(uuid, store.getUserByUuid uuid)], entry.1 ∉ rest := by
        intro entry member
        rcases List.mem_append.mp member with old | own
        · exact fun inside => fresh entry old (List.mem_cons_of_mem _ inside)
        · rw [List.mem_singleton.mp own]
          exact alone
      rw [List.foldl_cons, stored, ih nodup plain.2 later, List.length_cons, List.map_cons,
        List.append_assoc, List.singleton_append, Nat.add_assoc, Nat.add_comm 1]

/-- An object holds no user exactly where the last list it took was empty. -/
structure Holds (held : Option Users) (previous : List Uuid) : Prop where
  empty : previous = [] → held.getD noUsers = noUsers
  filled : previous ≠ [] → (held.getD noUsers).count ≠ .num 0

private theorem holds_none : Holds none [] := ⟨fun _ => rfl, fun filled => (filled rfl).elim⟩

theorem updateCount_of_nil (empty : list.getD [] = []) : updateCount store held list = noUsers := by
  simp [updateCount, empty]

private theorem updateCount_of_ne_nil (filled : list.getD [] ≠ []) : updateCount store held list =
    (list.getD []).foldl (countUser store) (held.getD noUsers) := by
  simp [updateCount, filled]

theorem holds_updateCount (store : UserStore) (held : Option Users) (list : Option (List Uuid)) :
    Holds (some (updateCount store held list)) (list.getD []) where
  empty := updateCount_of_nil
  filled := by
    intro filled counted
    rw [Option.getD_some, updateCount_of_ne_nil filled] at counted
    obtain ⟨first, -, sum, -⟩ := count_of_foldl counted
    have positive := List.length_pos_iff.mpr filled
    omega

/-- What a fitting list makes of the object. -/
theorem updateCount_of_fits (holds : Holds held previous) (nodup : (list.getD []).Nodup)
    (fits : ListFits store previous (list.getD [])) : updateCount store held list =
      ⟨.num (list.getD []).length,
        (list.getD []).map fun uuid => (uuid, store.getUserByUuid uuid)⟩ := by
  by_cases empty : list.getD [] = []
  · rw [updateCount_of_nil empty, empty]
    rfl
  · obtain ⟨none, known⟩ := fits.resolve_left empty
    have plain : "count" ∉ list.getD [] := fun member => (known _ member).1 rfl
    rw [updateCount_of_ne_nil empty, holds.empty none, noUsers,
      foldl_countUser nodup plain (by simp), Nat.zero_add, List.nil_append]

private theorem reported_of_known (known : ∀ uuid ∈ sent, (store.userMap uuid).isSome) :
    ((sent.map fun uuid => (uuid, store.getUserByUuid uuid)).filterMap Prod.snd).map
      User.userUuid = sent := by
  induction sent with
  | nil => rfl
  | cons uuid rest ih =>
      obtain ⟨user, found⟩ := Option.isSome_iff_exists.mp (known uuid List.mem_cons_self)
      have later := ih fun other member => known other (List.mem_cons_of_mem _ member)
      have image : Prod.snd (uuid, store.getUserByUuid uuid) = some user := found
      rw [List.map_cons, List.filterMap_cons_some image, List.map_cons, later,
        store.keyed uuid user found]

/-- **One list.** The object shows it exactly where it fits behind the list before. -/
theorem shows_iff (store : UserStore) (holds : Holds held previous) (nodup : (list.getD []).Nodup) :
    Shows (updateCount store held list).count
        ((updateCount store held list).users.filterMap Prod.snd) (list.getD []) ↔
      ListFits store previous (list.getD []) := by
  constructor
  · rintro ⟨counted, reported⟩
    by_cases empty : list.getD [] = []
    · exact .inl empty
    · rw [updateCount_of_ne_nil empty] at counted reported
      obtain ⟨first, began, sum, plain⟩ := count_of_foldl counted
      obtain rfl : first = 0 := by omega
      have none : previous = [] := by
        by_contra filled
        exact holds.filled filled began
      refine .inr ⟨none, fun uuid member => ⟨fun word => plain (word ▸ member), ?_⟩⟩
      rw [holds.empty none, noUsers, foldl_countUser nodup plain (by simp), List.nil_append]
        at reported
      obtain ⟨user, listed, named⟩ := List.mem_map.mp (reported.mem_iff.mpr member)
      obtain ⟨entry, inside, found⟩ := List.mem_filterMap.mp listed
      obtain ⟨other, -, rfl⟩ := List.mem_map.mp inside
      have own : user.userUuid = other := store.keyed other user found
      rw [← named, own]
      exact Option.isSome_iff_exists.mpr ⟨user, found⟩
  · intro fits
    rw [updateCount_of_fits holds nodup fits]
    refine ⟨rfl, ?_⟩
    rcases fits with empty | ⟨-, known⟩
    · rw [empty]
      exact .refl _
    · dsimp only
      rw [reported_of_known fun uuid member => (known uuid member).2]

/-- `didILikeIt` reads a fitting list, unless it looks under `count`. -/
theorem has_iff (holds : Holds held previous) (nodup : (list.getD []).Nodup)
    (fits : ListFits store previous (list.getD [])) (me : Uuid) :
    (updateCount store held list).has me = decide (me ∈ list.getD []) ↔ me ≠ "count" := by
  have plain : "count" ∉ list.getD [] := by
    rcases fits with empty | ⟨-, known⟩
    · simp [empty]
    · exact fun member => (known _ member).1 rfl
  rw [updateCount_of_fits holds nodup fits, Users.has]
  by_cases word : me = "count"
  · simp [word, plain, Count.isSet]
  · refine iff_of_true ?_ word
    rw [if_neg word, Bool.eq_iff_iff, decide_eq_true_iff, List.any_eq_true]
    constructor
    · rintro ⟨entry, member, own⟩
      obtain ⟨uuid, sent, rfl⟩ := List.mem_map.mp member
      simp only [Bool.and_eq_true, decide_eq_true_eq] at own
      exact own.1 ▸ sent
    · intro member
      refine ⟨_, List.mem_map_of_mem member, ?_⟩
      rcases fits with empty | ⟨-, known⟩
      · rw [empty] at member
        exact absurd member List.not_mem_nil
      · have found : (store.getUserByUuid me).isSome := (known me member).2
        simpa using found

/-! ## All updates -/

variable {before updates : List (Update Id Score)} {update : Update Id Score}

private theorem after_concat (before : List (Update Id Score)) (update : Update Id Score) :
    after (before ++ [update]) = some (receive (after before) update) := by
  rw [after, List.foldl_append]
  rfl

theorem userLiked_receive (comment : Option (CommentAttr Id Score)) (update : Update Id Score) :
    (receive comment update).userLiked =
      updateCount update.store (comment.map CommentAttr.userLiked) update.attr.userLiked := by
  cases comment <;> rfl

theorem userShared_receive (comment : Option (CommentAttr Id Score)) (update : Update Id Score) :
    (receive comment update).userShared =
      updateCount update.store (comment.map CommentAttr.userShared) update.attr.userShared := by
  cases comment <;> rfl

/-- After any updates the two objects hold users exactly where the last update sent some. -/
theorem holds_after (before : List (Update Id Score)) :
    Holds ((after before).map CommentAttr.userLiked) (before.getLast?.elim [] Update.liked) ∧
      Holds ((after before).map CommentAttr.userShared)
        (before.getLast?.elim [] Update.shared) := by
  rcases List.eq_nil_or_concat before with rfl | ⟨earlier, last, rfl⟩
  · exact ⟨holds_none, holds_none⟩
  · rw [List.concat_eq_append, after_concat, List.getLast?_concat, Option.map_some,
      Option.map_some, userLiked_receive, userShared_receive]
    exact ⟨holds_updateCount .., holds_updateCount ..⟩

/-- **One update.** The object shows what was sent exactly where it fits. -/
theorem reports_iff (nodup : update.liked.Nodup ∧ update.shared.Nodup) :
    Reports (receive (after before) update) update ↔ Fits before update := by
  obtain ⟨liked, shared⟩ := holds_after before
  have likes := shows_iff update.store liked nodup.1
  have shares := shows_iff update.store shared nodup.2
  rw [← userLiked_receive] at likes
  rw [← userShared_receive] at shares
  have reads : ListFits update.store (before.getLast?.elim [] Update.liked) update.liked →
      ∀ me : User, (receive (after before) update).userLiked.has me.userUuid =
        decide (me.userUuid ∈ update.liked) ↔ me.userUuid ≠ "count" := by
    intro fits me
    rw [userLiked_receive]
    exact has_iff liked nodup.1 fits me.userUuid
  constructor
  · intro reports
    have fits := likes.mp reports.liked
    refine ⟨fits, shares.mp reports.shared, ?_⟩
    intro me own
    have answer := reports.mine me own
    rw [didILikeIt, own, Option.map_some, Option.some.injEq] at answer
    exact (reads fits me).mp answer
  · intro fits
    refine ⟨likes.mpr fits.liked, shares.mpr fits.shared, ?_⟩
    intro me own
    rw [didILikeIt, own, Option.map_some, Option.some.injEq]
    exact (reads fits.liked me).mpr (fits.mine me own)

/-- **Updates of a comment.** The object shows every update exactly where users are only sent after
an update without users, and all of them are known. -/
theorem reportsAll_iff_fitsAll (updates : List (Update Id Score))
    (duplicateFree : DuplicateFree updates) : ReportsAll updates ↔ FitsAll updates := by
  have each : ∀ before update, before ++ [update] <+: updates →
      ((∃ comment, after (before ++ [update]) = some comment ∧ Reports comment update) ↔
        Fits before update) := by
    intro before update initial
    have member : update ∈ updates := initial.subset (by simp)
    rw [← reports_iff (duplicateFree update member), after_concat]
    simp
  exact forall_congr' fun before => forall_congr' fun update =>
    forall_congr' fun initial => each before update initial

/-- Each update, with those before it. -/
theorem fitsAll_iff (updates : List (Update Id Score)) :
    FitsAll updates ↔ ∀ i : Fin updates.length, Fits (updates.take i) updates[i] := by
  constructor
  · intro fits i
    apply fits
    rw [Fin.getElem_fin, List.take_append_getElem]
    exact List.take_prefix _ _
  · rintro fits before update ⟨rest, rfl⟩
    have here := fits ⟨before.length, by simp⟩
    simpa [List.take_append_of_le_length] using here

/-- A client with two known users. -/
def twoUsers : UserStore where
  userMap := fun uuid => if uuid = "u" ∨ uuid = "v" then some ⟨uuid⟩ else none
  userSelf := some ⟨"u"⟩
  keyed := by
    intro uuid user found
    rw [Option.ite_none_right_eq_some, Option.some.injEq] at found
    exact found.2 ▸ rfl

/-- An update of the likes alone. -/
def likedBy (users : List Uuid) : Update Nat Nat := ⟨twoUsers, ⟨"a", 0, some users, none, 0, false⟩⟩

/-- Both users like the comment, then none, then the first one again. -/
theorem reportsAll_iff_fitsAll_three :
    ReportsAll [likedBy ["u", "v"], likedBy [], likedBy ["u"]] :=
  (reportsAll_iff_fitsAll _ (by decide)).mpr ((fitsAll_iff _).mpr (by decide))

/-- A second user likes the comment: the first one is counted twice. -/
theorem secondLike_not_reportsAll : DuplicateFree [likedBy ["u"], likedBy ["u", "v"]] ∧
    ¬ ReportsAll [likedBy ["u"], likedBy ["u", "v"]] := by
  refine ⟨by decide, fun reports => ?_⟩
  obtain ⟨comment, made, shown⟩ := reports [likedBy ["u"]] (likedBy ["u", "v"])
    (List.prefix_refl _)
  rw [after_concat, Option.some.injEq] at made
  subst made
  exact absurd shown.liked.1 (by decide)

end CommentAttr
end Tvntd
