import Mathlib.Data.List.Basic
import Mathlib.Data.List.Nodup
import Mathlib.Tactic.Common

/-! # Following and connecting profiles

A profile keeps three lists of uuids: those it is connected to, those it follows
and those that follow it. Every operation edits the lists of two profiles, the
one it is called on and its peer; two profiles that follow each other become
connected and no longer follow.
-/

namespace Tvntd.Profile

/-! ## Lists without duplicates -/

section Lists

variable {Item : Type} [DecidableEq Item]

def isInList : List Item → Item → Option Item
  | [], _ => none
  | elm :: rest, item => if elm = item then some elm else isInList rest item

/-- The element removed, and what is left. -/
def removeFrom : List Item → Item → Option Item × List Item
  | [], _ => (none, [])
  | elm :: rest, item =>
      if elm = item then (some elm, rest)
      else
        let later := removeFrom rest item
        (later.1, elm :: later.2)

def addUnique (list : List Item) (item : Item) : List Item :=
  if isInList list item = none then list ++ [item] else list

private theorem isInList_eq (list : List Item) (item : Item) :
    isInList list item = if item ∈ list then some item else none := by
  induction list with
  | nil => rfl
  | cons elm rest ih =>
      by_cases same : elm = item
      · simp [isInList, same]
      · simp [isInList, same, Ne.symm same, ih]

@[simp] theorem isInList_eq_none {list : List Item} {item : Item} :
    isInList list item = none ↔ item ∉ list := by
  rw [isInList_eq]
  split
  case isTrue inside => simp [inside]
  case isFalse outside => simp [outside]

theorem removeFrom_eq (list : List Item) (item : Item) :
    (removeFrom list item).2 = list.erase item := by
  induction list with
  | nil => rfl
  | cons elm rest ih =>
      by_cases same : elm = item
      · simp [removeFrom, same]
      · simp [removeFrom, same, ih]

@[simp] theorem mem_addUnique {list : List Item} {item other : Item} :
    other ∈ addUnique list item ↔ other ∈ list ∨ other = item := by
  unfold addUnique
  split
  case isTrue => simp
  case isFalse inside =>
    constructor
    · exact Or.inl
    · rintro (held | rfl)
      · exact held
      · simpa using inside

theorem nodup_addUnique {list : List Item} (nodup : list.Nodup) (item : Item) :
    (addUnique list item).Nodup := by
  unfold addUnique
  split
  case isTrue outside =>
    rw [← List.concat_eq_append]
    exact nodup.concat (isInList_eq_none.mp outside)
  case isFalse => exact nodup

theorem mem_removeFrom {list : List Item} (nodup : list.Nodup) {item other : Item} :
    other ∈ (removeFrom list item).2 ↔ other ∈ list ∧ other ≠ item := by
  rw [removeFrom_eq, nodup.mem_erase_iff]
  exact and_comm

theorem nodup_removeFrom {list : List Item} (nodup : list.Nodup) (item : Item) :
    (removeFrom list item).2.Nodup := by
  rw [removeFrom_eq]
  exact nodup.erase item

end Lists

/-! ## Profiles -/

inductive Relation where
  | connect
  | follow
  | follower
deriving DecidableEq

/-- The live profiles with their uuids and lists. -/
structure Profiles (Ref : Type) where
  userUuid : Ref → String
  list : Ref → Relation → List String

variable {Ref : Type} [DecidableEq Ref]

namespace Profiles

def setList (profiles : Profiles Ref) (ref : Ref) (relation : Relation) (list : List String) :
    Profiles Ref :=
  { profiles with
    list := fun other kind =>
      if other = ref ∧ kind = relation then list else profiles.list other kind }

def findUuid (profiles : Profiles Ref) (ref : Ref) (src : Relation) (item : String) :
    Option String :=
  isInList (profiles.list ref src) item

def removeUuid (profiles : Profiles Ref) (ref : Ref) (src : Relation) (giving : String) :
    Profiles Ref :=
  profiles.setList ref src (removeFrom (profiles.list ref src) giving).2

def addUuidList (profiles : Profiles Ref) (ref : Ref) (src : Relation) (add : String) :
    Profiles Ref :=
  profiles.setList ref src (addUnique (profiles.list ref src) add)

def cleanupAfterConnect (profiles : Profiles Ref) (me peer : Ref) : Profiles Ref :=
  let myUuid := profiles.userUuid me
  let peerUuid := profiles.userUuid peer
  let profiles := profiles.removeUuid peer .follow myUuid
  let profiles := profiles.removeUuid peer .follower myUuid
  let profiles := profiles.removeUuid me .follow peerUuid
  profiles.removeUuid me .follower peerUuid

def followProfile (profiles : Profiles Ref) (me peer : Ref) : Profiles Ref :=
  let myUuid := profiles.userUuid me
  let peerUuid := profiles.userUuid peer
  if myUuid = peerUuid then profiles
  else if profiles.findUuid peer .follow myUuid ≠ none then
    let profiles := profiles.addUuidList me .connect peerUuid
    let profiles := profiles.addUuidList peer .connect myUuid
    profiles.cleanupAfterConnect me peer
  else if profiles.findUuid me .connect peerUuid = none ∧
      profiles.findUuid peer .connect myUuid = none then
    let profiles := profiles.addUuidList me .follow peerUuid
    profiles.addUuidList peer .follower myUuid
  else profiles

/-- Connects the two if the peer agrees, and follows the peer if it does not. -/
def connectProfile (profiles : Profiles Ref) (me peer : Ref) : Profiles Ref :=
  let myUuid := profiles.userUuid me
  let peerUuid := profiles.userUuid peer
  if myUuid = peerUuid then profiles
  else if profiles.findUuid peer .follow myUuid ≠ none then
    let profiles := profiles.addUuidList me .connect peerUuid
    let profiles := profiles.addUuidList peer .connect myUuid
    profiles.cleanupAfterConnect me peer
  else if profiles.findUuid peer .connect myUuid ≠ none then
    let profiles := profiles.addUuidList me .connect peerUuid
    profiles.cleanupAfterConnect me peer
  else profiles.followProfile me peer

def unConnectProfile (profiles : Profiles Ref) (me peer : Ref) : Profiles Ref :=
  let profiles := profiles.removeUuid peer .connect (profiles.userUuid me)
  profiles.removeUuid me .connect (profiles.userUuid peer)

def unfollowProfile (profiles : Profiles Ref) (me peer : Ref) : Profiles Ref :=
  let profiles := profiles.removeUuid me .follow (profiles.userUuid peer)
  profiles.removeUuid peer .follower (profiles.userUuid me)

/-! ## What an edit changes -/

def NoDuplicates (profiles : Profiles Ref) : Prop :=
  ∀ ref relation, (profiles.list ref relation).Nodup

@[simp] theorem addUuidList_userUuid (profiles : Profiles Ref) (ref : Ref) (src : Relation)
    (add : String) : (profiles.addUuidList ref src add).userUuid = profiles.userUuid := rfl

@[simp] theorem removeUuid_userUuid (profiles : Profiles Ref) (ref : Ref) (src : Relation)
    (giving : String) : (profiles.removeUuid ref src giving).userUuid = profiles.userUuid := rfl

@[simp] theorem mem_addUuidList {profiles : Profiles Ref} {ref other : Ref}
    {src kind : Relation} {add uuid : String} :
    uuid ∈ (profiles.addUuidList ref src add).list other kind ↔
      uuid ∈ profiles.list other kind ∨ (other = ref ∧ kind = src ∧ uuid = add) := by
  by_cases here : other = ref ∧ kind = src
  · obtain ⟨rfl, rfl⟩ := here
    simp [addUuidList, setList]
  · have apart : ¬ (other = ref ∧ kind = src ∧ uuid = add) := fun same => here ⟨same.1, same.2.1⟩
    simp only [addUuidList, setList, if_neg here, apart, or_false]

private theorem NoDuplicates.addUuidList {profiles : Profiles Ref} (nodup : profiles.NoDuplicates)
    (ref : Ref) (src : Relation) (add : String) :
    (profiles.addUuidList ref src add).NoDuplicates := by
  intro other kind
  by_cases here : other = ref ∧ kind = src
  · simp only [Profiles.addUuidList, setList, if_pos here]
    exact nodup_addUnique (nodup ref src) add
  · simp only [Profiles.addUuidList, setList, if_neg here]
    exact nodup other kind

theorem NoDuplicates.mem_removeUuid {profiles : Profiles Ref} (nodup : profiles.NoDuplicates)
    {ref other : Ref} {src kind : Relation} {giving uuid : String} :
    uuid ∈ (profiles.removeUuid ref src giving).list other kind ↔
      uuid ∈ profiles.list other kind ∧ ¬ (other = ref ∧ kind = src ∧ uuid = giving) := by
  by_cases here : other = ref ∧ kind = src
  · obtain ⟨rfl, rfl⟩ := here
    simp [Profiles.removeUuid, setList, mem_removeFrom (nodup other kind)]
  · have apart : ¬ (other = ref ∧ kind = src ∧ uuid = giving) :=
      fun same => here ⟨same.1, same.2.1⟩
    simp only [Profiles.removeUuid, setList, if_neg here, apart, not_false_eq_true, and_true]

private theorem NoDuplicates.removeUuid {profiles : Profiles Ref} (nodup : profiles.NoDuplicates)
    (ref : Ref) (src : Relation) (giving : String) :
    (profiles.removeUuid ref src giving).NoDuplicates := by
  intro other kind
  by_cases here : other = ref ∧ kind = src
  · simp only [Profiles.removeUuid, setList, if_pos here]
    exact nodup_removeFrom (nodup ref src) giving
  · simp only [Profiles.removeUuid, setList, if_neg here]
    exact nodup other kind

/-! ## Consistent profiles -/

/-- Every profile is live once, and the lists of any two agree. -/
structure Consistent (profiles : Profiles Ref) : Prop where
  distinct : profiles.userUuid.Injective
  nodup : profiles.NoDuplicates
  irrefl : ∀ ref relation, profiles.userUuid ref ∉ profiles.list ref relation
  followers : ∀ left right, profiles.userUuid right ∈ profiles.list left .follow ↔
    profiles.userUuid left ∈ profiles.list right .follower
  symm : ∀ left right, profiles.userUuid right ∈ profiles.list left .connect ↔
    profiles.userUuid left ∈ profiles.list right .connect
  disjoint : ∀ ref uuid, uuid ∈ profiles.list ref .connect →
    uuid ∉ profiles.list ref .follow ∧ uuid ∉ profiles.list ref .follower
  reciprocal : ∀ left right, profiles.userUuid right ∈ profiles.list left .follow →
    profiles.userUuid left ∈ profiles.list right .follow →
      profiles.userUuid right ∈ profiles.list left .connect

/-- The entry of a list that stands for one of the two profiles in the lists of the other. -/
def Between (profiles : Profiles Ref) (me peer ref : Ref) (uuid : String) : Prop :=
  (ref = me ∧ uuid = profiles.userUuid peer) ∨ (ref = peer ∧ uuid = profiles.userUuid me)

/-- After the promotion the two are connected and neither follows the other. -/
structure Connected (before after : Profiles Ref) (me peer : Ref) : Prop where
  userUuid : after.userUuid = before.userUuid
  nodup : after.NoDuplicates
  connect : ∀ ref uuid, uuid ∈ after.list ref .connect ↔
    uuid ∈ before.list ref .connect ∨ before.Between me peer ref uuid
  follow : ∀ ref uuid, uuid ∈ after.list ref .follow ↔
    uuid ∈ before.list ref .follow ∧ ¬ before.Between me peer ref uuid
  follower : ∀ ref uuid, uuid ∈ after.list ref .follower ↔
    uuid ∈ before.list ref .follower ∧ ¬ before.Between me peer ref uuid

private theorem connected_promote {profiles : Profiles Ref} (nodup : profiles.NoDuplicates)
    (me peer : Ref) :
    Connected profiles (((profiles.addUuidList me .connect (profiles.userUuid peer)).addUuidList
      peer .connect (profiles.userUuid me)).cleanupAfterConnect me peer) me peer := by
  have first := nodup.addUuidList me .connect (profiles.userUuid peer)
  have second := first.addUuidList peer .connect (profiles.userUuid me)
  have third := second.removeUuid peer .follow (profiles.userUuid me)
  have fourth := third.removeUuid peer .follower (profiles.userUuid me)
  have fifth := fourth.removeUuid me .follow (profiles.userUuid peer)
  have sixth := fifth.removeUuid me .follower (profiles.userUuid peer)
  constructor
  case userUuid => rfl
  case nodup => exact sixth
  case connect =>
    intro ref uuid
    simp [cleanupAfterConnect, fifth.mem_removeUuid, fourth.mem_removeUuid, third.mem_removeUuid,
      second.mem_removeUuid, Between, or_assoc]
  case follow =>
    intro ref uuid
    simp [cleanupAfterConnect, fifth.mem_removeUuid, fourth.mem_removeUuid, third.mem_removeUuid,
      second.mem_removeUuid, Between]
    tauto
  case follower =>
    intro ref uuid
    simp [cleanupAfterConnect, fifth.mem_removeUuid, fourth.mem_removeUuid, third.mem_removeUuid,
      second.mem_removeUuid, Between]
    tauto

/-- Where the peer is connected already, the other side catches up. -/
theorem connected_agree {profiles : Profiles Ref} (nodup : profiles.NoDuplicates)
    {me peer : Ref} (agreed : profiles.userUuid me ∈ profiles.list peer .connect) :
    Connected profiles ((profiles.addUuidList me .connect (profiles.userUuid peer)
      ).cleanupAfterConnect me peer) me peer := by
  have first := nodup.addUuidList me .connect (profiles.userUuid peer)
  have second := first.removeUuid peer .follow (profiles.userUuid me)
  have third := second.removeUuid peer .follower (profiles.userUuid me)
  have fourth := third.removeUuid me .follow (profiles.userUuid peer)
  have fifth := fourth.removeUuid me .follower (profiles.userUuid peer)
  constructor
  case userUuid => rfl
  case nodup => exact fifth
  case connect =>
    intro ref uuid
    simp [cleanupAfterConnect, fourth.mem_removeUuid, third.mem_removeUuid,
      second.mem_removeUuid, first.mem_removeUuid, Between]
    grind
  case follow =>
    intro ref uuid
    simp [cleanupAfterConnect, fourth.mem_removeUuid, third.mem_removeUuid,
      second.mem_removeUuid, first.mem_removeUuid, Between]
    tauto
  case follower =>
    intro ref uuid
    simp [cleanupAfterConnect, fourth.mem_removeUuid, third.mem_removeUuid,
      second.mem_removeUuid, first.mem_removeUuid, Between]
    tauto

omit [DecidableEq Ref] in
theorem Consistent.of_connected {before after : Profiles Ref} (consistent : before.Consistent)
    {me peer : Ref} (apart : me ≠ peer) (connected : Connected before after me peer) :
    after.Consistent := by
  obtain ⟨userUuid, nodup, connect, follow, follower⟩ := connected
  have uuids : before.userUuid me ≠ before.userUuid peer :=
    fun same => apart (consistent.distinct same)
  have entry : ∀ left right, before.Between me peer left (before.userUuid right) ↔
      (left = me ∧ right = peer) ∨ (left = peer ∧ right = me) := by
    intro left right
    simp only [Between, consistent.distinct.eq_iff]
  constructor
  case distinct => exact userUuid ▸ consistent.distinct
  case nodup => exact nodup
  case irrefl =>
    intro ref relation
    have before := consistent.irrefl ref relation
    rw [userUuid]
    cases relation <;> simp only [connect, follow, follower, entry] <;> grind
  case followers =>
    intro left right
    have before := consistent.followers left right
    simp only [userUuid, follow, follower, entry]
    grind
  case symm =>
    intro left right
    have before := consistent.symm left right
    simp only [userUuid, connect, entry]
    grind
  case disjoint =>
    intro ref uuid
    have before := consistent.disjoint ref uuid
    simp only [connect, follow, follower]
    grind
  case reciprocal =>
    intro left right
    have before := consistent.reciprocal left right
    simp only [userUuid, connect, follow, entry]
    grind

/-! ## The operations keep the profiles consistent -/

private theorem Consistent.addFollow {profiles : Profiles Ref} (consistent : profiles.Consistent)
    {me peer : Ref} (apart : me ≠ peer)
    (unrequited : profiles.userUuid me ∉ profiles.list peer .follow)
    (mine : profiles.userUuid peer ∉ profiles.list me .connect)
    (theirs : profiles.userUuid me ∉ profiles.list peer .connect) :
    ((profiles.addUuidList me .follow (profiles.userUuid peer)).addUuidList peer .follower
      (profiles.userUuid me)).Consistent := by
  constructor
  case distinct => exact consistent.distinct
  case nodup => exact (consistent.nodup.addUuidList _ _ _).addUuidList _ _ _
  case irrefl =>
    intro ref relation
    have before := consistent.irrefl ref relation
    simp only [mem_addUuidList, addUuidList_userUuid, consistent.distinct.eq_iff]
    grind
  case followers =>
    intro left right
    have before := consistent.followers left right
    simp [consistent.distinct.eq_iff, before, and_comm]
  case symm =>
    intro left right
    have before := consistent.symm left right
    simp [before]
  case disjoint =>
    intro ref uuid
    have before := consistent.disjoint ref uuid
    simp only [mem_addUuidList]
    grind
  case reciprocal =>
    intro left right
    have before := consistent.reciprocal left right
    simp [consistent.distinct.eq_iff]
    grind

/-- How both requests begin: nothing for oneself, and a promotion where the peer follows. -/
theorem Consistent.promoteOr {profiles rest : Profiles Ref} (consistent : profiles.Consistent)
    (me peer : Ref)
    (otherwise : me ≠ peer → profiles.userUuid me ∉ profiles.list peer .follow → rest.Consistent) :
    (if profiles.userUuid me = profiles.userUuid peer then profiles
      else if profiles.findUuid peer .follow (profiles.userUuid me) ≠ none then
        ((profiles.addUuidList me .connect (profiles.userUuid peer)).addUuidList peer .connect
          (profiles.userUuid me)).cleanupAfterConnect me peer
      else rest).Consistent := by
  by_cases uuids : profiles.userUuid me = profiles.userUuid peer
  · rw [if_pos uuids]
    exact consistent
  have apart : me ≠ peer := fun same => uuids (congrArg profiles.userUuid same)
  rw [if_neg uuids]
  by_cases requited : profiles.userUuid me ∈ profiles.list peer .follow
  · rw [if_pos (by simpa [findUuid, isInList_eq_none] using requited)]
    exact consistent.of_connected apart (connected_promote consistent.nodup me peer)
  · rw [if_neg (by simpa [findUuid, isInList_eq_none] using requited)]
    exact otherwise apart requited

theorem Consistent.followProfile {profiles : Profiles Ref} (consistent : profiles.Consistent)
    (me peer : Ref) : (profiles.followProfile me peer).Consistent := by
  refine consistent.promoteOr me peer fun apart unrequited => ?_
  simp only [findUuid, isInList_eq_none]
  by_cases unconnected : profiles.userUuid peer ∉ profiles.list me .connect ∧
      profiles.userUuid me ∉ profiles.list peer .connect
  · rw [if_pos unconnected]
    exact consistent.addFollow apart unrequited unconnected.1 unconnected.2
  · rw [if_neg unconnected]
    exact consistent

theorem Consistent.connectProfile {profiles : Profiles Ref} (consistent : profiles.Consistent)
    (me peer : Ref) : (profiles.connectProfile me peer).Consistent := by
  refine consistent.promoteOr me peer fun apart _ => ?_
  simp only [findUuid, ne_eq, isInList_eq_none, not_not]
  by_cases agreed : profiles.userUuid me ∈ profiles.list peer .connect
  · rw [if_pos agreed]
    exact consistent.of_connected apart (connected_agree consistent.nodup agreed)
  · rw [if_neg agreed]
    exact consistent.followProfile me peer

theorem Consistent.unConnectProfile {profiles : Profiles Ref} (consistent : profiles.Consistent)
    (me peer : Ref) : (profiles.unConnectProfile me peer).Consistent := by
  have first := consistent.nodup.removeUuid peer .connect (profiles.userUuid me)
  have kept : ∀ ref relation uuid,
      uuid ∈ (profiles.unConnectProfile me peer).list ref relation ↔
        uuid ∈ profiles.list ref relation ∧
          ¬ (relation = .connect ∧ profiles.Between me peer ref uuid) := by
    intro ref relation uuid
    simp only [Profiles.unConnectProfile, first.mem_removeUuid, consistent.nodup.mem_removeUuid,
      Between]
    tauto
  have names : (profiles.unConnectProfile me peer).userUuid = profiles.userUuid := rfl
  constructor
  case distinct => exact consistent.distinct
  case nodup => exact first.removeUuid _ _ _
  case irrefl =>
    intro ref relation
    rw [kept]
    exact fun inside => consistent.irrefl ref relation inside.1
  case followers =>
    intro left right
    simpa [kept, names] using consistent.followers left right
  case symm =>
    intro left right
    have before := consistent.symm left right
    simp only [kept, names, Between, consistent.distinct.eq_iff]
    grind
  case disjoint =>
    intro ref uuid
    have before := consistent.disjoint ref uuid
    simp only [kept]
    grind
  case reciprocal =>
    intro left right
    have before := consistent.reciprocal left right
    have apart := consistent.disjoint left (profiles.userUuid right)
    simp only [kept, names]
    grind

theorem Consistent.unfollowProfile {profiles : Profiles Ref} (consistent : profiles.Consistent)
    (me peer : Ref) : (profiles.unfollowProfile me peer).Consistent := by
  have first := consistent.nodup.removeUuid me .follow (profiles.userUuid peer)
  have kept : ∀ ref relation uuid,
      uuid ∈ (profiles.unfollowProfile me peer).list ref relation ↔
        uuid ∈ profiles.list ref relation ∧
          ¬ (ref = me ∧ relation = .follow ∧ uuid = profiles.userUuid peer) ∧
            ¬ (ref = peer ∧ relation = .follower ∧ uuid = profiles.userUuid me) := by
    intro ref relation uuid
    simp only [Profiles.unfollowProfile, first.mem_removeUuid, consistent.nodup.mem_removeUuid]
    exact and_assoc
  have names : (profiles.unfollowProfile me peer).userUuid = profiles.userUuid := rfl
  constructor
  case distinct => exact consistent.distinct
  case nodup => exact first.removeUuid _ _ _
  case irrefl =>
    intro ref relation
    rw [kept]
    exact fun inside => consistent.irrefl ref relation inside.1
  case followers =>
    intro left right
    have before := consistent.followers left right
    simp only [kept, names, consistent.distinct.eq_iff]
    grind
  case symm =>
    intro left right
    simpa [kept, names] using consistent.symm left right
  case disjoint =>
    intro ref uuid
    have before := consistent.disjoint ref uuid
    simp only [kept]
    grind
  case reciprocal =>
    intro left right
    have before := consistent.reciprocal left right
    simp only [kept, names]
    grind

/-! ## Runs -/

/-- The four requests between two profiles. -/
inductive Call (Ref : Type) where
  | follow (me peer : Ref)
  | connect (me peer : Ref)
  | unfollow (me peer : Ref)
  | unConnect (me peer : Ref)

def call (profiles : Profiles Ref) : Call Ref → Profiles Ref
  | .follow me peer => profiles.followProfile me peer
  | .connect me peer => profiles.connectProfile me peer
  | .unfollow me peer => profiles.unfollowProfile me peer
  | .unConnect me peer => profiles.unConnectProfile me peer

/-- One call keeps the profiles consistent. -/
theorem Consistent.call {profiles : Profiles Ref} (consistent : profiles.Consistent)
    (request : Call Ref) : (profiles.call request).Consistent := by
  cases request with
  | follow me peer => exact consistent.followProfile me peer
  | connect me peer => exact consistent.connectProfile me peer
  | unfollow me peer => exact consistent.unfollowProfile me peer
  | unConnect me peer => exact consistent.unConnectProfile me peer

/-- **The relations.** Profiles that start consistent stay consistent through every sequence of
calls. -/
theorem consistent_calls {profiles : Profiles Ref} (consistent : profiles.Consistent)
    (requests : List (Call Ref)) : (requests.foldl call profiles).Consistent := by
  induction requests generalizing profiles with
  | nil => exact consistent
  | cons request rest ih => exact ih (consistent.call request)

/-- Profiles without relations, each under its own uuid. -/
def strangers (userUuid : Ref → String) : Profiles Ref := ⟨userUuid, fun _ _ => []⟩

omit [DecidableEq Ref] in
private theorem consistent_strangers {userUuid : Ref → String} (distinct : userUuid.Injective) :
    (strangers userUuid).Consistent where
  distinct := distinct
  nodup := fun _ _ => List.nodup_nil
  irrefl := fun _ _ => List.not_mem_nil
  followers := fun _ _ => iff_of_false List.not_mem_nil List.not_mem_nil
  symm := fun _ _ => iff_of_false List.not_mem_nil List.not_mem_nil
  disjoint := fun _ _ inside => absurd inside List.not_mem_nil
  reciprocal := fun _ _ inside => absurd inside List.not_mem_nil

/-- Two strangers follow each other, and are connected by the second call. -/
theorem consistent_calls_strangers :
    (([.follow false true, .follow true false, .unfollow false true] : List (Call Bool)).foldl
      call (strangers fun ref => if ref then "b" else "a")).Consistent :=
  consistent_calls (consistent_strangers (fun left right => by cases left <;> cases right <;> simp)) _

example : (([.follow false true, .follow true false] : List (Call Bool)).foldl call
    (strangers fun ref => if ref then "b" else "a")).list false .connect = ["b"] := by
  decide +kernel

end Profiles

end Tvntd.Profile
