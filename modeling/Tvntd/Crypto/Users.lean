import Tvntd.Cpptype.Key64
import Tvntd.Cpptype.LruLock
import Tvntd.Crypto.Client

/-! # The users of a client

A lookup of a uuid searches one bucket, and constructs and inserts a user where
it finds none. While that bucket is short and holds no other user with the low
half of the uuid, the client gets a user of its uuid (`Crypto.Answered`).
-/

namespace Tvntd

open Function

namespace DHashObj

variable {self : DHashObj} {objs : List Obj}

/-- The hash after a search that visited this many links. -/
def probed (self : DHashObj) (chain : Nat) : DHashObj :=
  ⟨self.mem, { self.mTab with dhMaxChain := chain }⟩

/-- A search of a short bucket finds the first link that agrees with the low half of the key,
and moves no link. -/
theorem Resides.lookup64_of_short (resides : self.Resides objs) {key : Key64}
    (short : (self.mTab.dhBucket (objHash64 self.mTab.dhBkSize key)).length < 32) :
    ∃ chain, self.lookup64 objCompare64 key =
      some (objPtr self.mem ((self.mTab.dhBucket (objHash64 self.mTab.dhBkSize key)).find?
        (lowKeyed self.mem key)), self.probed chain) := by
  have compares : ∀ link ∈ self.mTab.dhBucket (objHash64 self.mTab.dhBkSize key),
      ∃ order, dhHashCmpKey64 objCompare64 self.mem link (.seed64 key) = some order ∧
        (order = 0 ↔ lowKeyed self.mem key link = true) := by
    intro link member
    obtain ⟨slot, -, chained⟩ := resides.chained
    obtain ⟨obj, inside, rfl⟩ := List.mem_map.mp ((chained.mem _ _).mp member).1
    have compared : dhHashCmpKey64 objCompare64 self.mem (.chain obj) (.seed64 key) =
        some (objCompare64 (self.mem.objKey64 obj) key) := by
      unfold dhHashCmpKey64
      rw [resides.linked_eq inside]
      rfl
    exact ⟨_, compared, compare_seed64 self.mem key _ _ compared⟩
  have hashed : dhHashKey64 self.mem self.mTab.dhBkSize (.seed64 key) =
      some (objHash64 self.mTab.dhBkSize key) := rfl
  have visits : ¬ 32 ≤ probeVisits (lowKeyed self.mem key)
      (self.mTab.dhBucket (objHash64 self.mTab.dhBkSize key)) :=
    Nat.not_le.mpr (Nat.lt_of_le_of_lt (Nat.min_le_right _ _) short)
  refine ⟨max self.mTab.dhMaxChain (probeVisits (lowKeyed self.mem key)
    (self.mTab.dhBucket (objHash64 self.mTab.dhBkSize key))), ?_⟩
  unfold DHashObj.lookup64 DHashObj.lookupElm probed
  rw [dhashFindElm_eq _ hashed (objHash64_lt resides.positive key) compares, dhashGrow,
    if_neg fun grows => visits grows.1]
  rfl

/-- Removing objects shortens the buckets and leaves the keys. -/
theorem removeObjs_shortens {gone : List Obj} : ∀ {self next : DHashObj},
    gone.foldlM removeObj self = some next →
      (∀ index, (next.mTab.dhBucket index).Sublist (self.mTab.dhBucket index)) ∧
        next.mTab.dhBkSize = self.mTab.dhBkSize ∧ next.mem.objKey64 = self.mem.objKey64 := by
  induction gone with
  | nil =>
      intro self next removed
      cases removed
      exact ⟨fun index => List.Sublist.refl _, rfl, rfl⟩
  | cons old rest ih =>
      intro self next removed
      rw [List.foldlM_cons] at removed
      obtain ⟨middle, first, removed⟩ := Option.bind_eq_some_iff.mp removed
      unfold removeObj at first
      by_cases held : self.mem.mChain old
      · rw [if_pos held] at first
        cases first
        obtain ⟨shorter, sized, keys⟩ := ih removed
        exact ⟨fun index => (shorter index).trans List.erase_sublist, sized, keys⟩
      · rw [if_neg held] at first
        cases first

end DHashObj

namespace Crypto

open DHashObj (lowKeyed objPtr Resides)

/-- The uuid of a user. -/
def keyOf (self : Crypto) (user : Obj) : Key64 := self.users.mHash.mem.objKey64 user

/-- The bucket that a lookup searches. -/
def bucketOf (self : Crypto) (uuid : Key64) : List Link :=
  self.users.mHash.mTab.dhBucket (objHash64 self.users.mHash.mTab.dhBkSize uuid)

/-- A client between two operations: nobody holds the lock of the cache, and the address of the
next user is unused. -/
structure Valid (client : Crypto) : Prop where
  resident : client.users.Resident Resides
  free : client.users.mLock.held = false
  unused : ∀ user ∈ client.users.mLru, user < client.fresh

/-- A lookup visits fewer links than the limit, and a user in its bucket with the low half of the
uuid has that uuid. -/
structure Clear (client : Crypto) (uuid : Key64) (limit : Nat) : Prop where
  short : (client.bucketOf uuid).length < limit
  own : ∀ user ∈ client.users.mLru, .chain user ∈ client.bucketOf uuid →
    (client.keyOf user).setWidth 32 = uuid.setWidth 32 → client.keyOf user = uuid
  room : client.users.mMaxElm + 1 < 2 ^ 31

instance (client : Crypto) (uuid : Key64) (limit : Nat) : Decidable (client.Clear uuid limit) :=
  decidable_of_iff
    ((client.bucketOf uuid).length < limit ∧
      (∀ user ∈ client.users.mLru, .chain user ∈ client.bucketOf uuid →
        (client.keyOf user).setWidth 32 = uuid.setWidth 32 → client.keyOf user = uuid) ∧
      client.users.mMaxElm + 1 < 2 ^ 31)
    ⟨fun all => ⟨all.1, all.2.1, all.2.2⟩, fun clear => ⟨clear.short, clear.own, clear.room⟩⟩

/-- What a lookup leaves: a resident user of the uuid, and beside new users those of before. -/
structure Answered (before : Crypto) (uuid : Key64) (user : Obj) (after : Crypto) : Prop where
  valid : after.Valid
  inside : user ∈ after.users.mLru
  own : after.keyOf user = uuid
  others : ∀ other ∈ after.users.mLru,
    (other ∈ before.users.mLru ∧ after.keyOf other = before.keyOf other ∧
      after.objects other = before.objects other) ∨ after.objects other = UserCrypto.create
  clear : ∀ limit, before.Clear uuid limit → after.Clear uuid (limit + 1)

variable {self : Crypto} {uuid : Key64}

/-- The users of a valid client are the links of its buckets. -/
theorem Valid.mem_of_link (valid : self.Valid) {link : Link} (linked : link ∈ self.bucketOf uuid) :
    ∃ user ∈ self.users.mLru, link = .chain user := by
  obtain ⟨slot, -, chained⟩ := valid.resident.holds.chained
  obtain ⟨user, inside, same⟩ := List.mem_map.mp ((chained.mem _ _).mp linked).1
  exact ⟨user, inside, same.symm⟩

/-- The user a search finds is resident and has the uuid. -/
theorem Valid.of_found (valid : self.Valid) {limit : Nat} (clear : self.Clear uuid limit)
    {user : Obj} (found : objPtr self.users.mHash.mem
      ((self.bucketOf uuid).find? (lowKeyed self.users.mHash.mem uuid)) = some user) :
    user ∈ self.users.mLru ∧ self.keyOf user = uuid := by
  obtain ⟨link, first, refers⟩ := Option.bind_eq_some_iff.mp found
  obtain ⟨other, inside, rfl⟩ := valid.mem_of_link (List.mem_of_find?_eq_some first)
  have held := valid.resident.holds.held other inside
  have points : self.users.mHash.mem.objCptr (.chain other) = some (.obj other) := if_pos held
  rw [points, Option.some.injEq] at refers
  subst refers
  have low := List.find?_some first
  unfold lowKeyed at low
  rw [points] at low
  exact ⟨inside,
    clear.own other inside (List.mem_of_find?_eq_some first) (of_decide_eq_true low)⟩

/-! ## A lookup that finds its user -/

theorem exec_lookup_hit {users : LruTable DHashObj} {fresh user : Obj} {hash : DHashObj}
    (free : users.mLock.held = false)
    (found : userIndex.lookup64 users.mHash uuid = some (some user, hash)) :
    LruTable.exec (lookup fresh uuid) users =
      (.ok (some user), { users.searched hash with mHitCnt := users.mHitCnt + 1 }) := by
  unfold lookup LruTable.lookupWith
  rw [LruTable.exec_search free found]
  dsimp only
  rw [LruTable.exec_bind_of_ok _ LruTable.exec_countHit]
  rfl

private theorem answered_hit (valid : self.Valid) {limit : Nat} (clear : self.Clear uuid limit)
    {user : Obj} {chain : Nat}
    (found : objPtr self.users.mHash.mem
      ((self.bucketOf uuid).find? (lowKeyed self.users.mHash.mem uuid)) = some user)
    (looked : userIndex.lookup64 self.users.mHash uuid =
      some (some user, self.users.mHash.probed chain)) :
    ∃ after, getUser uuid self = some (some user, after) ∧ Answered self uuid user after := by
  obtain ⟨inside, own⟩ := valid.of_found clear found
  have old : some user ≠ some self.fresh := fun same =>
    Nat.lt_irrefl _ (Option.some.inj same ▸ valid.unused user inside)
  have holds := (valid.resident.holds.lookup64 looked).2.1
  have still := valid.resident.searched holds
  refine ⟨{ self with users :=
    { self.users.searched (self.users.mHash.probed chain) with
      mHitCnt := self.users.mHitCnt + 1 } }, ?_, ?_⟩
  · unfold getUser
    rw [exec_lookup_hit valid.free looked]
    exact if_neg old
  · constructor
    · exact ⟨⟨⟨still.holds, still.linked⟩, still.positive, still.bounded⟩, rfl, valid.unused⟩
    · exact inside
    · exact own
    · exact fun other there => Or.inl ⟨there, rfl, rfl⟩
    · intro limit clear
      exact ⟨Nat.lt_succ_of_lt clear.short, clear.own, clear.room⟩

/-! ## A lookup that inserts one -/

theorem exec_lookup_miss {users next : LruTable DHashObj} {fresh : Obj} {hash : DHashObj}
    (free : users.mLock.held = false)
    (found : userIndex.lookup64 users.mHash uuid = some (none, hash)) {ret : Bool}
    (inserted : LruTable.exec (LruTable.insertKey64 userIndex (some fresh))
      (construct fresh uuid (users.missed hash)) = (.ok ret, next)) :
    LruTable.exec (lookup fresh uuid) users = (.ok (some fresh), next) := by
  have constructed : LruTable.exec (do
      modify (construct fresh uuid)
      LruTable.insertKey64 userIndex (some fresh)) (users.missed hash) = (.ok ret, next) := by
    have made : LruTable.exec (modify (construct fresh uuid)) (users.missed hash) =
        (.ok (), construct fresh uuid (users.missed hash)) := rfl
    rw [LruTable.exec_bind_of_ok _ made, inserted]
  unfold lookup LruTable.lookupWith
  rw [LruTable.exec_search free found]
  dsimp only
  rw [LruTable.exec_bind_of_ok _ LruTable.exec_countMiss]
  exact LruTable.exec_bind_of_ok _ constructed

private theorem resident_construct {users : LruTable DHashObj} (resident : users.Resident Resides)
    {fresh : Obj} (unused : fresh ∉ users.mLru) :
    (construct fresh uuid users).Resident Resides := by
  have apart : ∀ user ∈ users.mLru, user ≠ fresh := fun user inside same =>
    unused (same ▸ inside)
  refine ⟨⟨⟨resident.holds.positive, resident.holds.chained, resident.holds.count, ?_⟩, ?_⟩,
    resident.positive, resident.bounded⟩
  · intro user inside
    exact (update_of_ne (apart user inside) _ _).trans (resident.holds.held user inside)
  · intro user inside
    exact (update_of_ne (apart user inside) _ _).trans (resident.linked user inside)

theorem objKey64_construct {users : LruTable DHashObj} {fresh user : Obj} (apart : user ≠ fresh) :
    (construct fresh uuid users).mHash.mem.objKey64 user = users.mHash.mem.objKey64 user :=
  update_of_ne apart _ _

/-- The table a user with its uuid is inserted into. -/
theorem insertKey64_constructed {hash : DHashObj} {fresh : Obj}
    (positive : 0 < hash.mTab.dhBkSize) (room : hash.mTab.dhElmCnt + 1 < 2 ^ 31)
    (free : hash.mem.mChain fresh = false) (own : hash.mem.objKey64 fresh = uuid) :
    ∃ next, userIndex.insertKey64 hash fresh = some next ∧ next.mem = DHashObj.hold hash.mem fresh ∧
      next.mTab.dhBkSize = hash.mTab.dhBkSize ∧
      next.mTab.dhBucket (objHash64 hash.mTab.dhBkSize uuid) =
        hash.mTab.dhBucket (objHash64 hash.mTab.dhBkSize uuid) ++ [.chain fresh] := by
  have hashed : dhHashKey64 (DHashObj.hold hash.mem fresh) hash.mTab.dhBkSize (.chain fresh) =
      some (objHash64 hash.mTab.dhBkSize uuid) := by
    rw [dhHashKey64_hold, own]
  have inserted := dhashInsertElm_eq hashed (objHash64_lt positive uuid) room
  change ∃ next, (hash.insertKey64 fresh).map Prod.snd = some next ∧ _
  unfold DHashObj.insertKey64
  rw [free, if_neg Bool.false_ne_true]
  dsimp only
  rw [inserted]
  exact ⟨_, rfl, rfl, rfl, update_self _ _ _⟩

/-- No user in the bucket of a missed uuid agrees with its low half. -/
theorem Valid.low_ne_of_missed (valid : self.Valid)
    (missed : objPtr self.users.mHash.mem
      ((self.bucketOf uuid).find? (lowKeyed self.users.mHash.mem uuid)) = none)
    {user : Obj} (linked : .chain user ∈ self.bucketOf uuid) :
    (self.keyOf user).setWidth 32 ≠ uuid.setWidth 32 := by
  intro low
  have points : ∀ {other : Obj}, .chain other ∈ self.bucketOf uuid →
      self.users.mHash.mem.objCptr (.chain other) = some (.obj other) := by
    intro other linked
    obtain ⟨resident, inside, same⟩ := valid.mem_of_link linked
    cases same
    exact if_pos (valid.resident.holds.held other inside)
  have agrees : lowKeyed self.users.mHash.mem uuid (.chain user) = true := by
    unfold lowKeyed
    rw [points linked]
    exact decide_eq_true low
  cases first : (self.bucketOf uuid).find? (lowKeyed self.users.mHash.mem uuid) with
  | none => exact List.find?_eq_none.mp first _ linked agrees
  | some link =>
      obtain ⟨other, inside, rfl⟩ := valid.mem_of_link (List.mem_of_find?_eq_some first)
      rw [first, objPtr, Option.bind_some, points (List.mem_of_find?_eq_some first)] at missed
      cases missed

/-- The table in which a new user was constructed, after a search that missed it. -/
def readied (self : Crypto) (uuid : Key64) (chain : Nat) : LruTable DHashObj :=
  construct self.fresh uuid (self.users.missed (self.users.mHash.probed chain))

private theorem readied_own (self : Crypto) (uuid : Key64) (chain : Nat) :
    (self.readied uuid chain).mHash.mem.objKey64 self.fresh = uuid := update_self _ _ _

private theorem Valid.readied_keyOf (valid : self.Valid) (chain : Nat) {user : Obj}
    (inside : user ∈ self.users.mLru) :
    (self.readied uuid chain).mHash.mem.objKey64 user = self.keyOf user :=
  objKey64_construct (Nat.ne_of_lt (valid.unused user inside))

/-- The insertion of the new user adds its link to its bucket, and no other link. -/
theorem insert_readied (valid : self.Valid) {limit : Nat} (clear : self.Clear uuid limit)
    (within : limit ≤ 32) {chain : Nat}
    (missed : objPtr self.users.mHash.mem
      ((self.bucketOf uuid).find? (lowKeyed self.users.mHash.mem uuid)) = none)
    (ready : (self.readied uuid chain).Resident Resides) :
    ∃ hash : DHashObj, hash.mem = DHashObj.hold (self.readied uuid chain).mHash.mem self.fresh ∧
      hash.mTab.dhBkSize = self.users.mHash.mTab.dhBkSize ∧
      hash.mTab.dhBucket (objHash64 self.users.mHash.mTab.dhBkSize uuid) =
        self.bucketOf uuid ++ [.chain self.fresh] ∧
      LruTable.MissEnds userIndex Resides (self.readied uuid chain) hash self.fresh
        (LruTable.insertKey64 userIndex (some self.fresh)) := by
  have laws := dhashIndex64_laws objCompare64
  have searches := dhashIndex64_searches64 objCompare64
  have own := self.readied_own uuid chain
  obtain ⟨again, searched⟩ := ready.holds.lookup64_of_short (Nat.lt_of_lt_of_le clear.short within)
  have none : (self.bucketOf uuid).find?
      (lowKeyed (self.readied uuid chain).mHash.mem uuid) = none := by
    refine List.find?_eq_none.mpr fun link linked agrees => ?_
    obtain ⟨user, inside, rfl⟩ := valid.mem_of_link linked
    have points : (self.readied uuid chain).mHash.mem.objCptr (.chain user) =
        some (.obj user) := if_pos (ready.holds.held user inside)
    unfold lowKeyed at agrees
    rw [points] at agrees
    have low : ((self.readied uuid chain).mHash.mem.objKey64 user).setWidth 32 =
      uuid.setWidth 32 := of_decide_eq_true agrees
    rw [valid.readied_keyOf chain inside] at low
    exact valid.low_ne_of_missed missed linked low
  have looked : userIndex.lookup64 (self.readied uuid chain).mHash
      (userIndex.objKey64 (self.readied uuid chain).mHash self.fresh) =
        some (Option.none, (self.readied uuid chain).mHash.probed again) := by
    change DHashObj.lookup64 objCompare64 (self.readied uuid chain).mHash
      ((self.readied uuid chain).mHash.mem.objKey64 self.fresh) = _
    rw [own]
    refine searched.trans ?_
    change some (objPtr _ ((self.bucketOf uuid).find? _), _) = _
    rw [none]
    rfl
  have room : (self.users.mHash.mTab.dhElmCnt : Int) + 1 < 2 ^ 31 := by
    have bounded := valid.resident.bounded
    have positive := clear.room
    rw [valid.resident.holds.count]
    omega
  have unchained : ((self.readied uuid chain).mHash.probed again).mem.mChain self.fresh = false :=
    update_self _ _ _
  obtain ⟨hash, inserted, mem, sized, bucket⟩ :=
    @insertKey64_constructed uuid ((self.readied uuid chain).mHash.probed again) self.fresh
      ready.holds.positive room unchained own
  exact ⟨hash, mem, sized, bucket, LruTable.exec_insertKey64_miss laws searches ready rfl looked
    inserted (update_self _ _ _)⟩

/-- The client with a user inserted into this hash and the oldest users removed from it. -/
def withNewUser (self : Crypto) (uuid : Key64) (chain : Nat) (hash final : DHashObj) : Crypto where
  users := (((self.readied uuid chain).locked.added hash self.fresh).kicked
    ((self.readied uuid chain).added hash self.fresh).surplus final).unlocked
  objects := update self.objects self.fresh UserCrypto.create
  fresh := self.fresh + 1

section NewUser

variable {chain : Nat} {hash final : DHashObj}

private theorem mMaxElm_withNewUser :
    (self.withNewUser uuid chain hash final).users.mMaxElm = self.users.mMaxElm := by
  simp only [withNewUser, readied, construct, LruTable.unlocked, LruTable.kicked, LruTable.dropped,
    LruTable.added, LruTable.locked, LruTable.missed, LruTable.searched]

private theorem keyOf_withNewUser (user : Obj) :
    (self.withNewUser uuid chain hash final).keyOf user = final.mem.objKey64 user := rfl

private theorem bucketOf_withNewUser :
    (self.withNewUser uuid chain hash final).bucketOf uuid =
      final.mTab.dhBucket (objHash64 final.mTab.dhBkSize uuid) := rfl

private theorem mLru_withNewUser :
    (self.withNewUser uuid chain hash final).users.mLru =
      (self.users.mLru ++ [self.fresh]).drop
        ((self.readied uuid chain).added hash self.fresh).surplus := rfl

private theorem mem_withNewUser {other : Obj}
    (inside : other ∈ (self.withNewUser uuid chain hash final).users.mLru) :
    other ∈ self.users.mLru ∨ other = self.fresh := by
  rw [mLru_withNewUser] at inside
  rcases List.mem_append.mp (List.mem_of_mem_drop inside) with old | new
  · exact Or.inl old
  · exact Or.inr (List.mem_singleton.mp new)

/-- The new user is the last to be removed. -/
theorem Valid.fresh_mem_withNewUser (valid : self.Valid) :
    self.fresh ∈ (self.withNewUser uuid chain hash final).users.mLru := by
  have count : ((self.readied uuid chain).added hash self.fresh).surplus ≤
      self.users.mLru.length := by
    have bounded := valid.resident.bounded
    have positive := valid.resident.positive
    change (self.users.mLru ++ [self.fresh]).length - self.users.mMaxElm.toNat ≤ _
    rw [List.length_append, List.length_singleton]
    omega
  rw [mLru_withNewUser, List.drop_append_of_le_length count]
  exact List.mem_append_right _ (List.mem_singleton.mpr rfl)

end NewUser

private theorem answered_miss (valid : self.Valid) {limit : Nat} (clear : self.Clear uuid limit)
    (within : limit ≤ 32) {chain : Nat}
    (missed : objPtr self.users.mHash.mem
      ((self.bucketOf uuid).find? (lowKeyed self.users.mHash.mem uuid)) = none)
    (looked : userIndex.lookup64 self.users.mHash uuid =
      some (none, self.users.mHash.probed chain)) :
    ∃ after, getUser uuid self = some (some self.fresh, after) ∧
      Answered self uuid self.fresh after := by
  have unused : self.fresh ∉ self.users.mLru := fun inside =>
    Nat.lt_irrefl _ (valid.unused _ inside)
  have ready : (self.readied uuid chain).Resident Resides :=
    resident_construct (valid.resident.missed (valid.resident.holds.lookup64 looked).2.1) unused
  obtain ⟨hash, mem, sized, bucket, final, folded, ran, still⟩ :=
    insert_readied valid clear within missed ready
  obtain ⟨shorter, kept, keys⟩ := DHashObj.removeObjs_shortens folded
  have got := exec_lookup_miss valid.free looked ran
  have keyed : ∀ other, (self.withNewUser uuid chain hash final).keyOf other =
      (self.readied uuid chain).mHash.mem.objKey64 other := by
    intro other
    rw [keyOf_withNewUser, keys, mem]
    rfl
  have bucketed : ((self.withNewUser uuid chain hash final).bucketOf uuid).Sublist
      (self.bucketOf uuid ++ [.chain self.fresh]) := by
    rw [bucketOf_withNewUser, ← bucket, kept, sized]
    exact shorter _
  refine ⟨self.withNewUser uuid chain hash final, ?_, ?_⟩
  · unfold getUser
    rw [got]
    exact if_pos rfl
  · constructor
    case valid =>
      constructor
      case resident => exact still.unlocked
      case free => rfl
      case unused =>
        intro other inside
        rcases mem_withNewUser inside with old | rfl
        · exact Nat.lt_succ_of_lt (valid.unused other old)
        · exact Nat.lt_succ_self _
    case inside => exact valid.fresh_mem_withNewUser
    case own => exact (keyed _).trans (self.readied_own uuid chain)
    case others =>
      intro other inside
      rcases mem_withNewUser inside with old | rfl
      · have apart := Nat.ne_of_lt (valid.unused other old)
        have same : update self.objects self.fresh UserCrypto.create other =
            self.objects other := update_of_ne apart _ _
        exact Or.inl ⟨old, (keyed other).trans (valid.readied_keyOf chain old), same⟩
      · have made : update self.objects self.fresh UserCrypto.create self.fresh =
            UserCrypto.create := update_self _ _ _
        exact Or.inr made
    case clear =>
      intro limit clear
      constructor
      case short =>
        have length := bucketed.length_le
        rw [List.length_append, List.length_singleton] at length
        exact Nat.lt_of_le_of_lt length (Nat.succ_lt_succ clear.short)
      case own =>
        intro other _ linked low
        rcases List.mem_append.mp (bucketed.subset linked) with old | new
        · obtain ⟨user, inside, same⟩ := valid.mem_of_link old
          cases same
          have key := (keyed other).trans (valid.readied_keyOf chain inside)
          rw [key] at low ⊢
          exact clear.own other inside old low
        · cases List.mem_singleton.mp new
          exact (keyed _).trans (self.readied_own uuid chain)
      case room =>
        rw [mMaxElm_withNewUser]
        exact clear.room

/-- A lookup of a clear uuid gives a user of it. -/
theorem Valid.answers (valid : self.Valid) {limit : Nat} (clear : self.Clear uuid limit)
    (within : limit ≤ 32) :
    ∃ user after, getUser uuid self = some (some user, after) ∧ Answered self uuid user after := by
  obtain ⟨chain, looked⟩ :=
    valid.resident.holds.lookup64_of_short (Nat.lt_of_lt_of_le clear.short within)
  cases found : objPtr self.users.mHash.mem
      ((self.bucketOf uuid).find? (lowKeyed self.users.mHash.mem uuid)) with
  | some user =>
      obtain ⟨after, got⟩ :=
        answered_hit valid clear found (looked.trans (congrArg (fun f => some (f, _)) found))
      exact ⟨user, after, got⟩
  | none =>
      obtain ⟨after, got⟩ := answered_miss valid clear within found
        (looked.trans (congrArg (fun f => some (f, _)) found))
      exact ⟨self.fresh, after, got⟩

end Crypto

end Tvntd
