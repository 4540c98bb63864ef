import Tvntd.Crypto.Users

/-! # A client and its key server

One client calls the key server synchronously and every request is delivered.
The client keeps what it was given; the server keeps what it was told last
(`KeyServer.held`). They stay together while the client does not learn a second
key for a version it has cached, and a listing is complete where the cache is.
-/

namespace Tvntd

open Proto3 (Bytes)
open Kdb (Messages UserPrivKey)
open KeyServerDb (KeyValDb saveAccount queryAccountKey Built)

/-! ## The handlers of the server -/

namespace KeyServer

/-- `generate_key`, with the keys the library makes, if it makes any. -/
def generateKey (lib : Messages) (db : KeyValDb) (pair : Option (Bytes × Bytes))
    (reqt : KeyReqt) : PubKeyResp × KeyValDb :=
  match pair with
  | none => (⟨[]⟩, db)
  | some (privkey, pubkey) =>
      (⟨[⟨reqt.uuid, reqt.keyVerLo, pubkey⟩]⟩,
        saveAccount lib db reqt.uuid reqt.keyVerLo privkey pubkey)

/-- `query_pub_key`. The database releases the keys of the record it read. -/
def queryPubKey (lib : Messages) (pb : Protobuf) (db : KeyValDb) (reqt : KeyReqt) : PubKeyResp :=
  match queryAccountKey lib db reqt.uuid reqt.keyVerLo with
  | none => ⟨[]⟩
  | some (_, pubkey) =>
      match pb.release pubkey with
      | none => ⟨[]⟩
      | some pubkey => ⟨[⟨reqt.uuid, reqt.keyVerLo, pubkey⟩]⟩

/-- `save_key_pair`, which leaves its reply as it is. -/
def saveKeyPair (lib : Messages) (db : KeyValDb) (reqt : UserPrivKey) : UserKeyRecord × KeyValDb :=
  (⟨0, []⟩, saveAccount lib db reqt.user.uuid reqt.user.keyVersion reqt.privKey reqt.user.pubKey)

/-- The public key the server holds. -/
def held (lib : Messages) (db : KeyValDb) (uuid ver : Key64) : Option Bytes :=
  (queryAccountKey lib db uuid ver).map Prod.snd

variable {lib : Messages} {db : KeyValDb}

private theorem held_saveAccount {saves : List KeyServerDb.Save} (built : Built lib saves db)
    (uuid ver : Key64) (privkey pubkey : Bytes) (other otherVer : Key64) :
    held lib (saveAccount lib db uuid ver privkey pubkey) other otherVer =
      if (uuid, ver) = (other, otherVer) then some pubkey else held lib db other otherVer := by
  have after : Built lib (saves ++ [⟨uuid, ver, privkey, pubkey⟩])
      (saveAccount lib db uuid ver privkey pubkey) := built.saveStep ⟨uuid, ver, privkey, pubkey⟩
  unfold held
  rw [after.queryAccountKey_eq, built.queryAccountKey_eq, KeyServerDb.lastOf_concat]
  change Option.map Prod.snd (Option.map _ (if (uuid, ver) = (other, otherVer) then _ else _)) = _
  split
  · rfl
  · rfl

private theorem queryPubKey_of_held_none {uuid ver : Key64} (pb : Protobuf)
    (nothing : held lib db uuid ver = none) :
    queryPubKey lib pb db ⟨uuid, ver, 0⟩ = ⟨[]⟩ := by
  unfold queryPubKey
  rw [Option.map_eq_none_iff.mp nothing]

private theorem queryPubKey_of_held {uuid ver : Key64} {pb : Protobuf} {key : Bytes}
    (holds : held lib db uuid ver = some key) (released : (pb.release key).isSome) :
    queryPubKey lib pb db ⟨uuid, ver, 0⟩ = ⟨[⟨uuid, ver, key⟩]⟩ := by
  obtain ⟨⟨privkey, pubkey⟩, stored, rfl⟩ := Option.map_eq_some_iff.mp holds
  unfold queryPubKey
  rw [stored]
  dsimp only
  rw [Protobuf.release_of_isSome released]

end KeyServer

/-! ## What the client keeps -/

namespace Crypto

variable {self after : Crypto} {uuid ver : Key64} {key : Bytes}

/-- Every key of a resident user is the one the server holds. -/
def Cached (server : Key64 → Key64 → Option Bytes) (self : Crypto) : Prop :=
  ∀ user ∈ self.users.mLru, ∀ kv ∈ (self.objects user).getAllPubKeys,
    server (self.keyOf user) kv.kVer = some kv.kPublic

/-- No entry of a resident user of the uuid is mistaken for one of the version. -/
def ClearVersions (self : Crypto) (uuid ver : Key64) : Prop :=
  ∀ user ∈ self.users.mLru, self.keyOf user = uuid → (self.objects user).Clear ver

instance (self : Crypto) (uuid ver : Key64) : Decidable (self.ClearVersions uuid ver) :=
  inferInstanceAs (Decidable (∀ user ∈ self.users.mLru, _))

/-- The versions that a listing finds in the cache. -/
def cachedVersions (self : Crypto) (uuid : Key64) : List Key64 :=
  match getUser uuid self with
  | some (some user, after) => (after.objects user).getAllPubKeys.map KeyVer.kVer
  | _ => []

variable {server : Key64 → Key64 → Option Bytes}

theorem Answered.cached {user : Obj} (answered : Answered self uuid user after)
    (cached : self.Cached server) : after.Cached server := by
  intro other inside kv entry
  rcases answered.others other inside with ⟨old, key, same⟩ | new
  · rw [same] at entry
    rw [key]
    exact cached other old kv entry
  · rw [new] at entry
    exact absurd entry (UserCrypto.getAllPubKeys_create kv)

private theorem Answered.clearVersions {user : Obj} (answered : Answered self uuid user after)
    (clear : self.ClearVersions uuid ver) : after.ClearVersions uuid ver := by
  intro other inside own
  rcases answered.others other inside with ⟨old, key, same⟩ | new
  · rw [key] at own
    rw [same]
    exact clear other old own
  · rw [new]
    exact UserCrypto.clear_create ver

/-- The cache of users does not depend on what the users hold. -/
theorem Valid.withObjects (valid : self.Valid) (objects : Obj → UserCrypto) :
    Valid { self with objects := objects } :=
  ⟨valid.resident, valid.free, valid.unused⟩

theorem Cached.update (cached : self.Cached server) {user : Obj} {next : UserCrypto}
    (entries : ∀ kv ∈ next.getAllPubKeys, server (self.keyOf user) kv.kVer = some kv.kPublic) :
    Cached server { self with objects := Function.update self.objects user next } := by
  intro other inside kv entry
  by_cases same : other = user
  · subst same
    have own : kv ∈ (Function.update self.objects other next other).getAllPubKeys := entry
    rw [Function.update_self] at own
    exact entries kv own
  · have old : kv ∈ (Function.update self.objects user next other).getAllPubKeys := entry
    rw [Function.update_of_ne same] at old
    exact cached other inside kv old

/-- The key the server holds for a clear version is put. -/
theorem putPublicKey_of_cached (valid : self.Valid) {limit : Nat} (clear : self.Clear uuid limit)
    (within : limit ≤ 32) (versions : self.ClearVersions uuid ver) (cached : self.Cached server)
    (holds : server uuid ver = some key) :
    ∃ after, putPublicKey uuid ver key self = some ((), after) ∧ after.Valid ∧
      after.Cached server := by
  obtain ⟨user, found, got, answered⟩ := valid.answers clear within
  have kept := answered.cached cached
  have entries := kept user answered.inside
  have clearUser := answered.clearVersions versions user answered.inside answered.own
  rw [answered.own] at entries
  have puts : ∃ next, (found.objects user).putPublicKey ver key = some next ∧
      ∀ kv ∈ next.getAllPubKeys, server uuid kv.kVer = some kv.kPublic := by
    unfold UserCrypto.putPublicKey
    rcases clearUser.value with none | ⟨present, looked, inside⟩
    · obtain ⟨next, inserted⟩ := UserCrypto.exists_insert_iff.mpr clearUser.room
      rw [none, Option.bind_some]
      refine ⟨next, inserted, fun kv entry => ?_⟩
      rcases (UserCrypto.mem_getAllPubKeys_insert inserted kv).mp entry with new | old
      · subst new
        exact holds
      · exact entries kv old
    · have same : present = key :=
        Option.some.inj ((entries _ inside).symm.trans holds)
      rw [looked, Option.bind_some]
      exact ⟨found.objects user, if_pos same, entries⟩
  obtain ⟨next, put, nextEntries⟩ := puts
  refine ⟨{ found with objects := Function.update found.objects user next }, ?_,
    answered.valid.withObjects _, kept.update ?_⟩
  · unfold putPublicKey
    rw [bind_apply, got]
    exact congrArg (Option.map _) put
  · rw [answered.own]
    exact nextEntries

/-! ## The synchronous query -/

section Query

variable {pb : Protobuf} {service : KeyService}

private theorem getRsaKey_cached (looked : cachedPublicKey uuid ver self = some (some key, after)) :
    getRsaKey pb service uuid ver self = some ((.ok, .key (some key)), after) := by
  unfold getRsaKey
  rw [bind_apply, looked]
  rfl

private theorem getRsaKey_refused (missed : cachedPublicKey uuid ver self = some (none, after))
    (replied : service.queryPubKey ⟨uuid, ver, 0⟩ = some ⟨[]⟩) :
    getRsaKey pb service uuid ver self = some ((.failure, .key none), after) := by
  unfold getRsaKey
  rw [bind_apply, missed, Option.bind_some]
  dsimp only
  rw [replied]
  rfl

private theorem getRsaKey_answered {put : Crypto}
    (missed : cachedPublicKey uuid ver self = some (none, after))
    (replied : service.queryPubKey ⟨uuid, ver, 0⟩ = some ⟨[⟨uuid, ver, key⟩]⟩)
    (released : (pb.release key).isSome) (kept : putPublicKey uuid ver key after = some ((), put)) :
    getRsaKey pb service uuid ver self = some ((.ok, .key (some key)), put) := by
  unfold getRsaKey
  rw [bind_apply, missed, Option.bind_some]
  dsimp only
  rw [replied]
  dsimp only
  rw [bind_apply, deref_apply, Protobuf.release_of_isSome released, Option.map_some,
    Option.bind_some, bind_apply, kept]
  rfl

end Query

end Crypto

/-! ## The two together -/

/-- A client and the database of its server. -/
structure KeySystem where
  client : Crypto
  db : KeyValDb

/-- The synchronous calls. A generation comes with the keys the server makes, if it makes any. -/
inductive KeyCall where
  | genRsaKey (uuid keyVer : Key64) (pair : Option (Bytes × Bytes))
  | putRsaKeypair (uuid kver : Key64) (pubKey privKey : Bytes)
  | getRsaKey (uuid keyVer : Key64)
  | getPublicKeys (uuid : Key64)

namespace KeySystem

open Crypto (Status Data ClientM)
open KeyServer (held)

variable (lib : Messages) (pb : Protobuf) (sign : SignedMessage → Option SignedMessage)

/-- The server over its database; every request is delivered. -/
def service (db : KeyValDb) (pair : Option (Bytes × Bytes)) : KeyService where
  generateKey := fun reqt => some (KeyServer.generateKey lib db pair reqt).1
  queryPubKey := fun reqt => some (KeyServer.queryPubKey lib pb db reqt)
  signMesg := sign
  saveKeyPair := fun reqt => some (KeyServer.saveKeyPair lib db reqt).1
  listPublicKeys := fun reqt => some (KeyServer.listPublicKeys lib db reqt.uuid reqt.keyVerLo)

/-- The database after the request of a call. -/
def stored (db : KeyValDb) : KeyCall → KeyValDb
  | .genRsaKey uuid keyVer pair => (KeyServer.generateKey lib db pair ⟨uuid, keyVer, 0⟩).2
  | .putRsaKeypair uuid kver pubKey privKey =>
      (KeyServer.saveKeyPair lib db ⟨⟨uuid, kver, pubKey⟩, privKey⟩).2
  | .getRsaKey _ _ | .getPublicKeys _ => db

def operation (db : KeyValDb) : KeyCall → ClientM (Status × Data)
  | .genRsaKey uuid keyVer pair =>
      Crypto.genRsaKey pb (service lib pb sign db pair) uuid keyVer
  | .putRsaKeypair uuid kver pubKey privKey =>
      Crypto.putRsaKeypair (service lib pb sign db none) uuid kver pubKey privKey
  | .getRsaKey uuid keyVer => Crypto.getRsaKey pb (service lib pb sign db none) uuid keyVer
  | .getPublicKeys uuid => Crypto.getPublicKeys (service lib pb sign db none) uuid

/-- A call; a failed assertion of the client ends the program. -/
def machine : Machine KeySystem KeyCall (Status × Data) where
  step := fun state call =>
    (operation lib pb sign state.db call state.client).map fun result =>
      (⟨result.2, stored lib state.db call⟩, result.1)

/-- A new client, and a server that was told these keys. -/
def start (maxUsers : Nat) (saves : List KeyServerDb.Save) : KeySystem where
  client := Crypto.create maxUsers
  db := saves.foldl (KeyServerDb.saveStep lib) ∅

/-- A key, or that there is none. -/
def keyAnswer : Option Bytes → Status × Data
  | some key => (.ok, .key (some key))
  | none => (.failure, .key none)

/-- What a call returns: the key the server holds, or all it holds for the uuid. -/
def Right (state : KeySystem) : KeyCall → Status × Data → Prop
  | .getRsaKey uuid keyVer, told => told = keyAnswer (held lib state.db uuid keyVer)
  | .getPublicKeys uuid, told =>
      ∃ krec, told = (.ok, .keys krec) ∧
        ∀ kv, kv ∈ krec ↔ held lib state.db uuid kv.kVer = some kv.kPublic
  | _, _ => True

/-- No resident user of the uuid has another key under the version. -/
def Fits (client : Crypto) (uuid ver : Key64) (key : Bytes) : Prop :=
  ∀ user ∈ client.users.mLru, client.keyOf user = uuid →
    ∀ kv ∈ (client.objects user).getAllPubKeys, kv.kVer = ver → kv.kPublic = key

instance (client : Crypto) (uuid ver : Key64) (key : Bytes) :
    Decidable (Fits client uuid ver key) :=
  inferInstanceAs (Decidable (∀ user ∈ client.users.mLru, _))

/-- The calls after which client and server stay together. Nothing is put but for the uuid zero,
which the server leaves in its reply; no cached version gets another key; and a listing asks for a
uuid all of whose versions are cached. -/
def Careful (state : KeySystem) : KeyCall → Prop
  | .genRsaKey _ _ none => True
  | .genRsaKey uuid keyVer (some (_, pubkey)) =>
      (pb.release pubkey).isSome ∧ state.client.Clear uuid 32 ∧
        state.client.ClearVersions uuid keyVer ∧ Fits state.client uuid keyVer pubkey
  | .putRsaKeypair uuid kver pubKey _ =>
      uuid = 0 ∧ state.client.Clear uuid 32 ∧ Fits state.client uuid kver pubKey
  | .getRsaKey uuid keyVer =>
      state.client.Clear uuid 31 ∧ state.client.ClearVersions uuid keyVer ∧
        ∀ key ∈ held lib state.db uuid keyVer, (pb.release key).isSome
  | .getPublicKeys uuid =>
      state.client.Clear uuid 32 ∧
        ∀ ver ∈ (KeyServerDb.queryKeyVers lib state.db uuid).getD [],
          ver ∈ state.client.cachedVersions uuid

instance (state : KeySystem) : ∀ call, Decidable (Careful lib pb state call)
  | .genRsaKey _ _ none => isTrue trivial
  | .genRsaKey _ _ (some _) => inferInstanceAs (Decidable (_ ∧ _))
  | .putRsaKeypair _ _ _ _ => inferInstanceAs (Decidable (_ ∧ _))
  | .getRsaKey _ _ => inferInstanceAs (Decidable (_ ∧ _))
  -- over the listed versions, not over all of them
  | .getPublicKeys _ => @instDecidableAnd _ _ inferInstance (List.decidableBAll _ _)

/-- What careful calls keep. -/
structure Together (state : KeySystem) : Prop where
  valid : state.client.Valid
  cached : state.client.Cached (held lib state.db)
  built : ∃ saves, Built lib saves state.db

variable {lib pb sign} {state : KeySystem} {uuid ver : Key64} {key : Bytes}

/-- The keys of the client are those of the server after a save that fits them. -/
theorem Together.cached_save (together : Together lib state) (privkey : Bytes)
    (fits : Fits state.client uuid ver key) :
    state.client.Cached (held lib (saveAccount lib state.db uuid ver privkey key)) := by
  obtain ⟨saves, built⟩ := together.built
  intro user inside kv entry
  rw [KeyServer.held_saveAccount built]
  by_cases same : (uuid, ver) = (state.client.keyOf user, kv.kVer)
  · rw [if_pos same]
    rw [Prod.mk.injEq] at same
    exact congrArg some (fits user inside same.1.symm kv entry same.2.symm).symm
  · rw [if_neg same]
    exact together.cached user inside kv entry

/-- The index of the server lists every version it holds. -/
theorem Together.listed (together : Together lib state)
    (holds : held lib state.db uuid ver = some key) :
    ver ∈ (KeyServerDb.queryKeyVers lib state.db uuid).getD [] := by
  obtain ⟨saves, built⟩ := together.built
  rw [built.queryKeyVers_eq, KeyServer.mem_versionsOf]
  unfold held at holds
  rw [built.queryAccountKey_eq] at holds
  cases last : KeyServerDb.lastOf saves uuid ver with
  | none =>
      rw [last] at holds
      cases holds
  | some save => rfl

private theorem built_save (built : ∃ saves, Built lib saves state.db) (privkey : Bytes) :
    ∃ saves, Built lib saves (saveAccount lib state.db uuid ver privkey key) := by
  obtain ⟨saves, built⟩ := built
  exact ⟨_, built.saveStep ⟨uuid, ver, privkey, key⟩⟩

/-- The call returns, as it should, and the two stay together. -/
def Served (lib : Messages) (pb : Protobuf) (sign : SignedMessage → Option SignedMessage)
    (state : KeySystem) (call : KeyCall) : Prop :=
  ∃ next told, (machine lib pb sign).step state call = some (next, told) ∧ Together lib next ∧
    Right lib state call told

private theorem served_of_run {call : KeyCall} {told : Status × Data} {client : Crypto}
    (ran : operation lib pb sign state.db call state.client = some (told, client))
    (together : Together lib ⟨client, stored lib state.db call⟩)
    (right : Right lib state call told) :
    Served lib pb sign state call := by
  refine ⟨⟨client, stored lib state.db call⟩, told, ?_, together, right⟩
  change (operation lib pb sign state.db call state.client).map _ = _
  rw [ran]
  rfl

private theorem served_genRsaKey (together : Together lib state) {pair : Option (Bytes × Bytes)}
    (careful : Careful lib pb state (.genRsaKey uuid ver pair)) :
    Served lib pb sign state (.genRsaKey uuid ver pair) := by
  cases pair with
  | none => exact served_of_run rfl together trivial
  | some pair =>
      obtain ⟨privkey, pubkey⟩ := pair
      obtain ⟨released, clear, versions, fits⟩ := careful
      obtain ⟨saves, built⟩ := together.built
      have holds : held lib (saveAccount lib state.db uuid ver privkey pubkey) uuid ver =
          some pubkey := by
        rw [KeyServer.held_saveAccount built, if_pos rfl]
      obtain ⟨after, put, valid, cached⟩ := Crypto.putPublicKey_of_cached together.valid clear
        (Nat.le_refl 32) versions (together.cached_save privkey fits) holds
      have ran : operation lib pb sign state.db (.genRsaKey uuid ver (some (privkey, pubkey)))
          state.client = some ((.ok, .key (some pubkey)), after) := by
        change (Crypto.deref (pb.release pubkey) >>= fun pubKey =>
          Crypto.putPublicKey uuid ver pubKey >>= fun _ =>
            pure (Status.ok, Data.key (some pubKey))) state.client = _
        rw [Crypto.bind_apply, Crypto.deref_apply, Protobuf.release_of_isSome released]
        change (Crypto.putPublicKey uuid ver pubkey >>= fun _ =>
          pure (Status.ok, Data.key (some pubkey))) state.client = _
        rw [Crypto.bind_apply, put]
        rfl
      exact served_of_run ran ⟨valid, cached, built_save together.built privkey⟩ trivial

private theorem served_putRsaKeypair (together : Together lib state) {privkey : Bytes}
    (careful : Careful lib pb state (.putRsaKeypair uuid ver key privkey)) :
    Served lib pb sign state (.putRsaKeypair uuid ver key privkey) := by
  obtain ⟨rfl, clear, fits⟩ := careful
  obtain ⟨user, found, got, answered⟩ := together.valid.answers clear (Nat.le_refl 32)
  have kept := answered.cached (together.cached_save privkey fits)
  have ran : operation lib pb sign state.db (.putRsaKeypair 0 ver key privkey) state.client =
      some ((.ok, .nothing), found) := by
    -- nothing is put: the client is the one the lookup left
    have same : Function.update found.objects user (found.objects user) = found.objects :=
      Function.update_eq_self _ _
    have called : Crypto.getPublicKeysCallback ⟨0, []⟩ state.client = some ([], found) := by
      unfold Crypto.getPublicKeysCallback
      rw [Crypto.bind_apply, got]
      change some ([], { found with
        objects := Function.update found.objects user (found.objects user) }) = _
      rw [same]
    change (Crypto.check ((0 : Key64) = 0) >>= fun _ =>
      Crypto.getPublicKeysCallback ⟨0, []⟩ >>= fun _ =>
        pure (Status.ok, Data.nothing)) state.client = _
    rw [Crypto.bind_apply, Crypto.check_apply, if_pos rfl]
    change (Crypto.getPublicKeysCallback ⟨0, []⟩ >>= fun _ =>
      pure (Status.ok, Data.nothing)) state.client = _
    rw [Crypto.bind_apply, called]
    rfl
  exact served_of_run ran ⟨answered.valid, kept, built_save together.built privkey⟩ trivial

private theorem served_getRsaKey (together : Together lib state)
    (careful : Careful lib pb state (.getRsaKey uuid ver)) :
    Served lib pb sign state (.getRsaKey uuid ver) := by
  obtain ⟨clear, versions, released⟩ := careful
  obtain ⟨user, found, got, answered⟩ := together.valid.answers clear (by decide)
  have kept := answered.cached together.cached
  have later := answered.clearVersions versions
  have asked : operation lib pb sign state.db (.getRsaKey uuid ver) =
      Crypto.getRsaKey pb (service lib pb sign state.db none) uuid ver := rfl
  rcases (later user answered.inside answered.own).value with missed | ⟨key, looked, entry⟩
  · have cached := Crypto.cachedPublicKey_eq got missed
    cases holds : held lib state.db uuid ver with
    | none =>
        have replied : (service lib pb sign state.db none).queryPubKey ⟨uuid, ver, 0⟩ =
            some ⟨[]⟩ :=
          congrArg some (KeyServer.queryPubKey_of_held_none pb holds)
        have ran : operation lib pb sign state.db (.getRsaKey uuid ver) state.client =
            some ((.failure, .key none), found) := by
          rw [asked]
          exact Crypto.getRsaKey_refused cached replied
        exact served_of_run ran ⟨answered.valid, kept, together.built⟩
          (congrArg keyAnswer holds).symm
    | some key =>
        have replied : (service lib pb sign state.db none).queryPubKey ⟨uuid, ver, 0⟩ =
            some ⟨[⟨uuid, ver, key⟩]⟩ :=
          congrArg some (KeyServer.queryPubKey_of_held holds (released key holds))
        obtain ⟨after, put, valid, cachedAfter⟩ := Crypto.putPublicKey_of_cached answered.valid
          (answered.clear 31 clear) (Nat.le_refl 32) later kept holds
        have ran : operation lib pb sign state.db (.getRsaKey uuid ver) state.client =
            some ((.ok, .key (some key)), after) := by
          rw [asked]
          exact Crypto.getRsaKey_answered cached replied (released key holds) put
        exact served_of_run ran ⟨valid, cachedAfter, together.built⟩
          (congrArg keyAnswer holds).symm
  · have holds := kept user answered.inside _ entry
    rw [answered.own] at holds
    have ran : operation lib pb sign state.db (.getRsaKey uuid ver) state.client =
        some ((.ok, .key (some key)), found) := by
      rw [asked]
      exact Crypto.getRsaKey_cached (Crypto.cachedPublicKey_eq got looked)
    exact served_of_run ran ⟨answered.valid, kept, together.built⟩
      (congrArg keyAnswer holds).symm

private theorem served_getPublicKeys (together : Together lib state)
    (careful : Careful lib pb state (.getPublicKeys uuid)) :
    Served lib pb sign state (.getPublicKeys uuid) := by
  obtain ⟨clear, complete⟩ := careful
  obtain ⟨user, found, got, answered⟩ := together.valid.answers clear (Nat.le_refl 32)
  have kept := answered.cached together.cached
  have entries := kept user answered.inside
  rw [answered.own] at entries
  have ran : operation lib pb sign state.db (.getPublicKeys uuid) state.client =
      some ((.ok, .keys (found.objects user).getAllPubKeys), found) := by
    change Crypto.getPublicKeys (service lib pb sign state.db none) uuid state.client = _
    unfold Crypto.getPublicKeys
    rw [Crypto.bind_apply, Crypto.cachedAllPubKeys_eq got]
    rfl
  refine served_of_run ran ⟨answered.valid, kept, together.built⟩ ⟨_, rfl, fun kv => ?_⟩
  constructor
  · exact fun inside => entries kv inside
  · intro holds
    have cached : (found.objects user).getAllPubKeys.map KeyVer.kVer =
        state.client.cachedVersions uuid := by
      unfold Crypto.cachedVersions
      rw [got]
    have listed := complete kv.kVer (together.listed holds)
    rw [← cached] at listed
    obtain ⟨other, inside, same⟩ := List.mem_map.mp listed
    have both := entries other inside
    rw [same, holds, Option.some.injEq] at both
    obtain ⟨kVer, kPublic⟩ := kv
    obtain ⟨otherVer, otherPublic⟩ := other
    cases same
    cases both
    exact inside

private theorem together_start (lib : Messages) {maxUsers : Nat} (positive : 0 < maxUsers)
    (saves : List KeyServerDb.Save) : Together lib (start lib maxUsers saves) where
  valid := by
    constructor
    case resident =>
      refine ⟨⟨DHashObj.resides_init _ positive, fun user none => ?_⟩, ?_, ?_⟩
      · cases none
      · exact Int.natCast_pos.mpr positive
      · exact Int.natCast_nonneg maxUsers
    case free => rfl
    case unused => exact fun user none => by cases none
  cached := fun user none => by cases none
  built := by
    have built := KeyServer.built_foldl lib saves KeyServerDb.built_empty
    exact ⟨_, built⟩

/-- **One client and its server.** In every list of careful calls no assertion of the client fails,
every key returned is the one the server holds, and every listing is all it holds. -/
theorem answers_right (lib : Messages) (pb : Protobuf)
    (sign : SignedMessage → Option SignedMessage) {maxUsers : Nat} (positive : 0 < maxUsers)
    (saves : List KeyServerDb.Save) (calls : List KeyCall)
    (careful : (machine lib pb sign).Meets (Careful lib pb) (start lib maxUsers saves) calls) :
    (machine lib pb sign).Answers (Right lib) (start lib maxUsers saves) calls := by
  refine Machine.answers_of_meets ?_ (together_start lib positive saves) careful
  intro state call together careful
  cases call with
  | genRsaKey uuid keyVer pair => exact served_genRsaKey together careful
  | putRsaKeypair uuid kver pubKey privKey => exact served_putRsaKeypair together careful
  | getRsaKey uuid keyVer => exact served_getRsaKey together careful
  | getPublicKeys uuid => exact served_getPublicKeys together careful

/-- A key is fetched, listed, and listed again beside one that is generated. -/
theorem answers_right_generated :
    (machine Kdb.inOrder Protobuf.nullWhenEmpty fun _ => none).Answers (Right Kdb.inOrder)
      (start Kdb.inOrder 3 [⟨7, 1, [0x71], [0x70]⟩])
      [.getRsaKey 7 1, .getPublicKeys 7, .genRsaKey 7 2 (some ([0x73], [0x72])),
        .getPublicKeys 7] :=
  answers_right Kdb.inOrder Protobuf.nullWhenEmpty (fun _ => none) (by decide)
    [⟨7, 1, [0x71], [0x70]⟩]
    [.getRsaKey 7 1, .getPublicKeys 7, .genRsaKey 7 2 (some ([0x73], [0x72])), .getPublicKeys 7]
    (by decide +kernel)

/-- The first put of a key ends the client: the server leaves the uuid of its reply zero. -/
theorem put_not_answered :
    ¬ (machine Kdb.inOrder Protobuf.nullWhenEmpty fun _ => none).Answers (Right Kdb.inOrder)
      (start Kdb.inOrder 3 []) [.putRsaKeypair 7 1 [0x70] [0x71]] := by
  have ends : ((machine Kdb.inOrder Protobuf.nullWhenEmpty fun _ => none).step
      (start Kdb.inOrder 3 []) (.putRsaKeypair 7 1 [0x70] [0x71])).isNone := by
    decide +kernel
  intro answers
  obtain ⟨next, told, stepped, -⟩ := answers
  rw [stepped] at ends
  cases ends

end KeySystem

end Tvntd
