import Tvntd.App.KeyService

/-! # Listing every account

The listing walks the keys from the index of account zero and stops at the first
key that is not that of an index. Nothing in the database lies between the
records and that index or beyond the indices, so that the walk meets them all
and nothing else.
-/

namespace Tvntd.KeyServer

open Proto3 Kdb KeyServerDb

structure AllUserRecords where
  uuidStart : BitVec 64
  uuidEnd : BitVec 64
  uuidTotal : BitVec 64
  account : List UserKeyRecord
deriving DecidableEq

variable (lib : Messages)

/-- A version with its public key, which stays empty where no record is found. -/
def keyInfoOf (db : KeyValDb) (uid keyVer : BitVec 64) : PubKeyVer :=
  ⟨keyVer, ((queryAccountKey lib db uid keyVer).map Prod.snd).getD []⟩

def accountOf (db : KeyValDb) (uid : BitVec 64) (val : Bytes) : UserKeyRecord :=
  let dbRec := (lib.versions.parse val).getD default
  ⟨uid, dbRec.keyVers.map (keyInfoOf lib db uid)⟩

/-- The response so far, and the counter and the uuid that the loop keeps. -/
structure Listing where
  cnt : BitVec 32
  uid : BitVec 64
  resp : AllUserRecords

def Listing.add (listing : Listing) (account : UserKeyRecord) : Listing :=
  let resp := { listing.resp with account := listing.resp.account ++ [account] }
  { cnt := listing.cnt + 1
    uid := account.uuid
    resp := if listing.cnt = 0 then { resp with uuidStart := account.uuid } else resp }

def listAllLoop (db : KeyValDb) (listing : Listing) : List (Bytes × Bytes) → Listing
  | [] => listing
  | entry :: rest =>
      match UuidKey.parse entry.1 with
      | none => listing
      | some ukey =>
          if ukey.dbPrefix = DbPrefix.userUuid.value then
            listAllLoop db (listing.add (accountOf lib db ukey.uuid entry.2)) rest
          else listing

def listAllAcct (db : KeyValDb) (uuidStart : BitVec 64) : AllUserRecords :=
  let ukey : UuidKey := ⟨DbPrefix.userUuid.value, uuidStart⟩
  let listing := listAllLoop lib db ⟨0, 0, ⟨0, 0, 0, []⟩⟩ (OrderedMap.seek db ukey.serialize)
  { listing.resp with uuidTotal := listing.cnt.setWidth 64, uuidEnd := listing.uid }

variable {lib}

@[simp] theorem Listing.add_account (listing : Listing) (account : UserKeyRecord) :
    (listing.add account).resp.account = listing.resp.account ++ [account] := by
  unfold Listing.add
  dsimp only
  split <;> rfl

/-- The entries with the keys of indices from the front on, each with its uuid. -/
def decoded : List (Bytes × Bytes) → List (BitVec 64 × Bytes)
  | [] => []
  | entry :: rest =>
      match UuidKey.parse entry.1 with
      | none => []
      | some ukey =>
          if ukey.dbPrefix = DbPrefix.userUuid.value then
            (ukey.uuid, entry.2) :: decoded rest
          else []

/-- One account for every entry that is decoded. -/
theorem account_listAllLoop (db : KeyValDb) (entries : List (Bytes × Bytes)) :
    ∀ listing : Listing, (listAllLoop lib db listing entries).resp.account =
      listing.resp.account ++
        (decoded entries).map fun index => accountOf lib db index.1 index.2 := by
  induction entries with
  | nil => exact fun listing => (List.append_nil _).symm
  | cons entry rest ih =>
      intro listing
      unfold listAllLoop decoded
      cases UuidKey.parse entry.1 with
      | none => exact (List.append_nil _).symm
      | some ukey =>
          by_cases index : ukey.dbPrefix = DbPrefix.userUuid.value
          · simp [index, ih]
          · simp [index]

/-- Where all keys are those of indices the walk does not stop. -/
theorem decoded_of_indices {entries : List (Bytes × Bytes)}
    (indices : ∀ entry ∈ entries, ∃ uuid, entry.1 = uuidKey uuid) :
    entries = (decoded entries).map fun index => (uuidKey index.1, index.2) := by
  induction entries with
  | nil => rfl
  | cons entry rest ih =>
      obtain ⟨uuid, key⟩ := indices entry List.mem_cons_self
      have later := ih fun entry inside => indices entry (List.mem_cons_of_mem _ inside)
      have here : decoded (entry :: rest) = (uuid, entry.2) :: decoded rest := by
        rw [decoded, key, parse_uuidKey]
        exact if_pos rfl
      rw [here, List.map_cons, ← later, ← key]

/-! ## What the walk meets -/

/-- From the index of account zero on there are only indices. -/
theorem index_of_mem_seek {saves : List Save} {db : KeyValDb} (built : Built lib saves db)
    {entry : Bytes × Bytes} (visited : entry ∈ OrderedMap.seek db (uuidKey 0)) :
    ∃ uuid, entry.1 = uuidKey uuid := by
  rcases built.keyed _ _ (OrderedMap.getElem?_of_mem_seek visited) with index | record
  · exact index
  · obtain ⟨uuid, keyVer, key⟩ := record
    have ahead := OrderedMap.isLE_of_mem_seek visited
    have before := userKey_lt_uuidKey uuid keyVer 0
    rw [← key] at before
    have around := Std.TransCmp.lt_of_isLE_of_lt ahead before
    exact absurd rfl (OrderedMap.ne_of_compare_lt around)

/-- The walk decodes the index of an account exactly where the database holds it. -/
theorem mem_decoded_iff {saves : List Save} {db : KeyValDb} (built : Built lib saves db)
    (uuid : BitVec 64) (val : Bytes) :
    (uuid, val) ∈ decoded (OrderedMap.seek db (uuidKey 0)) ↔ db[uuidKey uuid]? = some val := by
  have indices := decoded_of_indices fun entry visited => index_of_mem_seek built visited
  constructor
  · intro inside
    have visited : (uuidKey uuid, val) ∈ OrderedMap.seek db (uuidKey 0) := by
      rw [indices]
      exact List.mem_map_of_mem inside
    exact OrderedMap.getElem?_of_mem_seek visited
  · intro held
    have visited : (uuidKey uuid, val) ∈ OrderedMap.seek db (uuidKey 0) :=
      OrderedMap.mem_seek_of_isLE held (uuidKey_zero_isLE uuid)
    rw [indices] at visited
    obtain ⟨⟨other, value⟩, inside, same⟩ := List.mem_map.mp visited
    obtain ⟨keys, values⟩ := Prod.mk.inj same
    rw [← uuidKey_inj keys, ← values]
    exact inside

/-- No account is decoded twice: the keys only grow. -/
theorem nodup_decoded {saves : List Save} {db : KeyValDb} (built : Built lib saves db) :
    ((decoded (OrderedMap.seek db (uuidKey 0))).map Prod.fst).Nodup := by
  have indices := decoded_of_indices fun entry visited => index_of_mem_seek built visited
  have ordered := OrderedMap.seek_ordered db (uuidKey 0)
  rw [indices, List.pairwise_map] at ordered
  rw [List.Nodup, List.pairwise_map]
  apply ordered.imp
  intro left right before same
  rw [same] at before
  exact OrderedMap.ne_of_compare_lt before rfl

/-! ## What is listed -/

variable (lib) in
/-- Every account with an index, once, and for each its stored versions in their order with the
public keys last saved under them. No record is among what the walk visits. -/
structure ListsAccounts (saves : List Save) (db : KeyValDb) (resp : AllUserRecords) : Prop where
  nodup : (resp.account.map UserKeyRecord.uuid).Nodup
  mem_iff : ∀ uuid, uuid ∈ resp.account.map UserKeyRecord.uuid ↔ uuidKey uuid ∈ db
  versions : ∀ record ∈ resp.account,
    queryKeyVers lib db record.uuid = some (record.keyInfo.map PubKeyVer.keyVer)
  pubKey : ∀ record ∈ resp.account, ∀ info ∈ record.keyInfo,
    (queryAccountKey lib db record.uuid info.keyVer).map Prod.snd = some info.pubKey ∧
      (lastOf saves record.uuid info.keyVer).map Save.pubkey = some info.pubKey
  visits : ∀ entry ∈ OrderedMap.seek db (uuidKey 0), ∀ uuid keyVer, entry.1 ≠ userKey uuid keyVer

private theorem listAllAcct_account (db : KeyValDb) :
    (listAllAcct lib db 0).account =
      (decoded (OrderedMap.seek db (uuidKey 0))).map fun index =>
        accountOf lib db index.1 index.2 := by
  have walked := @account_listAllLoop lib db (OrderedMap.seek db (uuidKey 0))
    ⟨0, 0, ⟨0, 0, 0, []⟩⟩
  rw [List.nil_append] at walked
  exact walked

/-- A listed account is that of an index the database holds. -/
theorem of_mem_account {saves : List Save} {db : KeyValDb} (built : Built lib saves db)
    {record : UserKeyRecord} (listed : record ∈ (listAllAcct lib db 0).account) :
    versionsOf saves record.uuid ≠ [] ∧
      record.keyInfo = (versionsOf saves record.uuid).map (keyInfoOf lib db record.uuid) := by
  rw [listAllAcct_account] at listed
  obtain ⟨⟨uuid, val⟩, inside, rfl⟩ := List.mem_map.mp listed
  have held := (mem_decoded_iff built uuid val).mp inside
  rw [built.index uuid] at held
  by_cases unlisted : versionsOf saves uuid = []
  · rw [if_pos unlisted] at held
    cases held
  · rw [if_neg unlisted] at held
    cases held
    refine ⟨unlisted, ?_⟩
    simp only [accountOf, lib.versions.parse_serialize, Option.getD_some]

private theorem keyInfoOf_pubKey {saves : List Save} {db : KeyValDb} (built : Built lib saves db)
    {uuid keyVer : BitVec 64} (listed : keyVer ∈ versionsOf saves uuid) :
    (queryAccountKey lib db uuid keyVer).map Prod.snd =
        some (keyInfoOf lib db uuid keyVer).pubKey ∧
      (lastOf saves uuid keyVer).map Save.pubkey =
        some (keyInfoOf lib db uuid keyVer).pubKey := by
  obtain ⟨save, last⟩ := Option.isSome_iff_exists.mp (mem_versionsOf.mp listed)
  simp [keyInfoOf, built.queryAccountKey_eq, last]

/-- **All accounts.** Whatever was saved, the listing from account zero on is complete. -/
theorem listAllAcct_complete (lib : Messages) (saves : List Save) :
    ListsAccounts lib saves (saves.foldl (saveStep lib) ∅)
      (listAllAcct lib (saves.foldl (saveStep lib) ∅) 0) := by
  have built := built_foldl lib saves (@built_empty lib)
  rw [List.nil_append] at built
  generalize saves.foldl (saveStep lib) ∅ = db at built ⊢
  have uuids : (listAllAcct lib db 0).account.map UserKeyRecord.uuid =
      (decoded (OrderedMap.seek db (uuidKey 0))).map Prod.fst := by
    rw [listAllAcct_account, List.map_map]
    rfl
  constructor
  case nodup =>
    rw [uuids]
    exact nodup_decoded built
  case mem_iff =>
    intro uuid
    rw [uuids, List.mem_map, ← Std.ExtTreeMap.isSome_getElem?_iff_mem, Option.isSome_iff_exists]
    constructor
    · rintro ⟨⟨_, val⟩, inside, rfl⟩
      exact ⟨val, (mem_decoded_iff built _ val).mp inside⟩
    · rintro ⟨val, held⟩
      exact ⟨(uuid, val), (mem_decoded_iff built uuid val).mpr held, rfl⟩
  case versions =>
    intro record listed
    obtain ⟨some, keyInfo⟩ := of_mem_account built listed
    have versions : (keyInfoOf lib db record.uuid · |>.keyVer) = id := rfl
    rw [queryKeyVers, built.read_versions, if_neg some, keyInfo, List.map_map,
      Function.comp_def, versions, List.map_id]
    rfl
  case pubKey =>
    intro record listed info inside
    obtain ⟨-, keyInfo⟩ := of_mem_account built listed
    rw [keyInfo] at inside
    obtain ⟨keyVer, version, rfl⟩ := List.mem_map.mp inside
    exact keyInfoOf_pubKey built version
  case visits =>
    intro entry visited uuid keyVer same
    obtain ⟨other, key⟩ := index_of_mem_seek built visited
    exact userKey_ne_uuidKey uuid keyVer other (same.symm.trans key)

/-- Account 9 was saved before account 0, and version 300 of account 0 twice. -/
example : ((listAllAcct inOrder ([⟨9, 1, [], [0x70]⟩, ⟨0, 300, [], [0x71]⟩,
    ⟨0, 300, [], [0x72]⟩].foldl (saveStep inOrder) ∅) 0).account) =
      [⟨0, [⟨300, [0x72]⟩, ⟨300, [0x72]⟩]⟩, ⟨9, [⟨1, [0x70]⟩]⟩] := by
  decide +kernel

end Tvntd.KeyServer
