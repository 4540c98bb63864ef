import Tvntd.App.KeyServerDb

/-! # Listing the public keys of an account

The listing walks the keys from the one it seeks, reads each as the key of a
record, and stops at the first of another account. The key it seeks carries the
prefix of the indices: the walk meets the index of the account, which it reads
as a record, and then the index of the next account.
-/

namespace Tvntd.KeyServer

open Proto3 Kdb KeyServerDb

structure PubKeyVer where
  keyVer : BitVec 64
  pubKey : Bytes
deriving DecidableEq

structure UserKeyRecord where
  uuid : BitVec 64
  keyInfo : List PubKeyVer
deriving DecidableEq

variable (lib : Messages)

def listLoop (uuid : BitVec 64) : List (Bytes × Bytes) → List PubKeyVer
  | [] => []
  | entry :: rest =>
      match UserKey.parse entry.1 with
      | none => []
      | some ukey =>
          if ukey.uuid = uuid then
            match lib.records.parse entry.2 with
            | none => []
            | some record => ⟨record.user.keyVersion, record.user.pubKey⟩ :: listLoop uuid rest
          else []

def listPublicKeys (db : KeyValDb) (uuid keyVerLo : BitVec 64) : UserKeyRecord :=
  let ukey : UserKey := ⟨DbPrefix.userUuid.value, uuid, keyVerLo⟩
  ⟨uuid, listLoop lib uuid (OrderedMap.seek db ukey.serialize)⟩

variable {lib}

/-- Beyond the index of an account there are only indices of others. -/
theorem listLoop_of_beyond {saves : List Save} {db : KeyValDb} (built : Built lib saves db)
    {uuid : BitVec 64} {entries : List (Bytes × Bytes)}
    (beyond : ∀ entry ∈ entries, compare (uuidKey uuid) entry.1 = .lt ∧
      db[entry.1]? = some entry.2) : listLoop lib uuid entries = [] := by
  cases entries with
  | nil => rfl
  | cons entry rest =>
      obtain ⟨further, held⟩ := beyond entry List.mem_cons_self
      rcases built.keyed _ _ held with ⟨other, key⟩ | ⟨other, keyVer, key⟩
      · have apart : other ≠ uuid := by
          rintro rfl
          exact OrderedMap.ne_of_compare_lt further key.symm
        have read : UserKey.parse entry.1 = some ⟨DbPrefix.userUuid.value, other, 0⟩ := by
          rw [key, uuidKey_eq, UserKey.parse_serialize]
        simp only [listLoop, read, if_neg apart]
      · have behind := userKey_lt_uuidKey other keyVer uuid
        rw [← key] at behind
        have around := Std.TransCmp.lt_trans further behind
        exact absurd rfl (OrderedMap.ne_of_compare_lt around)

/-- What the bytes of an account's index hold when they are read as a record. -/
def indexRecord (lib : Messages) (saves : List Save) (uuid : BitVec 64) : Option PubKeyVer :=
  (lib.records.parse (lib.versions.serialize ⟨versionsOf saves uuid⟩)).map fun record =>
    ⟨record.user.keyVersion, record.user.pubKey⟩

/-- The listing never meets a record of the account. -/
theorem listPublicKeys_eq {saves : List Save} {db : KeyValDb} (built : Built lib saves db)
    (uuid : BitVec 64) :
    (listPublicKeys lib db uuid 0).keyInfo =
      if versionsOf saves uuid = [] then [] else (indexRecord lib saves uuid).toList := by
  have sought : (listPublicKeys lib db uuid 0).keyInfo =
      listLoop lib uuid (OrderedMap.seek db (uuidKey uuid)) := by
    rw [uuidKey_eq]
    rfl
  have index := built.index uuid
  rw [sought]
  by_cases unlisted : versionsOf saves uuid = []
  · rw [if_pos unlisted] at index ⊢
    exact listLoop_of_beyond built fun entry inside =>
      ⟨OrderedMap.lt_of_mem_seek_of_absent index inside, OrderedMap.getElem?_of_mem_seek inside⟩
  · rw [if_neg unlisted] at index ⊢
    obtain ⟨rest, visited, beyond⟩ := OrderedMap.seek_of_present index
    have read : UserKey.parse (uuidKey uuid) = some ⟨DbPrefix.userUuid.value, uuid, 0⟩ := by
      rw [uuidKey_eq, UserKey.parse_serialize]
    rw [visited, listLoop]
    simp only [read, if_true, listLoop_of_beyond built beyond, indexRecord]
    cases lib.records.parse (lib.versions.serialize ⟨versionsOf saves uuid⟩) <;> rfl

/-! ## What is listed -/

/-- Exactly the versions saved for the account with the public keys they were last saved with,
each once. -/
structure ListsSaved (saves : List Save) (uuid : BitVec 64) (record : UserKeyRecord) : Prop where
  account : record.uuid = uuid
  nodup : record.keyInfo.Nodup
  mem_iff : ∀ info, info ∈ record.keyInfo ↔
    ∃ save, lastOf saves uuid info.keyVer = some save ∧ save.pubkey = info.pubKey

theorem built_foldl (lib : Messages) (saves : List Save) : ∀ {before : List Save} {db : KeyValDb},
    Built lib before db → Built lib (before ++ saves) (saves.foldl (saveStep lib) db) := by
  induction saves with
  | nil => exact fun built => (List.append_nil _).symm ▸ built
  | cons save saves ih =>
      intro before db built
      have later := ih (built.saveStep save)
      rwa [List.append_assoc, List.singleton_append] at later

private theorem mem_of_lastOf {saves : List Save} {uuid keyVer : BitVec 64} {save : Save}
    (last : lastOf saves uuid keyVer = some save) :
    save ∈ saves ∧ save.account = (uuid, keyVer) := by
  simpa using List.mem_filter.mp (List.mem_of_getLast? last)

theorem mem_versionsOf {saves : List Save} {uuid keyVer : BitVec 64} :
    keyVer ∈ versionsOf saves uuid ↔ (lastOf saves uuid keyVer).isSome := by
  rw [lastOf_isSome_iff, ← List.count_pos_iff, count_versionsOf, List.count_pos_iff]

/-- All saves of the account have the version of one of them, and its index reads as the record of
that version with the public key last saved. -/
def IndexReads (lib : Messages) (saves : List Save) (uuid : BitVec 64) : Prop :=
  ∃ save, lastOf saves uuid save.keyVer = some save ∧
    (∀ keyVer ∈ versionsOf saves uuid, keyVer = save.keyVer) ∧
      indexRecord lib saves uuid = some ⟨save.keyVer, save.pubkey⟩

private theorem listsSaved_single_iff {saves : List Save} {uuid : BitVec 64}
    (listed : versionsOf saves uuid ≠ []) (found : Option PubKeyVer) :
    ListsSaved saves uuid ⟨uuid, found.toList⟩ ↔
      ∃ save, lastOf saves uuid save.keyVer = some save ∧
        (∀ keyVer ∈ versionsOf saves uuid, keyVer = save.keyVer) ∧
          found = some ⟨save.keyVer, save.pubkey⟩ := by
  constructor
  · intro lists
    -- every saved version has a last save, and the listing holds it
    have shown : ∀ keyVer ∈ versionsOf saves uuid, ∃ save,
        lastOf saves uuid keyVer = some save ∧ found = some ⟨keyVer, save.pubkey⟩ := by
      intro keyVer inside
      obtain ⟨save, last⟩ := Option.isSome_iff_exists.mp (mem_versionsOf.mp inside)
      refine ⟨save, last, Option.mem_toList.mp ?_⟩
      exact (lists.mem_iff ⟨keyVer, save.pubkey⟩).mpr ⟨save, last, rfl⟩
    obtain ⟨keyVer, inside⟩ := List.exists_mem_of_ne_nil _ listed
    obtain ⟨save, last, here⟩ := shown keyVer inside
    cases (mem_of_lastOf last).2
    refine ⟨save, last, fun other another => ?_, here⟩
    obtain ⟨_, _, there⟩ := shown other another
    exact (congrArg PubKeyVer.keyVer (Option.some_inj.mp (here.symm.trans there))).symm
  · rintro ⟨save, last, only, rfl⟩
    refine ⟨rfl, List.nodup_singleton _, fun info => ?_⟩
    rw [Option.toList_some, List.mem_singleton]
    constructor
    · rintro rfl
      exact ⟨save, last, rfl⟩
    · rintro ⟨other, again, same⟩
      obtain ⟨keyVer, pubKey⟩ := info
      cases only keyVer (mem_versionsOf.mpr (Option.isSome_iff_exists.mpr ⟨other, again⟩))
      cases last.symm.trans again
      cases same
      rfl

/-- **The public keys.** The listing is that of the saved keys exactly where nothing was saved for
the account, or its index happens to read as its one record. -/
theorem listPublicKeys_right_iff (lib : Messages) (saves : List Save) (uuid : BitVec 64) :
    ListsSaved saves uuid (listPublicKeys lib (saves.foldl (saveStep lib) ∅) uuid 0) ↔
      versionsOf saves uuid = [] ∨ IndexReads lib saves uuid := by
  have shown := listPublicKeys_eq (built_foldl lib saves built_empty) uuid
  have record : listPublicKeys lib (saves.foldl (saveStep lib) ∅) uuid 0 =
      ⟨uuid, (listPublicKeys lib (saves.foldl (saveStep lib) ∅) uuid 0).keyInfo⟩ := rfl
  rw [List.nil_append] at shown
  rw [record, shown]
  by_cases unlisted : versionsOf saves uuid = []
  · rw [if_pos unlisted]
    refine iff_of_true ⟨rfl, List.nodup_nil, fun info => ?_⟩ (Or.inl unlisted)
    refine iff_of_false List.not_mem_nil ?_
    rintro ⟨save, last, -⟩
    have inside := mem_versionsOf.mpr (Option.isSome_iff_exists.mpr ⟨save, last⟩)
    rw [unlisted] at inside
    cases inside
  · rw [if_neg unlisted, listsSaved_single_iff unlisted]
    exact (or_iff_right unlisted).symm

/-- The index of version 16, saved twice, is the bytes of a record of version 16 without a key. -/
theorem listPublicKeys_right_sixteen :
    ListsSaved [⟨7, 16, [], []⟩, ⟨7, 16, [], []⟩] 7
      (listPublicKeys inOrder
        ([⟨7, 16, [], []⟩, ⟨7, 16, [], []⟩].foldl (saveStep inOrder) ∅) 7 0) :=
  (listPublicKeys_right_iff inOrder [⟨7, 16, [], []⟩, ⟨7, 16, [], []⟩] 7).mpr
    (Or.inr ⟨⟨7, 16, [], []⟩, rfl, by simp [versionsOf], by decide +kernel⟩)

/-- A single key is not listed: the index of its account does not read as a record. -/
theorem exists_listPublicKeys_not_right :
    ¬ ListsSaved [⟨7, 1, [], [0x70]⟩] 7
      (listPublicKeys inOrder ([⟨7, 1, [], [0x70]⟩].foldl (saveStep inOrder) ∅) 7 0) := by
  intro lists
  have empty : (listPublicKeys inOrder
      ([⟨7, 1, [], [0x70]⟩].foldl (saveStep inOrder) ∅) 7 0).keyInfo = [] := by
    decide +kernel
  have inside := (lists.mem_iff ⟨1, [0x70]⟩).mpr ⟨⟨7, 1, [], [0x70]⟩, by decide +kernel, rfl⟩
  rw [empty] at inside
  cases inside

end Tvntd.KeyServer
