import Mathlib.Data.List.Nodup
import Tvntd.App.KeyDb
import Tvntd.Lib.Machine

/-! # The accounts of the key server

An account is an index, which lists its versions, and a record for each version.
A save reads the index, appends to it and writes both in one batch. Removal
iterates over the account from the record of version zero on, and the plugin of
that iterator accepts no other key.
-/

namespace Tvntd.KeyServerDb

open Proto3 Kdb

/-! ## The database -/

abbrev KeyValDb := Std.ExtTreeMap Bytes Bytes

instance transOrdKey : Std.TransOrd Bytes := inferInstance

inductive Update where
  | kvPut (key value : Bytes)
  | kvDelete (key : Bytes)

def Update.apply (db : KeyValDb) : Update → KeyValDb
  | kvPut key value => db.insert key value
  | kvDelete key => db.erase key

def writeBatch (db : KeyValDb) (trans : List Update) : KeyValDb := trans.foldl Update.apply db

def read {Message : Type} (codec : Codec Message) (db : KeyValDb) (key : Bytes) : Option Message :=
  db[key]?.bind codec.parse

/-- What an iterator has still to visit, and the key its plugin accepts. -/
structure KeyValIterator where
  entries : List (Bytes × Bytes)
  refKey : Option Bytes

def KeyValIterator.valid (it : KeyValIterator) : Bool :=
  match it.entries with
  | [] => false
  | entry :: _ =>
      match it.refKey with
      | none => true
      | some refKey => refKey = entry.1

/-! ## The operations -/

variable (lib : Messages)

def saveAccount (db : KeyValDb) (uuid keyVer : BitVec 64) (givenPrivkey givenPubkey : Bytes) :
    KeyValDb :=
  let uver := (read lib.versions db (uuidKey uuid)).getD default
  let uver : UuidKeyVers := ⟨uver.keyVers ++ [keyVer]⟩
  let user : UserPubKey := ⟨uuid, keyVer, givenPubkey⟩
  let record : UserPrivKey := ⟨user, givenPrivkey⟩
  writeBatch db
    [.kvPut (uuidKey uuid) (lib.versions.serialize uver),
      .kvPut (userKey uuid keyVer) (lib.records.serialize record)]

/-- The iterator, null unless it stands at the record of version zero, and `max_keys`. -/
def queryAccount (db : KeyValDb) (uuid : BitVec 64) : Option KeyValIterator × Nat :=
  let keyVers := (read lib.versions db (uuidKey uuid)).getD default
  let refKey := userKey uuid 0
  let it : KeyValIterator := ⟨OrderedMap.seek db refKey, some refKey⟩
  if it.valid then (some it, keyVers.keyVers.length) else (none, 0)

def removeLoop (refKey : Option Bytes) : List (Bytes × Bytes) → List UserPrivKey × List Update
  | [] => ([], [])
  | entry :: rest =>
      if KeyValIterator.valid ⟨entry :: rest, refKey⟩ then
        let later := removeLoop refKey rest
        ((lib.records.parse entry.2).getD default :: later.1, .kvDelete entry.1 :: later.2)
      else ([], [])

/-- The loop asks the iterator whether it is valid, and a null iterator cannot answer. -/
def removeAccount (db : KeyValDb) (uuid : BitVec 64) : Option (KeyValDb × List UserPrivKey) :=
  (queryAccount lib db uuid).1.map fun it =>
    let loop := removeLoop lib it.refKey it.entries
    (writeBatch db loop.2, loop.1)

/-- The private and the public key. -/
def queryAccountKey (db : KeyValDb) (uuid keyVer : BitVec 64) : Option (Bytes × Bytes) :=
  (read lib.records db (userKey uuid keyVer)).map fun record =>
    (record.privKey, record.user.pubKey)

def queryKeyVers (db : KeyValDb) (uuid : BitVec 64) : Option (List (BitVec 64)) :=
  (read lib.versions db (uuidKey uuid)).map UuidKeyVers.keyVers

/-! ## Looking up and removing -/

variable {lib}

theorem read_eq_of_codec {Message : Type} {codec : Codec Message} {db : KeyValDb} {key : Bytes}
    {stored : Option Message} (held : db[key]? = stored.map codec.serialize) :
    read codec db key = stored := by
  rw [read, held]
  cases stored with
  | none => rfl
  | some message => exact codec.parse_serialize message

private theorem queryAccount_of_absent {db : KeyValDb} {uuid : BitVec 64}
    (absent : db[userKey uuid 0]? = none) : (queryAccount lib db uuid).1 = none := by
  have invalid : KeyValIterator.valid
      ⟨OrderedMap.seek db (userKey uuid 0), some (userKey uuid 0)⟩ = false := by
    cases visited : OrderedMap.seek db (userKey uuid 0) with
    | nil => rfl
    | cons first rest =>
        have inside : first ∈ OrderedMap.seek db (userKey uuid 0) := visited ▸ List.mem_cons_self
        have beyond := OrderedMap.lt_of_mem_seek_of_absent absent inside
        exact decide_eq_false (OrderedMap.ne_of_compare_lt beyond)
  rw [queryAccount, invalid]
  rfl

/-- Only the record of version zero is removed: the plugin rejects the entry after it. -/
theorem removeAccount_of_present {db : KeyValDb} {uuid : BitVec 64} {value : Bytes}
    (present : db[userKey uuid 0]? = some value) :
    removeAccount lib db uuid =
      some (db.erase (userKey uuid 0), [(lib.records.parse value).getD default]) := by
  obtain ⟨rest, visited, beyond⟩ := OrderedMap.seek_of_present present
  have valid : KeyValIterator.valid
      ⟨OrderedMap.seek db (userKey uuid 0), some (userKey uuid 0)⟩ = true := by
    rw [visited]
    exact decide_eq_true rfl
  have query : (queryAccount lib db uuid).1 =
      some ⟨OrderedMap.seek db (userKey uuid 0), some (userKey uuid 0)⟩ := by
    rw [queryAccount, if_pos valid]
  have stops : removeLoop lib (some (userKey uuid 0)) rest = ([], []) := by
    cases rest with
    | nil => rfl
    | cons next later =>
        have further := (beyond next List.mem_cons_self).1
        exact if_neg fun accepted =>
          OrderedMap.ne_of_compare_lt further (of_decide_eq_true accepted)
  rw [visited] at valid
  have loop : removeLoop lib (some (userKey uuid 0)) (OrderedMap.seek db (userKey uuid 0)) =
      ([(lib.records.parse value).getD default], [.kvDelete (userKey uuid 0)]) := by
    rw [visited, removeLoop, if_pos valid, stops]
  rw [removeAccount, query, Option.map_some, loop]
  rfl

private theorem removeAccount_of_absent {db : KeyValDb} {uuid : BitVec 64}
    (absent : db[userKey uuid 0]? = none) : removeAccount lib db uuid = none := by
  rw [removeAccount, queryAccount_of_absent absent]
  rfl

/-! ## What a sequence of saves builds -/

structure Save where
  uuid : BitVec 64
  keyVer : BitVec 64
  privkey : Bytes
  pubkey : Bytes
deriving DecidableEq

def Save.account (save : Save) : BitVec 64 × BitVec 64 := (save.uuid, save.keyVer)

def Save.record (save : Save) : UserPrivKey :=
  ⟨⟨save.uuid, save.keyVer, save.pubkey⟩, save.privkey⟩

/-- The versions saved for an account, in the order of their saves. -/
def versionsOf (saves : List Save) (uuid : BitVec 64) : List (BitVec 64) :=
  (saves.filter fun save => save.uuid = uuid).map Save.keyVer

/-- The last save of a version, which replaced the earlier ones. -/
def lastOf (saves : List Save) (uuid keyVer : BitVec 64) : Option Save :=
  (saves.filter fun save => save.account = (uuid, keyVer)).getLast?

variable (lib) in
/-- The database holds the index and the records of the saves, and nothing else. -/
structure Built (saves : List Save) (db : KeyValDb) : Prop where
  index : ∀ uuid, db[uuidKey uuid]? =
    (if versionsOf saves uuid = [] then none else some (UuidKeyVers.mk (versionsOf saves uuid))).map
      lib.versions.serialize
  record : ∀ uuid keyVer, db[userKey uuid keyVer]? =
    ((lastOf saves uuid keyVer).map Save.record).map lib.records.serialize
  keyed : ∀ key value, db[key]? = some value →
    (∃ uuid, key = uuidKey uuid) ∨ ∃ uuid keyVer, key = userKey uuid keyVer

theorem built_empty : Built lib [] ∅ where
  index := fun _ => Std.ExtTreeMap.getElem?_empty
  record := fun _ _ => Std.ExtTreeMap.getElem?_empty
  keyed := by
    intro key value held
    rw [Std.ExtTreeMap.getElem?_empty] at held
    cases held

theorem Built.read_versions {saves : List Save} {db : KeyValDb} (built : Built lib saves db)
    (uuid : BitVec 64) :
    read lib.versions db (uuidKey uuid) =
      if versionsOf saves uuid = [] then none else some ⟨versionsOf saves uuid⟩ :=
  read_eq_of_codec (built.index uuid)

theorem Built.queryKeyVers_eq {saves : List Save} {db : KeyValDb} (built : Built lib saves db)
    (uuid : BitVec 64) : (queryKeyVers lib db uuid).getD [] = versionsOf saves uuid := by
  rw [queryKeyVers, built.read_versions]
  split
  case isTrue none => exact none.symm
  case isFalse => rfl

theorem Built.queryAccountKey_eq {saves : List Save} {db : KeyValDb} (built : Built lib saves db)
    (uuid keyVer : BitVec 64) :
    queryAccountKey lib db uuid keyVer =
      (lastOf saves uuid keyVer).map fun save => (save.privkey, save.pubkey) := by
  rw [queryAccountKey, read_eq_of_codec (built.record uuid keyVer), Option.map_map]
  rfl

private theorem versionsOf_concat (saves : List Save) (save : Save) (uuid : BitVec 64) :
    versionsOf (saves ++ [save]) uuid =
      versionsOf saves uuid ++ if save.uuid = uuid then [save.keyVer] else [] := by
  rw [versionsOf, List.filter_append, List.map_append, List.filter_singleton]
  congr 1
  by_cases same : save.uuid = uuid <;> simp [same]

theorem lastOf_concat (saves : List Save) (save : Save) (uuid keyVer : BitVec 64) :
    lastOf (saves ++ [save]) uuid keyVer =
      if save.account = (uuid, keyVer) then some save else lastOf saves uuid keyVer := by
  rw [lastOf, List.filter_append, List.filter_singleton]
  by_cases same : save.account = (uuid, keyVer)
  · rw [if_pos same, decide_eq_true same]
    exact List.getLast?_concat
  · rw [if_neg same, decide_eq_false same]
    exact congrArg List.getLast? (List.append_nil _)

variable (lib) in
def saveStep (db : KeyValDb) (save : Save) : KeyValDb :=
  saveAccount lib db save.uuid save.keyVer save.privkey save.pubkey

/-- A save writes its own index and its own record. -/
theorem Built.saveStep_eq {saves : List Save} {db : KeyValDb} (built : Built lib saves db)
    (save : Save) :
    saveStep lib db save =
      (db.insert (uuidKey save.uuid)
        (lib.versions.serialize ⟨versionsOf saves save.uuid ++ [save.keyVer]⟩)).insert
        (userKey save.uuid save.keyVer) (lib.records.serialize save.record) := by
  have listed : ((read lib.versions db (uuidKey save.uuid)).getD default).keyVers =
      versionsOf saves save.uuid := by
    rw [built.read_versions]
    split
    case isTrue none => exact none.symm
    case isFalse => rfl
  rw [saveStep, saveAccount]
  simp only [listed]
  rfl

theorem Built.saveStep {saves : List Save} {db : KeyValDb} (built : Built lib saves db)
    (save : Save) : Built lib (saves ++ [save]) (saveStep lib db save) := by
  rw [built.saveStep_eq save]
  constructor
  case index =>
    intro uuid
    rw [OrderedMap.getElem?_insert_ne (userKey_ne_uuidKey _ _ _), versionsOf_concat]
    by_cases same : save.uuid = uuid
    · subst same
      rw [Std.ExtTreeMap.getElem?_insert_self, if_pos rfl, if_neg (List.concat_ne_nil _ _)]
      rfl
    · rw [OrderedMap.getElem?_insert_ne (fun keys => same (uuidKey_inj keys)), if_neg same,
        List.append_nil]
      exact built.index uuid
  case record =>
    intro uuid keyVer
    rw [lastOf_concat]
    by_cases same : save.account = (uuid, keyVer)
    · cases same
      have here : save.account = (save.uuid, save.keyVer) := rfl
      rw [Std.ExtTreeMap.getElem?_insert_self, if_pos here]
      rfl
    · have apart : userKey save.uuid save.keyVer ≠ userKey uuid keyVer := by
        intro keys
        obtain ⟨uuids, versions⟩ := userKey_inj keys
        exact same (Prod.ext uuids versions)
      rw [if_neg same, OrderedMap.getElem?_insert_ne apart,
        OrderedMap.getElem?_insert_ne (userKey_ne_uuidKey _ _ _).symm]
      exact built.record uuid keyVer
  case keyed =>
    intro key value held
    by_cases record : userKey save.uuid save.keyVer = key
    · exact Or.inr ⟨_, _, record.symm⟩
    by_cases index : uuidKey save.uuid = key
    · exact Or.inl ⟨_, index.symm⟩
    rw [OrderedMap.getElem?_insert_ne record, OrderedMap.getElem?_insert_ne index] at held
    exact built.keyed key value held

/-! ## The index and the records -/

def accounts (saves : List Save) : List (BitVec 64 × BitVec 64) := saves.map Save.account

theorem count_versionsOf (saves : List Save) (uuid keyVer : BitVec 64) :
    (versionsOf saves uuid).count keyVer = (accounts saves).count (uuid, keyVer) := by
  induction saves with
  | nil => rfl
  | cons save saves ih =>
      have tail : ((saves.filter fun save => save.uuid = uuid).map Save.keyVer).count keyVer =
        (saves.map Save.account).count (uuid, keyVer) := ih
      by_cases same : save.uuid = uuid
      · by_cases version : save.keyVer = keyVer
        · simp [versionsOf, accounts, Save.account, same, version, tail]
        · simp [versionsOf, accounts, Save.account, same, version, tail]
      · simp [versionsOf, accounts, Save.account, same, tail]

theorem lastOf_isSome_iff (saves : List Save) (uuid keyVer : BitVec 64) :
    (lastOf saves uuid keyVer).isSome ↔ (uuid, keyVer) ∈ accounts saves := by
  rw [lastOf, List.getLast?_isSome, ne_eq, List.filter_eq_nil_iff]
  simp [accounts]

variable (lib) in
/-- The index lists exactly the versions that have a record, each once. -/
def VersionsAgree (db : KeyValDb) : Prop :=
  ∀ uuid keyVer, ((queryKeyVers lib db uuid).getD []).count keyVer = 1 ↔
    (queryAccountKey lib db uuid keyVer).isSome

/-- Index and records agree exactly when no version of an account was saved twice. -/
theorem Built.versionsAgree_iff {saves : List Save} {db : KeyValDb}
    (built : Built lib saves db) : VersionsAgree lib db ↔ (accounts saves).Nodup := by
  have looks : VersionsAgree lib db ↔
      ∀ account, (accounts saves).count account = 1 ↔ account ∈ accounts saves := by
    rw [Prod.forall]
    refine forall_congr' fun uuid => forall_congr' fun keyVer => ?_
    rw [built.queryKeyVers_eq, count_versionsOf, built.queryAccountKey_eq, Option.isSome_map,
      lastOf_isSome_iff]
  rw [looks, List.nodup_iff_count_eq_one]
  constructor
  · exact fun agree account inside => (agree account).mpr inside
  · intro once account
    refine ⟨fun listed => ?_, once account⟩
    exact List.count_pos_iff.mp (listed ▸ Nat.one_pos)

/-! ## Runs -/

/-- The calls that change the database. -/
inductive Op where
  | save (save : Save)
  | remove (uuid : BitVec 64)

/-- The database and, after a removal, the account and the database before it. -/
structure Stage where
  db : KeyValDb
  removed : Option (BitVec 64 × KeyValDb)

variable (lib) in
def machine : Machine Stage Op (List UserPrivKey) where
  step stage
    | .save save => some (⟨saveStep lib stage.db save, none⟩, [])
    | .remove uuid => (removeAccount lib stage.db uuid).map fun after =>
        (⟨after.1, some (uuid, stage.db)⟩, after.2)

private theorem of_remove_eq_some {stage next : Stage} {uuid : BitVec 64} {out : List UserPrivKey}
    (stepped : (machine lib).step stage (.remove uuid) = some (next, out)) :
    ∃ after, removeAccount lib stage.db uuid = some (after, out) ∧
      next = ⟨after, some (uuid, stage.db)⟩ := by
  obtain ⟨⟨after, read⟩, ran, same⟩ := Option.map_eq_some_iff.mp stepped
  cases same
  exact ⟨after, ran, rfl⟩

/-- Nothing is left of the account, and the other accounts are as before. -/
structure RemovedOnly (uuid : BitVec 64) (before after : KeyValDb) : Prop where
  index : after[uuidKey uuid]? = none
  records : ∀ keyVer, after[userKey uuid keyVer]? = none
  others : ∀ other, other ≠ uuid → after[uuidKey other]? = before[uuidKey other]? ∧
    ∀ keyVer, after[userKey other keyVer]? = before[userKey other keyVer]?

variable (lib) in
/-- The accounts agree, and a removal took its account and nothing else. -/
structure Right (stage : Stage) : Prop where
  agree : VersionsAgree lib stage.db
  removed : ∀ removal ∈ stage.removed, RemovedOnly removal.1 removal.2 stage.db

/-- A removal leaves the index of the account, where it returns at all. -/
theorem Built.not_removedOnly {saves : List Save} {db after : KeyValDb}
    (built : Built lib saves db) {uuid : BitVec 64} {out : List UserPrivKey}
    (ran : removeAccount lib db uuid = some (after, out)) : ¬ RemovedOnly uuid db after := by
  intro only
  cases present : db[userKey uuid 0]? with
  | none =>
      rw [removeAccount_of_absent present] at ran
      cases ran
  | some value =>
      rw [removeAccount_of_present present] at ran
      cases ran
      have gone := only.index
      rw [OrderedMap.getElem?_erase_ne (userKey_ne_uuidKey _ _ _), built.index] at gone
      have unlisted : versionsOf saves uuid = [] := by
        by_contra listed
        rw [if_neg listed] at gone
        cases gone
      have saved : (lastOf saves uuid 0).isSome := by
        rw [built.record] at present
        cases last : lastOf saves uuid 0 with
        | none =>
            rw [last] at present
            cases present
        | some save => rfl
      have counted := count_versionsOf saves uuid 0
      rw [unlisted] at counted
      have inside := List.count_pos_iff.mpr ((lastOf_isSome_iff saves uuid 0).mp saved)
      exact absurd counted.symm inside.ne'

private theorem always_right_iff (ops : List Op) : ∀ {saves : List Save} {db : KeyValDb},
    Built lib saves db → ((machine lib).Always (Right lib) ⟨db, none⟩ ops ↔
      ∃ later, ops = later.map Op.save ∧ (accounts (saves ++ later)).Nodup) := by
  induction ops with
  | nil =>
      intro saves db built
      have here : (machine lib).Always (Right lib) ⟨db, none⟩ [] ↔ VersionsAgree lib db :=
        ⟨fun right => right.agree, fun agree => ⟨agree, fun _ none => nomatch none⟩⟩
      rw [here, built.versionsAgree_iff]
      constructor
      · exact fun nodup => ⟨[], rfl, by rwa [List.append_nil]⟩
      · rintro ⟨later, ops, nodup⟩
        rw [List.map_eq_nil_iff.mp ops.symm, List.append_nil] at nodup
        exact nodup
  | cons op ops ih =>
      intro saves db built
      cases op with
      | save save =>
          have rest := ih (built.saveStep save)
          simp only [List.append_assoc, List.singleton_append] at rest
          constructor
          · rintro ⟨-, next, output, stepped, always⟩
            cases stepped
            obtain ⟨later, rfl, nodup⟩ := rest.mp always
            exact ⟨save :: later, rfl, nodup⟩
          · rintro ⟨later, same, nodup⟩
            cases later with
            | nil => cases same
            | cons first later =>
                cases same
                have before : (accounts saves).Nodup := by
                  rw [accounts, List.map_append] at nodup
                  exact List.Nodup.of_append_left nodup
                exact ⟨⟨built.versionsAgree_iff.mpr before, fun _ none => nomatch none⟩, _, _, rfl,
                  rest.mpr ⟨later, rfl, nodup⟩⟩
      | remove uuid =>
          constructor
          · rintro ⟨-, next, output, stepped, always⟩
            obtain ⟨after, ran, rfl⟩ := of_remove_eq_some stepped
            exact absurd (always.here.removed _ rfl) (built.not_removedOnly ran)
          · rintro ⟨later, same, -⟩
            cases later <;> cases same

/-- **Index and records.** From an empty database the index agrees with the records in every state
and every removal is complete exactly where nothing is removed and no version of an account is
saved twice. -/
theorem accounts_right_iff (lib : Messages) (ops : List Op) :
    (machine lib).Always (Right lib) ⟨∅, none⟩ ops ↔
      ∃ saves : List Save, ops = saves.map Op.save ∧ (accounts saves).Nodup :=
  always_right_iff ops built_empty

theorem accounts_right_saved :
    (machine inOrder).Always (Right inOrder) ⟨∅, none⟩
      [.save ⟨7, 1, [], [0x70]⟩, .save ⟨7, 300, [], [0x71]⟩, .save ⟨9, 1, [], []⟩] :=
  (accounts_right_iff inOrder _).mpr
    ⟨[⟨7, 1, [], [0x70]⟩, ⟨7, 300, [], [0x71]⟩, ⟨9, 1, [], []⟩], rfl, by decide⟩

/-- A version saved twice is listed twice; the removal of an account without version zero fails;
that of an account with version zero leaves its index. -/
theorem exists_accounts_not_right :
    ¬ (machine inOrder).Always (Right inOrder) ⟨∅, none⟩
        [.save ⟨7, 1, [], [0x70]⟩, .save ⟨7, 1, [], [0x71]⟩] ∧
      (machine inOrder).run ⟨∅, none⟩ [.save ⟨7, 1, [], [0x70]⟩, .remove 7] = none ∧
      ¬ (machine inOrder).Always (Right inOrder) ⟨∅, none⟩
        [.save ⟨7, 0, [], [0x70]⟩, .remove 7] := by
  refine ⟨?_, ?_, ?_⟩
  · intro always
    obtain ⟨-, first, output, stepped, -, next, output, again, right⟩ := always
    cases stepped
    cases again
    have saved := (@built_empty inOrder).saveStep ⟨7, 1, [], [0x70]⟩
    have agree := (saved.saveStep ⟨7, 1, [], [0x71]⟩).versionsAgree_iff.mp right.agree
    exact absurd agree (by decide)
  · exact Option.isNone_iff_eq_none.mp (by decide +kernel)
  · intro always
    obtain ⟨-, first, output, stepped, -, next, output, again, right⟩ := always
    cases stepped
    obtain ⟨after, removed, rfl⟩ := of_remove_eq_some again
    have saved := (@built_empty inOrder).saveStep ⟨7, 0, [], [0x70]⟩
    exact saved.not_removedOnly removed (right.removed _ rfl)

end Tvntd.KeyServerDb
