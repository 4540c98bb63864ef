import Tvntd.Lib.OrderedMap
import Tvntd.Lib.Proto3

/-! # The messages of the key server

Two types of keys share the database: the index of an account, under its uuid,
and the records of its key pairs, under uuid and version. They are told apart by
the number in their first field, and a key without a version reads as a key with
version zero.

The values are an index and a record. The model takes their serialisation from
the library; the two codecs below write the fields in order, as the library
does, and read nothing else.
-/

namespace Tvntd.Kdb

open Proto3

/-! ## Keys -/

inductive DbPrefix where
  | unknown
  | userUuid
  | userKey
deriving DecidableEq

def DbPrefix.value : DbPrefix → BitVec 32
  | unknown => 0
  | userUuid => 0x75756964
  | userKey => 0x74746864

structure UuidKey where
  dbPrefix : BitVec 32
  uuid : BitVec 64
deriving DecidableEq

structure UserKey where
  dbPrefix : BitVec 32
  uuid : BitVec 64
  keyVersion : BitVec 64
deriving DecidableEq

def UuidKey.serialize (key : UuidKey) : Bytes :=
  scalar 1 key.dbPrefix.toNat ++ scalar 2 key.uuid.toNat

def UserKey.serialize (key : UserKey) : Bytes :=
  scalar 1 key.dbPrefix.toNat ++ (scalar 2 key.uuid.toNat ++ scalar 3 key.keyVersion.toNat)

/-- Every key of the database is written with its fields in order. -/
def UserKey.parse (message : Bytes) : Option UserKey := do
  let (dbPrefix, message) ← getScalar 1 message
  let (uuid, message) ← getScalar 2 message
  let (keyVersion, message) ← getScalar 3 message
  if message = [] then
    some ⟨BitVec.ofNat 32 dbPrefix, BitVec.ofNat 64 uuid, BitVec.ofNat 64 keyVersion⟩
  else none

theorem UserKey.parse_serialize (key : UserKey) : UserKey.parse key.serialize = some key := by
  have third := getScalar_scalar (skips_nil (scalarTag 3)) key.keyVersion.toNat
  rw [List.append_nil] at third
  have skips : ∀ num, scalarTag 3 ≠ scalarTag num →
      Skips (scalarTag num) (scalar 3 key.keyVersion.toNat) := by
    intro num apart
    simpa using skips_scalar apart key.keyVersion.toNat (skips_nil (scalarTag num))
  have second := getScalar_scalar (skips 2 (by decide)) key.uuid.toNat
  have apart : scalarTag 2 ≠ scalarTag 1 := by decide
  have first := getScalar_scalar
    (skips_scalar apart key.uuid.toNat (skips 1 (by decide))) key.dbPrefix.toNat
  simp [UserKey.parse, UserKey.serialize, first, second, third]

/-- The version in the key of a record is a field that the index does not know. -/
def UuidKey.parse (message : Bytes) : Option UuidKey := do
  let (dbPrefix, message) ← getScalar 1 message
  let (uuid, message) ← getScalar 2 message
  let (_, message) ← getScalar 3 message
  if message = [] then some ⟨BitVec.ofNat 32 dbPrefix, BitVec.ofNat 64 uuid⟩ else none

theorem UuidKey.parse_serialize (key : UserKey) :
    UuidKey.parse key.serialize = some ⟨key.dbPrefix, key.uuid⟩ := by
  have read := UserKey.parse_serialize key
  simp only [UserKey.parse, Option.bind_eq_bind, Option.bind_eq_some_iff] at read
  obtain ⟨⟨dbPrefix, second⟩, first, ⟨uuid, third⟩, next, ⟨keyVersion, rest⟩, last, whole⟩ := read
  by_cases ended : rest = []
  · subst ended
    cases whole
    simp [UuidKey.parse, first, next, last]
  · rw [if_neg ended] at whole
    cases whole

private theorem UserKey.serialize_inj {left right : UserKey}
    (same : left.serialize = right.serialize) : left = right :=
  Option.some_inj.mp (by
    rw [← UserKey.parse_serialize left, same, UserKey.parse_serialize right])

/-- An index key is the key of version zero under its own prefix. -/
theorem UuidKey.serialize_eq (key : UuidKey) :
    key.serialize = UserKey.serialize ⟨key.dbPrefix, key.uuid, 0⟩ := by
  simp [UuidKey.serialize, UserKey.serialize, scalar]

/-- The key of an account's index. -/
def uuidKey (uuid : BitVec 64) : Bytes := UuidKey.serialize ⟨DbPrefix.userUuid.value, uuid⟩

/-- The key of a key pair. -/
def userKey (uuid keyVer : BitVec 64) : Bytes :=
  UserKey.serialize ⟨DbPrefix.userKey.value, uuid, keyVer⟩

theorem uuidKey_eq (uuid : BitVec 64) :
    uuidKey uuid = UserKey.serialize ⟨DbPrefix.userUuid.value, uuid, 0⟩ :=
  UuidKey.serialize_eq _

theorem uuidKey_inj {left right : BitVec 64} (same : uuidKey left = uuidKey right) :
    left = right := by
  rw [uuidKey_eq, uuidKey_eq] at same
  cases UserKey.serialize_inj same
  rfl

theorem userKey_inj {uuid other keyVer later : BitVec 64}
    (same : userKey uuid keyVer = userKey other later) : uuid = other ∧ keyVer = later := by
  cases UserKey.serialize_inj same
  exact ⟨rfl, rfl⟩

theorem userKey_ne_uuidKey (uuid keyVer other : BitVec 64) :
    userKey uuid keyVer ≠ uuidKey other := by
  intro same
  rw [uuidKey_eq] at same
  have prefixes : DbPrefix.userKey.value = DbPrefix.userUuid.value :=
    congrArg UserKey.dbPrefix (UserKey.serialize_inj same)
  exact absurd prefixes (by decide)

theorem parse_uuidKey (uuid : BitVec 64) :
    UuidKey.parse (uuidKey uuid) = some ⟨DbPrefix.userUuid.value, uuid⟩ := by
  rw [uuidKey_eq, UuidKey.parse_serialize]

private theorem userUuid_scalar : scalar 1 DbPrefix.userUuid.value.toNat =
    [0x08, 0xE4, 0xD2, 0xD5, 0xAB, 0x07] := by
  decide +kernel

/-- The records come before the indices: the third byte of their prefixes decides. -/
theorem userKey_lt_uuidKey (uuid keyVer other : BitVec 64) :
    compare (userKey uuid keyVer) (uuidKey other) = .lt := by
  have records : scalar 1 DbPrefix.userKey.value.toNat = [0x08, 0xE4, 0xD0, 0xD1, 0xA3, 0x07] := by
    decide +kernel
  unfold userKey uuidKey UserKey.serialize UuidKey.serialize
  rw [records, userUuid_scalar]
  rfl

/-- The index of account zero has no uuid in its key, so that every other index follows it. -/
theorem uuidKey_zero_isLE (uuid : BitVec 64) :
    (compare (uuidKey 0) (uuidKey uuid)).isLE := by
  unfold uuidKey UuidKey.serialize
  rw [userUuid_scalar]
  cases scalar 2 uuid.toNat <;> rfl

/-! ## Values -/

structure UuidKeyVers where
  keyVers : List (BitVec 64)
deriving DecidableEq, Inhabited

structure UserPubKey where
  uuid : BitVec 64
  keyVersion : BitVec 64
  pubKey : Bytes
deriving DecidableEq, Inhabited

structure UserPrivKey where
  user : UserPubKey
  privKey : Bytes
deriving DecidableEq, Inhabited

/-- The two types of values, as a library writes and reads them. -/
structure Messages where
  versions : Codec UuidKeyVers
  records : Codec UserPrivKey

def UuidKeyVers.serialize (index : UuidKeyVers) : Bytes :=
  string 1 (pack (index.keyVers.map BitVec.toNat))

def UuidKeyVers.parse (message : Bytes) : Option UuidKeyVers := do
  let (packed, message) ← getPayload 1 message
  let keyVers ← unpack packed
  if message = [] then some ⟨keyVers.map (BitVec.ofNat 64)⟩ else none

theorem UuidKeyVers.parse_serialize (index : UuidKeyVers) :
    UuidKeyVers.parse index.serialize = some index := by
  have first := getPayload_string (skips_nil (lengthTag 1)) (pack (index.keyVers.map BitVec.toNat))
  rw [List.append_nil] at first
  simp [UuidKeyVers.parse, UuidKeyVers.serialize, first, Function.comp_def]

def UserPubKey.serialize (user : UserPubKey) : Bytes :=
  scalar 1 user.uuid.toNat ++ (scalar 2 user.keyVersion.toNat ++ string 3 user.pubKey)

def UserPubKey.parse (message : Bytes) : Option UserPubKey := do
  let (uuid, message) ← getScalar 1 message
  let (keyVersion, message) ← getScalar 2 message
  let (pubKey, message) ← getPayload 3 message
  if message = [] then some ⟨BitVec.ofNat 64 uuid, BitVec.ofNat 64 keyVersion, pubKey⟩ else none

theorem UserPubKey.parse_serialize (user : UserPubKey) :
    UserPubKey.parse user.serialize = some user := by
  have third := getPayload_string (skips_nil (lengthTag 3)) user.pubKey
  rw [List.append_nil] at third
  have skips : ∀ num, lengthTag 3 ≠ scalarTag num →
      Skips (scalarTag num) (string 3 user.pubKey) := by
    intro num apart
    simpa using skips_string apart user.pubKey (skips_nil (scalarTag num))
  have second := getScalar_scalar (skips 2 (by decide)) user.keyVersion.toNat
  have apart : scalarTag 2 ≠ scalarTag 1 := by decide
  have first := getScalar_scalar
    (skips_scalar apart user.keyVersion.toNat (skips 1 (by decide))) user.uuid.toNat
  simp [UserPubKey.parse, UserPubKey.serialize, first, second, third]

def UserPrivKey.serialize (record : UserPrivKey) : Bytes :=
  submessage 1 record.user.serialize ++ string 2 record.privKey

def UserPrivKey.parse (message : Bytes) : Option UserPrivKey := do
  let (user, message) ← getPayload 1 message
  let user ← UserPubKey.parse user
  let (privKey, message) ← getPayload 2 message
  if message = [] then some ⟨user, privKey⟩ else none

theorem UserPrivKey.parse_serialize (record : UserPrivKey) :
    UserPrivKey.parse record.serialize = some record := by
  have first := getPayload_submessage 1 record.user.serialize (string 2 record.privKey)
  have second := getPayload_string (skips_nil (lengthTag 2)) record.privKey
  rw [List.append_nil] at second
  simp [UserPrivKey.parse, UserPrivKey.serialize, first, second, UserPubKey.parse_serialize]

/-- Fields in the order of their numbers. -/
def inOrder : Messages where
  versions := ⟨UuidKeyVers.serialize, UuidKeyVers.parse, UuidKeyVers.parse_serialize⟩
  records := ⟨UserPrivKey.serialize, UserPrivKey.parse, UserPrivKey.parse_serialize⟩

end Tvntd.Kdb
