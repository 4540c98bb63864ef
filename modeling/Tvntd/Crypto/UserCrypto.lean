import Tvntd.Lib.Proto3
import Tvntd.Ctype.Shash
import Tvntd.Cpptype.Object

/-! # The public keys of one user

The map `rsa_pubkeys` of a `UserCrypto`: a hash of 37 buckets whose entries own
a copy of their key. A key is put once under a version; a later put of another
key under it ends the program.
-/

namespace Tvntd

open Proto3 (Bytes)

/-- An entry of `rsa_pubkeys`. -/
structure PubKeyEntry where
  sKey : Key64
  sValue : Bytes
deriving DecidableEq

/-- `Crypto::KeyVer` -/
structure KeyVer where
  kVer : Key64
  kPublic : Bytes
deriving DecidableEq

namespace UserCrypto

def pubkeysFn : ShashFn PubKeyEntry where
  shHashFn := fun size entry => objHash64 size entry.sKey
  shCmpFn := fun entry1 entry2 => objCompare64 entry1.sKey entry2.sKey

def pubkeysSize : Nat := 37

private theorem pubkeysFn_lt (entry : PubKeyEntry) :
    pubkeysFn.shHashFn pubkeysSize entry < pubkeysSize :=
  objHash64_lt (by decide) entry.sKey

end UserCrypto

/-- The part of a user that holds public keys; the map keeps count of its entries. -/
structure UserCrypto where
  rsaPubkeys : Shash PubKeyEntry
  stacked : ∃ all, Stacked UserCrypto.pubkeysFn UserCrypto.pubkeysSize rsaPubkeys all

namespace UserCrypto

/-- The constructor. -/
def create : UserCrypto where
  rsaPubkeys := shashInit pubkeysSize
  stacked := ⟨[], stacked_init _ _⟩

private theorem stacked_of_insert {table : Shash PubKeyEntry} {entry : PubKeyEntry}
    {result : Nat × Shash PubKeyEntry} (stacked : ∃ all, Stacked pubkeysFn pubkeysSize table all)
    (inserted : shashInsert pubkeysFn table entry = some result) :
    ∃ all, Stacked pubkeysFn pubkeysSize result.2 all := by
  obtain ⟨all, stacked⟩ := stacked
  by_cases fits : table.shElmCnt + 1 < 2 ^ 31
  · obtain ⟨next, ends, still⟩ := stacked.insert (pubkeysFn_lt entry) fits
    rw [ends] at inserted
    cases inserted
    exact ⟨entry :: all, still⟩
  · rw [shashInsert_overflow _ _ (Int.not_lt.mp fits)] at inserted
    cases inserted

/-- `rsa_pubkeys.insert(ver, new std::string(key))` -/
def insert (self : UserCrypto) (ver : Key64) (key : Bytes) : Option UserCrypto :=
  match inserted : shashInsert pubkeysFn self.rsaPubkeys ⟨ver, key⟩ with
  | none => none
  | some result => some ⟨result.2, stacked_of_insert self.stacked inserted⟩

/-- `rsa_pubkeys.value(ver)`; the inner `none` is a null pointer. -/
def value (self : UserCrypto) (ver : Key64) : Option (Option Bytes) :=
  (shashFind pubkeysFn self.rsaPubkeys ⟨ver, []⟩).map fun found => found.map PubKeyEntry.sValue

/-- `get_public_key` -/
def getPublicKey (self : UserCrypto) (ver : Key64) : Option (Option Bytes) := self.value ver

def putPublicKey (self : UserCrypto) (ver : Key64) (key : Bytes) : Option UserCrypto :=
  (self.value ver).bind fun held =>
    match held with
    | none => self.insert ver key
    | some present => if present = key then some self else none

def putAllPubKeys (self : UserCrypto) : List KeyVer → Option UserCrypto
  | [] => some self
  | it :: rest => (self.putPublicKey it.kVer it.kPublic).bind fun next => next.putAllPubKeys rest

/-- `get_all_pub_keys`: bucket by bucket, each from its front. -/
def getAllPubKeys (self : UserCrypto) : List KeyVer :=
  (List.range self.rsaPubkeys.shBkSize).flatMap fun i =>
    (self.rsaPubkeys.shBucket i).map fun entry => ⟨entry.sKey, entry.sValue⟩

variable {self next : UserCrypto} {ver : Key64} {key : Bytes}

/-- The map can count one more entry. -/
def Room (self : UserCrypto) : Prop := self.rsaPubkeys.shElmCnt + 1 < 2 ^ 31

instance (self : UserCrypto) : Decidable self.Room := inferInstanceAs (Decidable (_ < _))

theorem exists_value (self : UserCrypto) (ver : Key64) : ∃ held, self.value ver = some held := by
  obtain ⟨all, stacked⟩ := self.stacked
  unfold value
  rw [stacked.find (pubkeysFn_lt _)]
  exact ⟨_, rfl⟩

private theorem insert_eq_some_iff :
    self.insert ver key = some next ↔
      ∃ index, shashInsert pubkeysFn self.rsaPubkeys ⟨ver, key⟩ =
        some (index, next.rsaPubkeys) := by
  unfold insert
  split
  · rename_i aborts
    simp [aborts]
  · rename_i result inserted
    constructor
    · intro same
      cases same
      exact ⟨result.1, inserted⟩
    · intro found
      obtain ⟨index, again⟩ := found
      rw [inserted] at again
      cases next
      cases again
      rfl

theorem exists_insert_iff : (∃ next, self.insert ver key = some next) ↔ self.Room := by
  obtain ⟨all, stacked⟩ := self.stacked
  constructor
  · rintro ⟨next, inserted⟩
    obtain ⟨index, inserted⟩ := insert_eq_some_iff.mp inserted
    refine Int.not_le.mp fun wide => ?_
    rw [shashInsert_overflow _ _ wide] at inserted
    cases inserted
  · intro room
    obtain ⟨table, inserted, still⟩ := stacked.insert (pubkeysFn_lt ⟨ver, key⟩) room
    exact ⟨⟨table, _, still⟩, insert_eq_some_iff.mpr ⟨_, inserted⟩⟩

/-- The user takes a key: it holds none under the version, with room for one, or the same. -/
def Takes (self : UserCrypto) (ver : Key64) (key : Bytes) : Prop :=
  self.value ver = some none ∧ self.Room ∨ self.value ver = some (some key)

instance (self : UserCrypto) (ver : Key64) (key : Bytes) : Decidable (self.Takes ver key) :=
  inferInstanceAs (Decidable (_ ∨ _))

theorem exists_putPublicKey_iff :
    (∃ next, self.putPublicKey ver key = some next) ↔ self.Takes ver key := by
  obtain ⟨held, looked⟩ := self.exists_value ver
  unfold putPublicKey Takes
  rw [looked, Option.bind_some]
  cases held with
  | none => simp [exists_insert_iff]
  | some present => by_cases same : present = key <;> simp [same]

/-! ## The entries -/

private theorem mem_getAllPubKeys_iff {all : List PubKeyEntry}
    (stacked : Stacked pubkeysFn pubkeysSize self.rsaPubkeys all) (kv : KeyVer) :
    kv ∈ self.getAllPubKeys ↔ ⟨kv.kVer, kv.kPublic⟩ ∈ all := by
  unfold getAllPubKeys
  rw [stacked.sized, stacked.buckets, List.mem_flatMap]
  constructor
  · intro found
    obtain ⟨index, -, found⟩ := found
    obtain ⟨entry, inside, same⟩ := List.mem_map.mp found
    subst same
    exact (List.mem_filter.mp inside).1
  · intro inside
    refine ⟨pubkeysFn.shHashFn pubkeysSize ⟨kv.kVer, kv.kPublic⟩,
      List.mem_range.mpr (pubkeysFn_lt _),
      List.mem_map.mpr ⟨⟨kv.kVer, kv.kPublic⟩, ?_, rfl⟩⟩
    exact List.mem_filter.mpr ⟨inside, decide_eq_true rfl⟩

theorem getAllPubKeys_create (kv : KeyVer) : kv ∉ create.getAllPubKeys := by
  rw [mem_getAllPubKeys_iff (stacked_init _ _)]
  exact List.not_mem_nil

theorem mem_getAllPubKeys_insert (inserted : self.insert ver key = some next) (kv : KeyVer) :
    kv ∈ next.getAllPubKeys ↔ kv = ⟨ver, key⟩ ∨ kv ∈ self.getAllPubKeys := by
  obtain ⟨all, stacked⟩ := self.stacked
  have room := exists_insert_iff.mp ⟨next, inserted⟩
  obtain ⟨index, linked⟩ := insert_eq_some_iff.mp inserted
  obtain ⟨table, again, still⟩ := stacked.insert (pubkeysFn_lt ⟨ver, key⟩) room
  rw [linked, Option.some.injEq, Prod.mk.injEq] at again
  rw [← again.2] at still
  rw [mem_getAllPubKeys_iff still, mem_getAllPubKeys_iff stacked, List.mem_cons]
  refine or_congr_left ⟨fun same => ?_, fun same => ?_⟩
  · cases kv
    cases same
    rfl
  · rw [same]

/-- No entry is mistaken for one of the version: whatever shares its bucket and its low half is
of that version. And there is room for another. -/
structure Clear (user : UserCrypto) (ver : Key64) : Prop where
  room : user.Room
  own : ∀ kv ∈ user.getAllPubKeys, objHash64 pubkeysSize kv.kVer = objHash64 pubkeysSize ver →
    kv.kVer.setWidth 32 = ver.setWidth 32 → kv.kVer = ver

instance (user : UserCrypto) (ver : Key64) : Decidable (user.Clear ver) :=
  decidable_of_iff
    (user.Room ∧ ∀ kv ∈ user.getAllPubKeys,
      objHash64 pubkeysSize kv.kVer = objHash64 pubkeysSize ver →
        kv.kVer.setWidth 32 = ver.setWidth 32 → kv.kVer = ver)
    ⟨fun both => ⟨both.1, both.2⟩, fun clear => ⟨clear.room, clear.own⟩⟩

theorem clear_create (ver : Key64) : create.Clear ver where
  room := by decide
  own := fun kv inside => absurd inside (getAllPubKeys_create kv)

/-- A clear version is looked up exactly. -/
theorem Clear.value (clear : self.Clear ver) :
    self.value ver = some none ∨ ∃ key, self.value ver = some (some key) ∧
      ⟨ver, key⟩ ∈ self.getAllPubKeys := by
  obtain ⟨all, stacked⟩ := self.stacked
  unfold UserCrypto.value
  rw [stacked.find (pubkeysFn_lt _), Option.map_some]
  cases found : all.find? (pubkeysFn.takes pubkeysSize ⟨ver, []⟩) with
  | none => exact Or.inl rfl
  | some entry =>
      have taken := List.find?_some found
      unfold ShashFn.takes at taken
      rw [Bool.and_eq_true, decide_eq_true_iff, decide_eq_true_iff] at taken
      have inside : ⟨entry.sKey, entry.sValue⟩ ∈ self.getAllPubKeys :=
        (mem_getAllPubKeys_iff stacked _).mpr (List.mem_of_find?_eq_some found)
      have same : entry.sKey = ver :=
        clear.own _ inside taken.1 ((objCompare64_eq_zero _ _).mp taken.2)
      rw [same] at inside
      exact Or.inr ⟨entry.sValue, rfl, inside⟩

end UserCrypto

end Tvntd
