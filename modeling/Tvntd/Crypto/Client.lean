import Tvntd.App.KeyService
import Tvntd.Cpptype.LruTable
import Tvntd.Crypto.UserCrypto

/-! # The client of the key server

`Crypto` keeps the users it has seen in an `LruTable` and answers from their
keys or from the key server. Every operation exists twice. The synchronous one
returns a status; the asynchronous one hands the reply of the server to a
response method, which calls a function of the caller.

An operation is a function of the client and of the service it sends its request
to. The calls an asynchronous operation makes are what it returns. An operation
that is `none` ends the program.
-/

namespace Tvntd

open Function

open Proto3 (Bytes)
open Kdb (UserPubKey UserPrivKey)
open KeyServer (PubKeyVer UserKeyRecord)

/-- What releasing a string field of a message hands out. A field that was never set may give a
null pointer. -/
structure Protobuf where
  release : Bytes → Option Bytes
  release_eq : ∀ text, release text = some text ∨ text = [] ∧ release text = none

/-- A library that gives a null pointer for an empty text. -/
def Protobuf.nullWhenEmpty : Protobuf where
  release := fun text => if text = [] then none else some text
  release_eq := by
    intro text
    by_cases empty : text = []
    · exact Or.inr ⟨empty, if_pos empty⟩
    · exact Or.inl (if_neg empty)

theorem Protobuf.release_of_isSome {lib : Protobuf} {text : Bytes}
    (given : (lib.release text).isSome) :
    lib.release text = some text := by
  rcases lib.release_eq text with same | ⟨-, null⟩
  · exact same
  · rw [null] at given
    cases given

theorem Protobuf.getD_release {lib : Protobuf} (text : Bytes) :
    (lib.release text).getD [] = text := by
  rcases lib.release_eq text with same | ⟨empty, null⟩
  · rw [same, Option.getD_some]
  · rw [null, empty, Option.getD_none]

/-- The functions of the cryptographic library behind a verification. A public key is the text
between two marked lines, which no empty text has. -/
structure OpenSsl where
  readsPubkey : Bytes → Bool
  readsPubkey_nil : readsPubkey [] = false
  sha1 : Bytes → Bytes
  rsaVerify : Bytes → Bytes → Bytes → Bool

structure KeyReqt where
  uuid : Key64
  keyVerLo : Key64
  keyVerHi : Key64
deriving DecidableEq

structure PubKeyResp where
  pubKeys : List UserPubKey
deriving DecidableEq, Inhabited

structure SignedMessage where
  message : Bytes
  cipher : Bytes
  uuid : Key64
  keyVersion : Key64
  mesgHash : Bytes
  signature : Bytes
deriving DecidableEq, Inhabited

/-- The outcomes of the requests; `none` is a request that failed. -/
structure KeyService where
  generateKey : KeyReqt → Option PubKeyResp
  queryPubKey : KeyReqt → Option PubKeyResp
  signMesg : SignedMessage → Option SignedMessage
  saveKeyPair : UserPrivKey → Option UserKeyRecord
  listPublicKeys : KeyReqt → Option UserKeyRecord

/-- The client: the cache of its users, the users by their addresses, and the address the next
one gets. -/
structure Crypto where
  users : LruTable DHashObj
  objects : Obj → UserCrypto
  fresh : Obj

namespace Crypto

inductive Status where
  | ok
  | failure
deriving DecidableEq

/-- What the caller is given beside the status, in either form. A null pointer of the caller
reads as an empty text. -/
inductive Data where
  | nothing
  | key (pubKey : Option Bytes)
  | keys (krec : List KeyVer)
  | signed (hash signature : Bytes)
  | verified (hash pubKey : Bytes)
deriving DecidableEq

abbrev ClientM := StateT Crypto Option

@[simp] theorem bind_apply {α β : Type} (op : ClientM α) (next : α → ClientM β) (self : Crypto) :
    (op >>= next) self = (op self).bind fun result => next result.1 result.2 := rfl

@[simp] theorem pure_apply {α : Type} (value : α) (self : Crypto) :
    (pure value : ClientM α) self = some (value, self) := rfl

/-- `assert(cond)` -/
def check (cond : Prop) [Decidable cond] : ClientM Unit := fun self =>
  if cond then some ((), self) else none

/-- A pointer is followed. -/
def deref {α : Type} (pointer : Option α) : ClientM α := fun self =>
  pointer.map fun value => (value, self)

@[simp] theorem check_apply (cond : Prop) [Decidable cond] (self : Crypto) :
    check cond self = if cond then some ((), self) else none := rfl

@[simp] theorem deref_apply {α : Type} (pointer : Option α) (self : Crypto) :
    deref pointer self = pointer.map fun value => (value, self) := rfl

/-! ## The cache of users -/

/-- `obj_name()` of a user, its inherited string key. -/
def userName : CStr := ⟨"10UserCrypto".toList.map fun c => BitVec.ofNat 8 c.toNat, by decide⟩

/-- The constructors of a user at a new address. -/
def construct (user : Obj) (uuid : Key64) (users : LruTable DHashObj) : LruTable DHashObj :=
  let mem := users.mHash.mem
  { users with
    lruPtr := update users.lruPtr user false
    mHash :=
      { users.mHash with
        mem :=
          { mem with
            objKey64 := update mem.objKey64 user uuid
            objKeystr := update mem.objKeystr user userName
            mChain := update mem.mChain user false } } }

def userIndex : HashIndex DHashObj := dhashIndex64 objCompare64

/-- `lookup(uuid)`, with `lookup_missed` of the users, which constructs one. -/
def lookup (fresh : Obj) (uuid : Key64) : LruM DHashObj (Option Obj) :=
  LruTable.lookupWith (userIndex.lookup64 · uuid) (some fresh) fun save => do
    modify (construct fresh uuid)
    LruTable.insertKey64 userIndex save

def getUser (uuid : Key64) : ClientM (Option Obj) := fun self =>
  match LruTable.exec (lookup self.fresh uuid) self.users with
  | (.ok found, users) =>
      if found = some self.fresh then
        some (found,
          { users := users
            objects := update self.objects self.fresh UserCrypto.create
            fresh := self.fresh + 1 })
      else some (found, { self with users := users })
  | (.error _, _) => none

/-- A method of a user that may change it. -/
def withUser (user : Obj) (change : UserCrypto → Option UserCrypto) : ClientM Unit := fun self =>
  (change (self.objects user)).map fun next =>
    ((), { self with objects := update self.objects user next })

/-- `users->get_public_key(uuid, ver, &key)`; `none` is `false`. -/
def cachedPublicKey (uuid ver : Key64) : ClientM (Option Bytes) := do
  match ← getUser uuid with
  | none => return none
  | some user => deref (((← get).objects user).getPublicKey ver)

/-- `users->get_all_pub_keys(uuid, krec)`; `none` is `false`. -/
def cachedAllPubKeys (uuid : Key64) : ClientM (Option (List KeyVer)) := do
  match ← getUser uuid with
  | none => return none
  | some user => return some ((← get).objects user).getAllPubKeys

theorem cachedPublicKey_eq {self after : Crypto} {uuid ver : Key64} {user : Obj}
    {held : Option Bytes} (got : getUser uuid self = some (some user, after))
    (looked : (after.objects user).value ver = some held) :
    cachedPublicKey uuid ver self = some (held, after) := by
  unfold cachedPublicKey
  rw [bind_apply, got]
  exact congrArg (Option.map fun value => (value, after)) looked

theorem cachedAllPubKeys_eq {self after : Crypto} {uuid : Key64} {user : Obj}
    (got : getUser uuid self = some (some user, after)) :
    cachedAllPubKeys uuid self = some (some (after.objects user).getAllPubKeys, after) := by
  unfold cachedAllPubKeys
  rw [bind_apply, got]
  rfl

/-- `get_user`, the assertion that follows it, and `put_public_key`. -/
def putPublicKey (uuid ver : Key64) (key : Bytes) : ClientM Unit := do
  let user ← deref (← getUser uuid)
  withUser user fun self => self.putPublicKey ver key

def getPublicKeysCallback (resp : UserKeyRecord) : ClientM (List KeyVer) := do
  let krec := resp.keyInfo.map fun info => KeyVer.mk info.keyVer info.pubKey
  let user ← deref (← getUser resp.uuid)
  withUser user fun self => self.putAllPubKeys krec
  return krec

/-- The constructor, for at most so many users. -/
def create (maxUsers : Nat) : Crypto where
  users :=
    LruTable.init maxUsers
      ⟨⟨fun _ => 0, fun _ => userName, fun _ => false, fun _ => none⟩, dhashInit maxUsers⟩
      fun _ => false
  objects := fun _ => UserCrypto.create
  fresh := 0

/-! ## Synchronous operations -/

section Synchronous

variable (lib : Protobuf) (ssl : OpenSsl) (server : KeyService)

def genRsaKey (uuid keyVer : Key64) : ClientM (Status × Data) := do
  match server.generateKey ⟨uuid, keyVer, 0⟩ with
  | none => return (.ok, .key none)
  | some out =>
      match out.pubKeys with
      | [] => return (.ok, .key none)
      | keyRec :: _ =>
          let pubKey ← deref (lib.release keyRec.pubKey)
          putPublicKey uuid keyRec.keyVersion pubKey
          return (.ok, .key (some pubKey))

def putRsaKeypair (uuid kver : Key64) (pubKey privKey : Bytes) : ClientM (Status × Data) := do
  match server.saveKeyPair ⟨⟨uuid, kver, pubKey⟩, privKey⟩ with
  | some out =>
      check (out.uuid = uuid)
      let _ ← getPublicKeysCallback out
      return (.ok, .nothing)
  | none => return (.failure, .nothing)

def getPublicKeys (uuid : Key64) : ClientM (Status × Data) := do
  match ← cachedAllPubKeys uuid with
  | some krec => return (.ok, .keys krec)
  | none =>
      match server.listPublicKeys ⟨uuid, 0, 0⟩ with
      | some out =>
          check (out.uuid = uuid)
          let krec ← getPublicKeysCallback out
          return (.ok, .keys krec)
      | none => return (.failure, .keys [])

def getRsaKey (uuid keyVer : Key64) : ClientM (Status × Data) := do
  match ← cachedPublicKey uuid keyVer with
  | some pubKey => return (.ok, .key (some pubKey))
  | none =>
      match server.queryPubKey ⟨uuid, keyVer, 0⟩ with
      | none => return (.failure, .key none)
      | some out =>
          match out.pubKeys with
          | [] => return (.failure, .key none)
          | keyRec :: _ =>
              let pubKey ← deref (lib.release keyRec.pubKey)
              putPublicKey uuid keyVer pubKey
              return (.ok, .key (some pubKey))

def signReqt (uuid keyVer : Key64) (mesg : Bytes) : SignedMessage :=
  { message := mesg, cipher := [], uuid := uuid, keyVersion := keyVer, mesgHash := []
    signature := [] }

/-- `*msg_hash` and `*signature`: the second is taken only with the first. -/
def takeSigned (out : SignedMessage) : Bytes × Bytes :=
  match lib.release out.mesgHash with
  | some retHash => (retHash, (lib.release out.signature).getD [])
  | none => ([], [])

def rsaSign (uuid keyVer : Key64) (mesg : Bytes) : ClientM (Status × Data) := do
  match server.signMesg (signReqt uuid keyVer mesg) with
  | none => return (.failure, .signed [] [])
  | some out =>
      let taken := takeSigned lib out
      check (uuid = out.uuid)
      return (.ok, .signed taken.1 taken.2)

/-- `UserCrypto::rsa_verify_signature` under a public key: the status, and the hash unless the
key was not read. -/
def verifySignature (pubkey mesg signature : Bytes) : Status × Option Bytes :=
  if ssl.readsPubkey pubkey then
    let mesgHash := ssl.sha1 mesg
    (if ssl.rsaVerify mesgHash signature pubkey then .ok else .failure, some mesgHash)
  else (.failure, none)

/-- The text a key operation left in its argument; a miss cleared it. -/
def keyText : Data → Bytes
  | .key pubKey => pubKey.getD []
  | _ => []

/-- `mesg_hash` of the message as the verification left it, and the status. -/
def verifyMesg (uuid keyVer : Key64) (mesg signature : Bytes) : ClientM (Status × Bytes) := do
  let got ← getRsaKey lib server uuid keyVer
  match got.1 with
  | .failure => return (.failure, [])
  | .ok =>
      match verifySignature ssl (keyText got.2) mesg signature with
      | (.ok, some mesgHash) => return (.ok, mesgHash)
      | (status, _) => return (status, [])

/-- Both results are released from the same field of the message, which is empty the second
time. -/
def rsaVerifySignature (uuid keyVer : Key64) (mesg signature : Bytes) :
    ClientM (Status × Data) := do
  let ret ← verifyMesg lib ssl server uuid keyVer mesg signature
  let hash := lib.release ret.2
  let pubkey := lib.release []
  return (ret.1, .verified (hash.getD []) (pubkey.getD []))

end Synchronous

/-! ## Asynchronous operations -/

/-- The calls of the caller's function. -/
abbrev Calls := List (Status × Data)

/-- A function that is called with the outcome of an operation. -/
abbrev Callback (ε : Type) := Status → ε → ClientM Calls

/-- Calling a `std::function` that holds none throws. -/
def emptyFunction {ε : Type} : Callback ε := fun _ _ _ => none

/-- The caller's function. -/
def recorded {ε : Type} (view : ε → Data) : Callback ε := fun status given =>
  return [(status, view given)]

section Asynchronous

variable (lib : Protobuf) (ssl : OpenSsl) (server : KeyService)

/-- `gen_rsa_key_callback` -/
def genRsaKeyCallback (resp : PubKeyResp) : ClientM Unit :=
  match resp.pubKeys with
  | [] => return ()
  | keyRec :: _ => putPublicKey keyRec.uuid keyRec.keyVersion keyRec.pubKey

/-- `GenKeyAsync::process_rpc_response`, whose reply is empty when the request failed. -/
def GenKeyAsync.processRpcResponse (rpc : Option PubKeyResp)
    (cb : Callback (Option PubKeyResp)) : ClientM Calls := do
  let resp := rpc.getD default
  genRsaKeyCallback resp
  cb .ok (some resp)

def genRsaKeyAsync (uuid keyVer : Key64) (cb : Callback (Option PubKeyResp)) : ClientM Calls :=
  GenKeyAsync.processRpcResponse (server.generateKey ⟨uuid, keyVer, 0⟩) cb

/-- `SaveKPairAsync::process_rpc_response` -/
def SaveKPairAsync.processRpcResponse (rpc : Option UserKeyRecord)
    (userCb : Callback (Option KeyVer)) : ClientM Calls := do
  match rpc with
  | some resp =>
      let krec ← getPublicKeysCallback resp
      userCb .ok (some (← deref krec.head?))
  | none => userCb .failure none

/-- The request is allocated with a null callback; the caller's is not used. -/
def putRsaKeypairAsync (uuid kver : Key64) (pubKey privKey : Bytes)
    (_callback : Callback (Option KeyVer)) : ClientM Calls :=
  SaveKPairAsync.processRpcResponse (server.saveKeyPair ⟨⟨uuid, kver, pubKey⟩, privKey⟩)
    emptyFunction

/-- `ListPubKeysAsync::process_rpc_response` -/
def ListPubKeysAsync.processRpcResponse (rpc : Option UserKeyRecord)
    (userCb : Callback (Option (List KeyVer))) : ClientM Calls := do
  match rpc with
  | some resp =>
      let krec ← getPublicKeysCallback resp
      userCb .ok (some krec)
  | none => userCb .failure none

def getPublicKeysAsync (uuid : Key64) (callback : Callback (Option (List KeyVer))) :
    ClientM Calls := do
  match ← cachedAllPubKeys uuid with
  | some krec => callback .ok (some krec)
  | none => ListPubKeysAsync.processRpcResponse (server.listPublicKeys ⟨uuid, 0, 0⟩) callback

/-- `QueryPubKeyAsync::process_rpc_response` -/
def QueryPubKeyAsync.processRpcResponse (rpc : Option PubKeyResp)
    (cb : Callback (Option PubKeyResp)) : ClientM Calls := do
  match rpc with
  | some resp =>
      genRsaKeyCallback resp
      cb .ok (some resp)
  | none => cb .failure none

def getRsaKeyAsync (uuid keyVer : Key64) (cb : Callback (Option PubKeyResp)) :
    ClientM Calls := do
  match ← cachedPublicKey uuid keyVer with
  | some pubKey => cb .ok (some ⟨[⟨uuid, keyVer, pubKey⟩]⟩)
  | none => QueryPubKeyAsync.processRpcResponse (server.queryPubKey ⟨uuid, keyVer, 0⟩) cb

/-- `SignMesgAsync::process_rpc_response` -/
def SignMesgAsync.processRpcResponse (rpc : Option SignedMessage)
    (cb : Callback (Option SignedMessage)) : ClientM Calls := do
  match rpc with
  | some resp => cb .ok (some resp)
  | none => cb .failure none

def rsaSignAsync (uuid keyVer : Key64) (mesg : Bytes) (cb : Callback (Option SignedMessage)) :
    ClientM Calls :=
  SignMesgAsync.processRpcResponse (server.signMesg (signReqt uuid keyVer mesg)) cb

/-- `RsaVerifySigCb::callback`. It reads the key back through `get_rsa_key`, which sends a request
of its own where the cache does not have the key. -/
def RsaVerifySigCb.callback (uuid : Key64) (mesg signature : Bytes)
    (usrcb : Callback (Bytes × Bytes)) : Callback (Option PubKeyResp) := fun status resp => do
  match status with
  | .failure => return []
  | .ok =>
      let resp ← deref resp
      match resp.pubKeys with
      | [] => return []
      | keyRec :: _ =>
          genRsaKeyCallback resp
          check (keyRec.uuid = uuid)
          let got ← getRsaKey lib server uuid keyRec.keyVersion
          let pubKey := keyText got.2
          let rt := verifySignature ssl pubKey mesg signature
          check (rt.1 = .ok)
          usrcb rt.1 (← deref rt.2, pubKey)

/-- The service answers the first request, and `later` what the callback may ask it. -/
def rsaVerifySignatureAsync (later : KeyService) (uuid keyVer : Key64) (mesg signature : Bytes)
    (usrcb : Callback (Bytes × Bytes)) : ClientM Calls :=
  getRsaKeyAsync server uuid keyVer (RsaVerifySigCb.callback lib ssl later uuid mesg signature usrcb)

end Asynchronous

end Crypto

end Tvntd
